import LogicSchematic.Equivalence
import LogicSchematic.Proofs.Except
import LogicSchematic.Proofs.Expr.Shape

/-!
# Truth values

The value of an expression under one assignment of truth values, gate by gate. Words are 64
assignments side by side: each bit of the word of a gate is the value of the gate for the bits of
its operands at the same place (`Gate.value?_bitAt`), and so is each bit of the word of an
expression (`Expr.value_bitAt`). Since a word is known by its bits (`eq_of_bitAt`), what holds of
the values under all assignments holds of words.
-/

namespace LogicSchematic

/-! ## Bits of words -/

section Bits

variable {j : Nat}

@[simp] theorem bitAt_and (w v : UInt64) (j : Nat) :
    bitAt (w &&& v) j = (bitAt w j && bitAt v j) := by
  simp [bitAt]

@[simp] theorem bitAt_or (w v : UInt64) (j : Nat) :
    bitAt (w ||| v) j = (bitAt w j || bitAt v j) := by
  simp [bitAt]

@[simp] theorem bitAt_xor (w v : UInt64) (j : Nat) :
    bitAt (w ^^^ v) j = (bitAt w j ^^ bitAt v j) := by
  simp [bitAt]

theorem bitAt_not (w : UInt64) (hj : j < 64) : bitAt (~~~w) j = !bitAt w j := by
  have hw : w.toNat < 2 ^ 64 := w.toNat_lt
  have hnot : (~~~w).toNat = 2 ^ 64 - (w.toNat + 1) := by
    rw [UInt64.toNat_not, UInt64.size]
    omega
  rw [bitAt, bitAt, hnot, Nat.testBit_two_pow_sub_succ hw, decide_eq_true hj, Bool.true_and]

@[simp] theorem bitAt_zero (j : Nat) : bitAt 0 j = false := by
  simp [bitAt]

/-- Words with the same bits are the same. -/
theorem eq_of_bitAt {w v : UInt64} (h : ∀ j < 64, bitAt w j = bitAt v j) : w = v := by
  refine UInt64.toNat_inj.mp (Nat.eq_of_testBit_eq fun j => ?_)
  by_cases hj : j < 64
  · exact h j hj
  · -- a word has no bits from the 64th on
    have hnone : ∀ u : UInt64, u.toNat.testBit j = false := fun u =>
      Nat.testBit_lt_two_pow (Nat.lt_of_lt_of_le u.toNat_lt
        (Nat.pow_le_pow_right (by decide) (Nat.le_of_not_lt hj)))
    rw [hnone w, hnone v]

end Bits

/-! ## Gates -/

namespace Gate

/-- The truth value a gate computes from those of its operands. -/
def value? : Gate → List Bool → Option Bool
  | .and, bs => some (bs.all id)
  | .or, bs => some (bs.any id)
  | .not, [] => none
  | .not, b :: _ => some (!b)
  | .nand, bs => some (!bs.all id)
  | .nor, bs => some (!bs.any id)
  | .xor, bs => some (bs.count true % 2 == 1)
  | .xnor, bs => some (!(bs.count true % 2 == 1))
  | .nand4, bs => some (!bs.all id)

variable {j : Nat}

theorem bitAt_conjunction (ws : List UInt64) (hj : j < 64) :
    bitAt (conjunction ws) j = (ws.map (bitAt · j)).all id := by
  have hfold : ∀ w, bitAt (ws.foldl (· &&& ·) w) j = (bitAt w j && (ws.map (bitAt · j)).all id) := by
    induction ws with
    | nil => simp
    | cons v ws ih => simp [ih, Bool.and_assoc]
  rw [conjunction, hfold, bitAt_not 0 hj, bitAt_zero, Bool.not_false, Bool.true_and]

theorem bitAt_disjunction (ws : List UInt64) (j : Nat) :
    bitAt (disjunction ws) j = (ws.map (bitAt · j)).any id := by
  have hfold : ∀ w, bitAt (ws.foldl (· ||| ·) w) j = (bitAt w j || (ws.map (bitAt · j)).any id) := by
    induction ws with
    | nil => simp
    | cons v ws ih => simp [ih, Bool.or_assoc]
  rw [disjunction, hfold, bitAt_zero, Bool.false_or]

theorem bitAt_parity (ws : List UInt64) (j : Nat) :
    bitAt (parity ws) j = ((ws.map (bitAt · j)).count true % 2 == 1) := by
  have hfold : ∀ w, bitAt (ws.foldl (· ^^^ ·) w) j =
      (bitAt w j ^^ ((ws.map (bitAt · j)).count true % 2 == 1)) := by
    induction ws with
    | nil => simp
    | cons v ws ih =>
      intro w
      rw [List.foldl_cons, ih, List.map_cons, List.count_cons, bitAt_xor, Bool.xor_assoc]
      cases bitAt v j with
      | false => simp
      | true =>
        rcases Nat.mod_two_eq_zero_or_one ((ws.map (bitAt · j)).count true) with h | h <;>
          simp [Nat.add_mod, h]
  rw [parity, hfold, bitAt_zero, Bool.false_xor]

/-- A gate computes bit by bit. -/
theorem value?_bitAt (g : Gate) (ws : List UInt64) (hj : j < 64) :
    g.value? (ws.map (bitAt · j)) = (g.eval? ws).map (bitAt · j) := by
  cases g with
  | not =>
    cases ws with
    | nil => rfl
    | cons w ws => simp [value?, eval?, bitAt_not w hj]
  | _ =>
    simp [value?, eval?, bitAt_not, bitAt_conjunction, bitAt_disjunction, bitAt_parity, hj]

end Gate

/-! ## Expressions -/

/-- The truth values given to names; a name may have none. -/
abbrev Assignment := String → Option Bool

/-- The assignment of a list of pairs; the first pair of a name counts. -/
def Assignment.ofList (pairs : List (String × Bool)) : Assignment :=
  fun name => pairs.lookup name

/-- The assignment at one place of the words of a valuation. -/
def Valuation.bits (values : Valuation) (j : Nat) : Assignment :=
  fun name => (values name).map (bitAt · j)

namespace Expr

mutual

/-- The truth value of an expression. It has none when a variable has none or a name is called that
is no gate. -/
def value (assignment : Assignment) : Expr → Option Bool
  | .var name => assignment name
  | .op (.gate g) es => do g.value? (← valueAll assignment es)
  | .op (.call _) _ => none

/-- The truth values of several expressions. -/
def valueAll (assignment : Assignment) : List Expr → Option (List Bool)
  | [] => some []
  | e :: es => do
    let b ← value assignment e
    let bs ← valueAll assignment es
    return b :: bs

end

theorem valueAll_eq_mapM (assignment : Assignment) (es : List Expr) :
    valueAll assignment es = es.mapM (value assignment) := by
  induction es with
  | nil => rfl
  | cons e es ih => rw [valueAll, ih, List.mapM_cons]

theorem valueAll_bitAt {values : Valuation} {j : Nat} {es : List Expr}
    (h : ∀ e ∈ es, e.value (values.bits j) = (e.eval values).toOption.map (bitAt · j)) :
    valueAll (values.bits j) es = (es.mapM (eval values)).toOption.map (List.map (bitAt · j)) := by
  induction es with
  | nil => rfl
  | cons e es ih =>
    rw [List.forall_mem_cons] at h
    rw [valueAll, h.1, ih h.2, List.mapM_cons]
    cases e.eval values with
    | error err => rfl
    | ok w => cases es.mapM (eval values) <;> rfl

/-- Every bit of the word of an expression is its truth value for the bits at this place. -/
theorem value_bitAt (values : Valuation) {j : Nat} (hj : j < 64) (e : Expr) :
    e.value (values.bits j) = (e.eval values).toOption.map (bitAt · j) := by
  induction e with
  | var name =>
    rw [value, eval_var, Valuation.get, Valuation.bits]
    cases values name <;> rfl
  | op o es ih =>
    cases o with
    | call name => rfl
    | gate g =>
      rw [value, valueAll_bitAt ih, eval_gate]
      cases es.mapM (eval values) with
      | error err => rfl
      | ok ws =>
        show g.value? (ws.map (bitAt · j)) = (g.eval ws).toOption.map (bitAt · j)
        rw [Gate.value?_bitAt g ws hj, Gate.eval]
        cases g.eval? ws <;> rfl

/-- Only the truth values of the variables matter. -/
theorem value_congr {σ τ : Assignment} {e : Expr} (h : ∀ name ∈ e.occurrences, σ name = τ name) :
    e.value σ = e.value τ := by
  induction e with
  | var name => exact h name (by simp [occurrences])
  | op o es ih =>
    cases o with
    | call name => rfl
    | gate g =>
      rw [occurrences, occurrencesAll_eq_flatMap] at h
      have hes : valueAll σ es = valueAll τ es := by
        rw [valueAll_eq_mapM, valueAll_eq_mapM]
        refine Option.mapM_congr fun e he => ih e he fun name hname => h name ?_
        exact List.mem_flatMap.mpr ⟨e, he, hname⟩
      rw [value, value, hes]

/-- A word is the word of an expression when its bits are the truth values. -/
theorem eval_eq_ok_iff_value {values : Valuation} {e : Expr} {w : UInt64} :
    e.eval values = .ok w ↔ ∀ j < 64, e.value (values.bits j) = some (bitAt w j) := by
  constructor
  · intro h j hj
    rw [e.value_bitAt values hj, h]
    rfl
  · intro h
    cases heval : e.eval values with
    | error err =>
      have := h 0 (by decide)
      rw [e.value_bitAt values (by decide), heval] at this
      cases this
    | ok v =>
      refine congrArg Except.ok (eq_of_bitAt fun j hj => ?_)
      have := h j hj
      rw [e.value_bitAt values hj, heval] at this
      exact Option.some.inj this

end Expr

end LogicSchematic
