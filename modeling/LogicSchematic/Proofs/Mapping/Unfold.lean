import LogicSchematic.Mapping
import LogicSchematic.Proofs.Expr.Meaning

/-!
# Circuits and the expressions they stand for

A list of gates is in order (`OrderedFrom`) when every gate reads only variables and gates before
it. Then the one pass of `gateExprs` gives every gate the expression of its operands' expressions
(`getElem?_gateExprs`), and the one pass of `gateWords` gives it the word of that expression, or
ends with the failure of one (`gateWords_cases`).

`WellFormed` adds that the root exists, that it reaches every gate and that no gate lacks operands.
The word of a well-formed circuit is the word of the expression it unfolds to
(`WellFormed.eval_eq`), also where there is none: a gate that fails is reached, so the root fails
with it.
-/

namespace LogicSchematic

/-- A variable, or a gate with an index below `n`. -/
def Operand.Below (n : Nat) : Operand → Prop
  | .var _ => True
  | .gate index => index < n

theorem Operand.Below.mono {m n : Nat} (hmn : m ≤ n) {x : Operand} (h : x.Below m) : x.Below n := by
  cases x with
  | var name => trivial
  | gate index => exact Nat.lt_of_lt_of_le h hmn

namespace Mapping

/-- Every gate reads only gates before it; the first gate has the index `n`. -/
def OrderedFrom : Nat → List MappedGate → Prop
  | _, [] => True
  | n, g :: gs => (∀ x ∈ g.operands, x.Below n) ∧ OrderedFrom (n + 1) gs

theorem orderedFrom_iff {n : Nat} {gs : List MappedGate} :
    OrderedFrom n gs ↔
      ∀ (i : Nat) (g : MappedGate), gs[i]? = some g → ∀ x ∈ g.operands, x.Below (n + i) := by
  induction gs generalizing n with
  | nil => simp [OrderedFrom]
  | cons g gs ih =>
    rw [OrderedFrom, ih]
    constructor
    · rintro ⟨hg, hgs⟩ i k hk
      cases i with
      | zero =>
        cases hk
        exact hg
      | succ i =>
        rw [show n + (i + 1) = n + 1 + i by omega]
        exact hgs i k hk
    · intro h
      refine ⟨h 0 g rfl, fun i k hk => ?_⟩
      rw [show n + 1 + i = n + (i + 1) by omega]
      exact h (i + 1) k hk

/-- In order from the start, a gate reads gates with smaller indices. -/
theorem below_of_mem {gs : List MappedGate} (h : OrderedFrom 0 gs) {i : Nat} {g : MappedGate}
    (hg : gs[i]? = some g) : ∀ x ∈ g.operands, x.Below i := by
  have hbelow := orderedFrom_iff.mp h i g hg
  rwa [Nat.zero_add] at hbelow

/-! ## The expressions of gates -/

theorem size_gateExprs (exprs : Array Expr) (gs : List MappedGate) :
    (gateExprs exprs gs).size = exprs.size + gs.length := by
  induction gs generalizing exprs with
  | nil => rfl
  | cons g gs ih =>
    rw [gateExprs, ih, Array.size_push, List.length_cons]
    omega

theorem size_gateExprs_empty (gs : List MappedGate) : (gateExprs #[] gs).size = gs.length := by
  rw [size_gateExprs, Array.size_empty, Nat.zero_add]

theorem gateExprs_append (exprs : Array Expr) (gs hs : List MappedGate) :
    gateExprs exprs (gs ++ hs) = gateExprs (gateExprs exprs gs) hs := by
  induction gs generalizing exprs with
  | nil => rfl
  | cons g gs ih => exact ih _

/-- The expressions of the first gates stay. -/
theorem getElem?_gateExprs_of_lt {exprs : Array Expr} {i : Nat} (h : i < exprs.size)
    (gs : List MappedGate) : (gateExprs exprs gs)[i]? = exprs[i]? := by
  induction gs generalizing exprs with
  | nil => rfl
  | cons g gs ih =>
    rw [gateExprs, ih (by rw [Array.size_push]; omega), Array.getElem?_push_lt h,
      Array.getElem?_eq_getElem h]

theorem operandExpr_gateExprs {exprs : Array Expr} {x : Operand} (h : x.Below exprs.size)
    (gs : List MappedGate) : operandExpr (gateExprs exprs gs) x = operandExpr exprs x := by
  cases x with
  | var name => rfl
  | gate index => rw [operandExpr, operandExpr, getElem?_gateExprs_of_lt h]

/-- Every gate has the expression of its operands' expressions. -/
theorem getElem?_gateExprs {exprs : Array Expr} {gs : List MappedGate}
    (h : OrderedFrom exprs.size gs) {i : Nat} {g : MappedGate} (hg : gs[i]? = some g) :
    (gateExprs exprs gs)[exprs.size + i]? =
      some (.gate g.gate (g.operands.map (operandExpr (gateExprs exprs gs)))) := by
  induction gs generalizing exprs i with
  | nil => simp at hg
  | cons k gs ih =>
    obtain ⟨hk, hgs⟩ := h
    rw [gateExprs]
    cases i with
    | zero =>
      cases hg
      have hsame : g.operands.map (operandExpr exprs) = g.operands.map (operandExpr
          (gateExprs (exprs.push (.gate g.gate (g.operands.map (operandExpr exprs)))) gs)) := by
        refine List.map_congr_left fun x hx => ?_
        exact (operandExpr_gateExprs (hk x hx) (g :: gs)).symm
      rw [getElem?_gateExprs_of_lt (by rw [Array.size_push]; omega), Nat.add_zero,
        Array.getElem?_push_size, ← hsame]
    | succ i =>
      have hpush : OrderedFrom
          (exprs.push (.gate k.gate (k.operands.map (operandExpr exprs)))).size gs := by
        rw [Array.size_push]
        exact hgs
      have := ih hpush hg
      rw [Array.size_push, show exprs.size + 1 + i = exprs.size + (i + 1) by omega] at this
      exact this

theorem getElem?_gateExprs_empty {gs : List MappedGate} (h : OrderedFrom 0 gs) {i : Nat}
    {g : MappedGate} (hg : gs[i]? = some g) :
    (gateExprs #[] gs)[i]? =
      some (.gate g.gate (g.operands.map (operandExpr (gateExprs #[] gs)))) := by
  have hstart : OrderedFrom (#[] : Array Expr).size gs := h
  have := getElem?_gateExprs hstart hg
  rwa [Array.size_empty, Nat.zero_add] at this

/-- The operand of a gate has the expression of the gate. -/
theorem operandExpr_gate {gs : List MappedGate} (h : OrderedFrom 0 gs) {i : Nat} {g : MappedGate}
    (hg : gs[i]? = some g) : operandExpr (gateExprs #[] gs) (.gate i) =
      .gate g.gate (g.operands.map (operandExpr (gateExprs #[] gs))) := by
  rw [operandExpr, getElem?_gateExprs_empty h hg, Option.getD_some]

/-! ## The words of gates -/

/-- Every word is the word of the expression at its place. -/
def WordsOf (values : Valuation) (words : Array UInt64) (exprs : Array Expr) : Prop :=
  words.size = exprs.size ∧
    ∀ (i : Nat) (w : UInt64), words[i]? = some w →
      ∃ e : Expr, exprs[i]? = some e ∧ e.eval values = .ok w

variable {values : Valuation} {words : Array UInt64} {exprs : Array Expr}

theorem operandWord_eq (h : WordsOf values words exprs) {x : Operand} (hx : x.Below exprs.size) :
    operandWord values words x = (operandExpr exprs x).eval values := by
  cases x with
  | var name => rfl
  | gate index =>
    have hlt : index < words.size := by rw [h.1]; exact hx
    have hw : words[index]? = some words[index] := Array.getElem?_eq_getElem hlt
    obtain ⟨e, he, hval⟩ := h.2 index _ hw
    simp [operandWord, operandExpr, hw, he, hval]

theorem gateWord_eq (h : WordsOf values words exprs) {g : MappedGate}
    (hg : ∀ x ∈ g.operands, x.Below exprs.size) :
    gateWord values words g =
      (Expr.gate g.gate (g.operands.map (operandExpr exprs))).eval values := by
  rw [Expr.gate, Expr.eval_gate, List.mapM_map, gateWord]
  rw [Except.mapM_congr (List.forall₂_same.mpr fun x hx => operandWord_eq h (hg x hx))]
  rfl

theorem WordsOf.push (h : WordsOf values words exprs) {w : UInt64} {e : Expr}
    (he : e.eval values = .ok w) : WordsOf values (words.push w) (exprs.push e) := by
  refine ⟨by rw [Array.size_push, Array.size_push, h.1], fun i v hv => ?_⟩
  rw [Array.getElem?_push] at hv ⊢
  rw [← h.1]
  split at hv
  next hi =>
    cases hv
    exact ⟨e, by simp [hi], he⟩
  next hi =>
    rw [if_neg hi]
    exact h.2 i v hv

/-- The words of gates in order are those of their expressions, unless one of these fails: then the
pass ends with that failure. -/
theorem gateWords_cases {gs : List MappedGate} (h : WordsOf values words exprs)
    (hord : OrderedFrom exprs.size gs) :
    (∃ words', gateWords values words gs = .ok words' ∧
      WordsOf values words' (gateExprs exprs gs)) ∨
    ∃ i e err, (gateExprs exprs gs)[i]? = some e ∧ exprs.size ≤ i ∧ e.eval values = .error err ∧
      gateWords values words gs = .error err := by
  induction gs generalizing words exprs with
  | nil => exact .inl ⟨words, rfl, h⟩
  | cons g gs ih =>
    obtain ⟨hg, hgs⟩ := hord
    rw [gateWords, gateExprs, gateWord_eq h hg]
    cases he : (Expr.gate g.gate (g.operands.map (operandExpr exprs))).eval values with
    | error err =>
      -- the pass ends here, and the failing gate is the next one
      refine .inr ⟨exprs.size, _, err, ?_, Nat.le_refl _, he, rfl⟩
      rw [getElem?_gateExprs_of_lt (by rw [Array.size_push]; omega), Array.getElem?_push_size]
    | ok w =>
      rcases ih (h.push he) (by rw [Array.size_push]; exact hgs) with hok | hfail
      · exact .inl hok
      · obtain ⟨i, e, err, hi, hle, hfail⟩ := hfail
        rw [Array.size_push] at hle
        exact .inr ⟨i, e, err, hi, by omega, hfail⟩

/-! ## Well-formed circuits -/

/-- The gate `i` is an operand of one of the gates `gs`, of a gate that this one reads, and so on.
-/
inductive Reaches (gs : List MappedGate) : Operand → Nat → Prop
  | here (i : Nat) : Reaches gs (.gate i) i
  | step {i j : Nat} {g : MappedGate} {x : Operand} (hg : gs[j]? = some g) (hx : x ∈ g.operands)
      (h : Reaches gs x i) : Reaches gs (.gate j) i

theorem not_reaches_var {gs : List MappedGate} {name : String} {i : Nat} :
    ¬ Reaches gs (.var name) i := by
  intro h
  cases h

/-- What a gate reaches, by the first step. -/
theorem reaches_gate_iff {gs : List MappedGate} {i j : Nat} :
    Reaches gs (.gate j) i ↔
      i = j ∨ ∃ g k, gs[j]? = some g ∧ .gate k ∈ g.operands ∧ Reaches gs (.gate k) i := by
  constructor
  · intro h
    cases h with
    | here => exact .inl rfl
    | @step _ _ g x hg hx hr =>
      cases x with
      | var name => exact absurd hr not_reaches_var
      | gate k => exact .inr ⟨g, k, hg, hx, hr⟩
  · rintro (rfl | ⟨g, k, hg, hk, hr⟩)
    · exact .here i
    · exact .step hg hk hr

theorem Reaches.trans {gs : List MappedGate} {x : Operand} {i j : Nat} (hx : Reaches gs x i)
    (hi : Reaches gs (.gate i) j) : Reaches gs x j := by
  induction hx with
  | here i => exact hi
  | step hg hmem _ ih => exact .step hg hmem (ih hi)

/-- In order, nothing reads a gate after it, at any distance. -/
theorem lt_of_reaches {gs : List MappedGate} (hord : OrderedFrom 0 gs) {x : Operand} {i n : Nat}
    (h : Reaches gs x i) (hx : x.Below n) : i < n := by
  induction h generalizing n with
  | here i => exact hx
  | @step i j g x hg hmem _ ih =>
    exact Nat.lt_trans (ih (below_of_mem hord hg x hmem)) hx

/-- A circuit whose gates are in order, all of them needed and none without operands. -/
structure WellFormed (m : Mapping) : Prop where
  ordered : OrderedFrom 0 m.gates
  root_below : m.root.Below m.gates.length
  reached : ∀ i < m.gates.length, Reaches m.gates m.root i
  operands_ne_nil : ∀ g ∈ m.gates, g.operands ≠ []

variable {Q : Expr → Prop}

theorem forall_operandExpr (h : ∀ e ∈ exprs, Q e) {x : Operand} (hx : x.Below exprs.size)
    (hvar : ∀ name, x = .var name → Q (.var name)) : Q (operandExpr exprs x) := by
  cases x with
  | var name => exact hvar name rfl
  | gate index =>
    rw [operandExpr, Array.getElem?_eq_getElem hx]
    exact h _ (Array.getElem_mem hx)

/-- What holds of the variables that are read, and of every gate over expressions of which it holds,
holds of the expressions of all gates. -/
theorem forall_gateExprs {gs : List MappedGate} (hord : OrderedFrom exprs.size gs)
    (h : ∀ e ∈ exprs, Q e) (hvar : ∀ g ∈ gs, ∀ name, .var name ∈ g.operands → Q (.var name))
    (hgate : ∀ g ∈ gs, ∀ es : List Expr, es.length = g.operands.length → (∀ e ∈ es, Q e) →
      Q (.gate g.gate es)) : ∀ e ∈ gateExprs exprs gs, Q e := by
  induction gs generalizing exprs with
  | nil => exact h
  | cons g gs ih =>
    obtain ⟨hg, hgs⟩ := hord
    rw [List.forall_mem_cons] at hvar hgate
    refine ih (by rw [Array.size_push]; exact hgs) ?_ hvar.2 hgate.2
    intro e he
    rcases Array.mem_push.mp he with he | rfl
    · exact h e he
    · refine hgate.1 _ (List.length_map _) fun e he => ?_
      obtain ⟨x, hx, rfl⟩ := List.mem_map.mp he
      exact forall_operandExpr h (hg x hx) fun name hname => hvar.1 name (hname ▸ hx)

theorem mem_variableNames {m : Mapping} {name : String} :
    name ∈ m.variableNames ↔ (∃ g ∈ m.gates, .var name ∈ g.operands) ∨ m.root = .var name := by
  have hname : ∀ x : Operand, x.name? = some name ↔ x = .var name := by
    intro x
    cases x <;> simp [Operand.name?]
  rw [variableNames, List.mem_eraseDups, List.mem_filterMap]
  simp only [hname, List.mem_append, List.mem_flatMap, List.mem_singleton]
  constructor
  · rintro ⟨x, ⟨g, hg, hx⟩ | hx, rfl⟩
    · exact .inl ⟨g, hg, hx⟩
    · exact .inr hx.symm
  · rintro (⟨g, hg, hx⟩ | hx)
    · exact ⟨_, .inl ⟨g, hg, hx⟩, rfl⟩
    · exact ⟨_, .inr hx.symm, rfl⟩

/-- What holds of the variables of a well-formed circuit, and of each of its gates over expressions
of which it holds, holds of the expressions of its gates and of its own. -/
theorem WellFormed.forall_exprs_of_gates {m : Mapping} (h : m.WellFormed)
    (hvar : ∀ name ∈ m.variableNames, Q (.var name))
    (hgate : ∀ g ∈ m.gates, ∀ es : List Expr, es.length = g.operands.length → (∀ e ∈ es, Q e) →
      Q (.gate g.gate es)) :
    (∀ e ∈ gateExprs #[] m.gates, Q e) ∧ Q m.unfold := by
  have hall : ∀ e ∈ gateExprs #[] m.gates, Q e := by
    refine forall_gateExprs h.ordered (by simp) ?_ hgate
    exact fun g hg name hmem => hvar name (mem_variableNames.mpr (.inl ⟨g, hg, hmem⟩))
  refine ⟨hall, forall_operandExpr hall ?_ ?_⟩
  · rw [size_gateExprs_empty]
    exact h.root_below
  · exact fun name hname => hvar name (mem_variableNames.mpr (.inr hname))

/-- The same of any gates over some expressions. -/
theorem WellFormed.forall_exprs {m : Mapping} (h : m.WellFormed)
    (hvar : ∀ name ∈ m.variableNames, Q (.var name))
    (hgate : ∀ g, ∀ es : List Expr, 0 < es.length → (∀ e ∈ es, Q e) → Q (.gate g es)) :
    (∀ e ∈ gateExprs #[] m.gates, Q e) ∧ Q m.unfold := by
  refine h.forall_exprs_of_gates hvar fun g hg es hlen hes => hgate g.gate es ?_ hes
  rw [hlen]
  exact List.length_pos_iff.mpr (h.operands_ne_nil g hg)

theorem WellFormed.proper {m : Mapping} (h : m.WellFormed) :
    (∀ e ∈ gateExprs #[] m.gates, e.Proper) ∧ m.unfold.Proper :=
  h.forall_exprs (fun name _ => Expr.everywhere_var _ name) fun _ _ hlen hes =>
    Expr.everywhere_op.mpr ⟨hlen, hes⟩

/-- An operand fails when it reaches a gate that does. -/
theorem error_of_reaches {gs : List MappedGate} (hord : OrderedFrom 0 gs) {x : Operand} {i : Nat}
    (h : Reaches gs x i) {e : Expr} (he : (gateExprs #[] gs)[i]? = some e) {err : EvalError}
    (hfail : e.eval values = .error err) :
    ∃ err, (operandExpr (gateExprs #[] gs) x).eval values = .error err := by
  induction h with
  | here i => exact ⟨err, by rw [operandExpr, he]; exact hfail⟩
  | @step i j g x hg hx _ ih =>
    obtain ⟨err, hx'⟩ := ih he
    rw [operandExpr_gate hord hg]
    exact Expr.error_of_mem (List.mem_map_of_mem hx) hx'

/-- The word of a well-formed circuit is the word of the expression it stands for. -/
theorem WellFormed.eval_eq {m : Mapping} (h : m.WellFormed) (values : Valuation) :
    m.eval values = m.unfold.eval values := by
  have hstart : WordsOf values #[] #[] := ⟨rfl, by simp⟩
  rcases gateWords_cases hstart h.ordered with hok | hfail
  · obtain ⟨words, hwords, hsame⟩ := hok
    rw [eval, hwords]
    refine operandWord_eq hsame ?_
    rw [size_gateExprs_empty]
    exact h.root_below
  · -- the gate that fails is reached, and a failure here is always an undetermined one
    obtain ⟨i, e, err, he, -, herr, hwords⟩ := hfail
    have hi : i < m.gates.length := by
      have := (Array.getElem?_eq_some_iff.mp he).1
      rwa [size_gateExprs_empty] at this
    obtain ⟨err', hroot⟩ := error_of_reaches h.ordered (h.reached i hi) he herr
    have hund := Expr.error_of_proper (h.proper.1 e (Array.mem_of_getElem? he)) herr
    have hund' := Expr.error_of_proper h.proper.2 hroot
    rw [eval, hwords, unfold, hroot, hund, hund']
    rfl

/-- A well-formed circuit whose variables have words has a word. -/
theorem WellFormed.eval_isOk {m : Mapping} (h : m.WellFormed)
    (hvar : ∀ name ∈ m.variableNames, ∃ w, values name = some w) :
    ∃ w, m.eval values = .ok w := by
  rw [h.eval_eq values]
  refine (h.forall_exprs (Q := fun e => ∃ w, e.eval values = .ok w) ?_ ?_).2
  · intro name hname
    obtain ⟨w, hw⟩ := hvar name hname
    exact ⟨w, by rw [Expr.eval_var, Valuation.get, hw]⟩
  · exact fun g es hlen hes => Expr.eval_gate_isOk (List.length_pos_iff.mp hlen) hes

theorem exists_word_of_gateWords {words words' : Array UInt64} {gs : List MappedGate}
    (h : gateWords values words gs = .ok words') :
    ∀ g ∈ gs, ∀ name, .var name ∈ g.operands → ∃ w, values name = some w := by
  induction gs generalizing words with
  | nil => simp
  | cons g gs ih =>
    obtain ⟨w, hw, hgs⟩ := Except.bind_eq_ok_iff.mp h
    refine List.forall_mem_cons.mpr ⟨fun name hname => ?_, ih hgs⟩
    obtain ⟨ws, hws, -⟩ := Except.bind_eq_ok_iff.mp hw
    obtain ⟨v, -, hv⟩ := Except.exists_of_mapM_eq_ok hws hname
    exact ⟨v, Expr.get_eq_ok_iff.mp hv⟩

/-- A circuit that has a word has a word for every variable. -/
theorem exists_word_of_eval {m : Mapping} {w : UInt64} (h : m.eval values = .ok w) :
    ∀ name ∈ m.variableNames, ∃ v, values name = some v := by
  obtain ⟨words, hwords, hroot⟩ := Except.bind_eq_ok_iff.mp h
  intro name hname
  rcases mem_variableNames.mp hname with ⟨g, hg, hname⟩ | hname
  · exact exists_word_of_gateWords hwords g hg name hname
  · rw [hname] at hroot
    exact ⟨w, Expr.get_eq_ok_iff.mp hroot⟩

end Mapping

end LogicSchematic
