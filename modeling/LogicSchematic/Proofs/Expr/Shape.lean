import LogicSchematic.Expr.Eval

/-!
# The shape of expressions

`Everywhere p e` says that `p` holds of every operator of `e` and the number of its operands, at
every depth. The conditions that the theory of expressions is stated under are of this form:

* `Proper`: every operator has an operand. A proper expression can only fail to have a word because
  something in it is undetermined (`eval_of_proper`), never for want of an operand.
* `UnaryNot`: every inverter has exactly one operand.
* `InvertersFed`: every inverter has an operand. This is what it takes for an evaluation not to fail
  for want of one; both conditions before imply it.
* `CallFree`: every operator is a gate.

Flattening keeps such a condition when it holds of wide conjunctions and disjunctions anyway
(`flatten_everywhere`). `nodeCount` measures an expression by its operators and its variable
occurrences.
-/

namespace LogicSchematic

/-- Whether an operator is a gate. -/
def Op.isGate : Op → Bool
  | .gate _ => true
  | .call _ => false

namespace Expr

/-- Induction over expressions, with the hypothesis for every operand. -/
@[induction_eliminator]
theorem induct {motive : Expr → Prop} (var : ∀ name, motive (.var name))
    (op : ∀ o es, (∀ e ∈ es, motive e) → motive (.op o es)) (e : Expr) : motive e := by
  cases e with
  | var name => exact var name
  | op o es => exact op o es fun e _ => induct var op e

/-! ## Conditions on every operator -/

mutual

/-- Whether `p` holds of every operator and the number of its operands. -/
def Everywhere (p : Op → Nat → Prop) : Expr → Prop
  | .var _ => True
  | .op o es => p o es.length ∧ EverywhereAll p es

/-- Whether `p` holds of every operator of several expressions. -/
def EverywhereAll (p : Op → Nat → Prop) : List Expr → Prop
  | [] => True
  | e :: es => Everywhere p e ∧ EverywhereAll p es

end

variable {p q : Op → Nat → Prop}

theorem everywhereAll_iff {es : List Expr} :
    EverywhereAll p es ↔ ∀ e ∈ es, e.Everywhere p := by
  induction es with
  | nil => simp [EverywhereAll]
  | cons e es ih => simp [EverywhereAll, ih]

@[simp] theorem everywhere_var (p : Op → Nat → Prop) (name : String) :
    (Expr.var name).Everywhere p := by
  simp [Everywhere]

@[simp] theorem everywhere_op {o : Op} {es : List Expr} :
    (Expr.op o es).Everywhere p ↔ p o es.length ∧ ∀ e ∈ es, e.Everywhere p := by
  rw [Everywhere, everywhereAll_iff]

theorem Everywhere.mono (h : ∀ o n, p o n → q o n) {e : Expr} (he : e.Everywhere p) :
    e.Everywhere q := by
  induction e with
  | var name => exact everywhere_var q name
  | op o es ih =>
    obtain ⟨ho, hes⟩ := everywhere_op.mp he
    exact everywhere_op.mpr ⟨h o _ ho, fun e hm => ih e hm (hes e hm)⟩

theorem Everywhere.and {e : Expr} (hp : e.Everywhere p) (hq : e.Everywhere q) :
    e.Everywhere fun o n => p o n ∧ q o n := by
  induction e with
  | var name => exact everywhere_var _ name
  | op o es ih =>
    obtain ⟨hpo, hpe⟩ := everywhere_op.mp hp
    obtain ⟨hqo, hqe⟩ := everywhere_op.mp hq
    exact everywhere_op.mpr ⟨⟨hpo, hqo⟩, fun e hm => ih e hm (hpe e hm) (hqe e hm)⟩

mutual

/-- Decides a condition on every operator. -/
def decideEverywhere (p : Op → Nat → Prop) [∀ o n, Decidable (p o n)] :
    (e : Expr) → Decidable (e.Everywhere p)
  | .var _ => .isTrue (everywhere_var p _)
  | .op o es =>
    have := decideEverywhereAll p es
    decidable_of_iff (p o es.length ∧ EverywhereAll p es) (by rw [Everywhere])

/-- Decides a condition on every operator of several expressions. -/
def decideEverywhereAll (p : Op → Nat → Prop) [∀ o n, Decidable (p o n)] :
    (es : List Expr) → Decidable (EverywhereAll p es)
  | [] => .isTrue (by simp [EverywhereAll])
  | e :: es =>
    have := decideEverywhere p e
    have := decideEverywhereAll p es
    decidable_of_iff (e.Everywhere p ∧ EverywhereAll p es) (by rw [EverywhereAll])

end

instance (p : Op → Nat → Prop) [∀ o n, Decidable (p o n)] (e : Expr) :
    Decidable (e.Everywhere p) :=
  decideEverywhere p e

/-- Every operator has an operand. -/
def Proper (e : Expr) : Prop := e.Everywhere fun _ n => 0 < n

/-- Every inverter has exactly one operand. -/
def UnaryNot (e : Expr) : Prop := e.Everywhere fun o n => o = .gate .not → n = 1

/-- Every inverter has an operand. -/
def InvertersFed (e : Expr) : Prop := e.Everywhere fun o n => o = .gate .not → 0 < n

/-- Every operator is a gate. -/
def CallFree (e : Expr) : Prop := e.Everywhere fun o _ => o.isGate = true

instance (e : Expr) : Decidable e.Proper := inferInstanceAs (Decidable (e.Everywhere _))

instance (e : Expr) : Decidable e.UnaryNot := inferInstanceAs (Decidable (e.Everywhere _))

instance (e : Expr) : Decidable e.InvertersFed := inferInstanceAs (Decidable (e.Everywhere _))

instance (e : Expr) : Decidable e.CallFree := inferInstanceAs (Decidable (e.Everywhere _))

theorem Proper.invertersFed {e : Expr} (h : e.Proper) : e.InvertersFed := by
  have hpos : ∀ (o : Op) (n : Nat), 0 < n → o = .gate .not → 0 < n := fun _ _ hpos _ => hpos
  exact Everywhere.mono hpos h

/-! ## Flattening -/

/-- What an expression contributes to a gate above it satisfies what the expression satisfies, and
there is something of it. -/
theorem everywhere_spliced (hp : ∀ o n, p o n → 0 < n) {e : Expr} (he : e.Everywhere p) (g : Gate) :
    (∀ f ∈ spliced g e, f.Everywhere p) ∧ 0 < (spliced g e).length := by
  cases e with
  | var name => simp [spliced]
  | op o es =>
    have hes := everywhere_op.mp he
    cases o with
    | call name => simpa [spliced] using hes
    | gate k =>
      by_cases hk : k = g
      · simp only [spliced, if_pos hk]
        exact ⟨hes.2, hp _ _ hes.1⟩
      · simpa [spliced, if_neg hk] using hes

theorem length_flatMap_spliced_pos (hp : ∀ o n, p o n → 0 < n) {es : List Expr}
    (hes : 0 < es.length) (he : ∀ e ∈ es, e.Everywhere p) (g : Gate) :
    0 < (es.flatMap (spliced g)).length := by
  cases es with
  | nil => simp at hes
  | cons e es =>
    have := (everywhere_spliced hp (he e (by simp)) g).2
    simp only [List.flatMap_cons, List.length_append]
    omega

/-- Flattening keeps a condition that requires operands and is met by every merged gate that has
some. -/
theorem flatten_everywhere (hp : ∀ o n, p o n → 0 < n)
    (hm : ∀ g n, isMerged g = true → 0 < n → p (.gate g) n) {e : Expr} (he : e.Everywhere p) :
    e.flatten.Everywhere p := by
  induction e with
  | var name => exact everywhere_var p name
  | op o es ih =>
    obtain ⟨ho, hes⟩ := everywhere_op.mp he
    have hfl : ∀ e ∈ es.map flatten, e.Everywhere p := by
      intro e hmem
      obtain ⟨f, hf, rfl⟩ := List.mem_map.mp hmem
      exact ih f hf (hes f hf)
    cases o with
    | call name =>
      rw [flatten_call]
      exact everywhere_op.mpr ⟨by simpa using ho, hfl⟩
    | gate g =>
      rw [flatten_gate]
      split
      next hg =>
        have hpos := length_flatMap_spliced_pos hp (by simpa using hp _ _ ho) hfl g
        refine everywhere_op.mpr ⟨hm g _ hg hpos, ?_⟩
        intro e hmem
        obtain ⟨f, hf, hef⟩ := List.mem_flatMap.mp hmem
        exact (everywhere_spliced hp (hfl f hf) g).1 e hef
      next => exact everywhere_op.mpr ⟨by simpa using ho, hfl⟩

theorem flatten_proper {e : Expr} (he : e.Proper) : e.flatten.Proper :=
  flatten_everywhere (fun _ _ h => h) (fun _ _ _ h => h) he

theorem flatten_unaryNot {e : Expr} (he : e.Proper) (hn : e.UnaryNot) : e.flatten.UnaryNot := by
  have hboth : e.flatten.Everywhere fun o n => 0 < n ∧ (o = .gate .not → n = 1) := by
    refine flatten_everywhere (fun _ _ h => h.1) ?_ (he.and hn)
    intro g n hg hpos
    refine ⟨hpos, fun hnot => ?_⟩
    cases hnot
    simp [isMerged] at hg
  exact hboth.mono fun _ _ h => h.2

theorem occurrences_spliced (g : Gate) (e : Expr) :
    (spliced g e).flatMap occurrences = e.occurrences := by
  cases e with
  | var name => simp [spliced]
  | op o es =>
    cases o with
    | call name => simp [spliced]
    | gate k =>
      by_cases hk : k = g
      · simp [spliced, hk, occurrences]
      · simp [spliced, hk]

theorem occurrences_merge (o : Op) (es : List Expr) :
    (merge o es).flatMap occurrences = es.flatMap occurrences := by
  unfold merge
  split
  next =>
    split
    next => simp only [List.flatMap_assoc, occurrences_spliced]
    next => rfl
  next => rfl

/-- Flattening keeps every variable in its place. -/
theorem occurrences_flatten (e : Expr) : e.flatten.occurrences = e.occurrences := by
  induction e with
  | var name => rfl
  | op o es ih =>
    simp only [flatten, occurrences, occurrencesAll_eq_flatMap, flattenAll_eq_map]
    rw [occurrences_merge, List.flatMap_map, List.flatMap_def, List.flatMap_def,
      List.map_congr_left ih]

/-! ## The number of nodes -/

/-- The number of operators and variable occurrences. -/
def nodeCount (e : Expr) : Nat := e.opCount + e.occurrences.length

/-- The number of operators and variable occurrences of several expressions. -/
def nodeCountAll : List Expr → Nat
  | [] => 0
  | e :: es => e.nodeCount + nodeCountAll es

theorem nodeCount_var (name : String) : (Expr.var name).nodeCount = 1 := by
  simp [nodeCount, opCount, occurrences]

theorem nodeCount_op (o : Op) (es : List Expr) :
    (Expr.op o es).nodeCount = 1 + nodeCountAll es := by
  have hall : opCountAll es + (occurrencesAll es).length = nodeCountAll es := by
    induction es with
    | nil => simp [opCountAll, occurrencesAll, nodeCountAll]
    | cons e es ih =>
      simp only [opCountAll, occurrencesAll, nodeCountAll, nodeCount, List.length_append] at ih ⊢
      omega
  simp only [nodeCount, opCount, occurrences]
  omega

theorem nodeCount_pos (e : Expr) : 0 < e.nodeCount := by
  cases e with
  | var name => simp [nodeCount_var]
  | op o es => rw [nodeCount_op]; omega

theorem length_le_nodeCountAll (es : List Expr) : es.length ≤ nodeCountAll es := by
  induction es with
  | nil => simp
  | cons e es ih =>
    have := e.nodeCount_pos
    simp only [nodeCountAll, List.length_cons]
    omega

/-- Beside one of several expressions, every other one counts at least one node. -/
theorem nodeCount_le_of_mem {es : List Expr} {e : Expr} (he : e ∈ es) :
    e.nodeCount + es.length ≤ nodeCountAll es + 1 := by
  induction es with
  | nil => simp at he
  | cons f es ih =>
    simp only [nodeCountAll, List.length_cons]
    rcases List.mem_cons.mp he with rfl | hmem
    · have := length_le_nodeCountAll es
      omega
    · have := ih hmem
      have := f.nodeCount_pos
      omega

end Expr

end LogicSchematic
