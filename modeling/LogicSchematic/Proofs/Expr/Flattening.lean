import LogicSchematic.Proofs.Expr.Meaning

/-!
# Flattened expressions

In a flattened expression no conjunction stands directly under a conjunction and no disjunction
directly under a disjunction, at any depth (`unnested_flatten`). An expression without such a pair
is its own flattening (`flatten_eq_self`), so flattening twice is flattening once. What an operand
contributes to a merged gate are operands of a flattened expression, which is why a merge makes no
new pair: none of them is the gate that it is spliced into (`gate?_of_mem_spliced`).

`flatten_normalizes` puts this together with what flattening keeps: every variable in its place, the
meaning, and no more operators than before.
-/

namespace LogicSchematic.Expr

variable {g k : Gate} {e f : Expr} {es : List Expr}

/-! ## Normal forms -/

/-- Whether no gate `g` stands directly under a gate `g`, at any depth. -/
inductive Unnested (g : Gate) : Expr → Prop
  | var (name : String) : Unnested g (.var name)
  | op {o : Op} {es : List Expr} (hes : ∀ e ∈ es, Unnested g e)
      (hdirect : o = .gate g → ∀ e ∈ es, e.gate? ≠ some g) : Unnested g (.op o es)

theorem unnested_op {o : Op} : (Expr.op o es).Unnested g ↔
    (∀ e ∈ es, e.Unnested g) ∧ (o = .gate g → ∀ e ∈ es, e.gate? ≠ some g) := by
  constructor
  · intro h
    cases h with
    | op hes hdirect => exact ⟨hes, hdirect⟩
  · exact fun h => .op h.1 h.2

/-- An operand is spliced when it is the gate above it, and else stays as it is. -/
theorem spliced_cases (g : Gate) (e : Expr) :
    (∃ es, e = .op (.gate g) es ∧ spliced g e = es) ∨ (e.gate? ≠ some g ∧ spliced g e = [e]) := by
  cases e with
  | var name => exact .inr ⟨nofun, rfl⟩
  | op o es =>
    cases o with
    | call name => exact .inr ⟨nofun, rfl⟩
    | gate k =>
      by_cases hk : k = g
      · subst hk
        exact .inl ⟨es, rfl, if_pos rfl⟩
      · exact .inr ⟨fun h => hk (Option.some.inj h), if_neg hk⟩

theorem unnested_of_mem_spliced (he : e.Unnested g) (hf : f ∈ spliced k e) : f.Unnested g := by
  rcases spliced_cases k e with ⟨es, rfl, hes⟩ | ⟨-, hself⟩
  · rw [hes] at hf
    exact (unnested_op.mp he).1 f hf
  · rw [hself, List.mem_singleton] at hf
    exact hf ▸ he

/-- What is spliced into a gate is no such gate itself. -/
theorem gate?_of_mem_spliced (he : e.Unnested g) (hf : f ∈ spliced g e) : f.gate? ≠ some g := by
  rcases spliced_cases g e with ⟨es, rfl, hes⟩ | ⟨hne, hself⟩
  · rw [hes] at hf
    exact (unnested_op.mp he).2 rfl f hf
  · rw [hself, List.mem_singleton] at hf
    exact hf ▸ hne

/-- In a flattened expression no merged gate stands directly under a gate of its kind. -/
theorem unnested_flatten (hg : isMerged g = true) (e : Expr) : e.flatten.Unnested g := by
  induction e with
  | var name => exact .var name
  | op o es ih =>
    have hes : ∀ f ∈ es.map flatten, f.Unnested g := by
      intro f hf
      obtain ⟨e, he, rfl⟩ := List.mem_map.mp hf
      exact ih e he
    cases o with
    | call name =>
      rw [flatten_call]
      exact .op hes nofun
    | gate k =>
      rw [flatten_gate]
      split
      next =>
        refine .op (fun f hf => ?_) (fun hk f hf => ?_)
        · obtain ⟨e, he, hf⟩ := List.mem_flatMap.mp hf
          exact unnested_of_mem_spliced (hes e he) hf
        · cases hk
          obtain ⟨e, he, hf⟩ := List.mem_flatMap.mp hf
          exact gate?_of_mem_spliced (hes e he) hf
      next hk => exact .op hes fun hkg => absurd (Op.gate.inj hkg ▸ hg) hk

theorem flatMap_spliced_eq_self (h : ∀ e ∈ es, e.gate? ≠ some g) :
    es.flatMap (spliced g) = es := by
  induction es with
  | nil => rfl
  | cons e es ih =>
    rw [List.forall_mem_cons] at h
    rcases spliced_cases g e with ⟨fs, rfl, -⟩ | ⟨-, hself⟩
    · exact absurd rfl h.1
    · rw [List.flatMap_cons, hself, ih h.2, List.singleton_append]

/-- Without a pair to merge, flattening changes nothing. -/
theorem flatten_eq_self (h : ∀ g, isMerged g = true → e.Unnested g) : e.flatten = e := by
  induction e with
  | var name => rfl
  | op o es ih =>
    have hes : es.map flatten = es := by
      refine (List.map_congr_left fun e he => ?_).trans (List.map_id es)
      exact ih e he fun g hg => (unnested_op.mp (h g hg)).1 e he
    cases o with
    | call name => rw [flatten_call, hes]
    | gate g =>
      rw [flatten_gate, hes]
      split
      next hg => rw [flatMap_spliced_eq_self ((unnested_op.mp (h g hg)).2 rfl)]
      next => rfl

/-- Flattening again changes nothing. -/
theorem flatten_flatten (e : Expr) : e.flatten.flatten = e.flatten :=
  flatten_eq_self fun _ hg => unnested_flatten hg e

/-! ## The number of operators -/

theorem opCountAll_append (es fs : List Expr) :
    opCountAll (es ++ fs) = opCountAll es + opCountAll fs := by
  induction es with
  | nil => rw [List.nil_append, opCountAll, Nat.zero_add]
  | cons e es ih => rw [List.cons_append, opCountAll, opCountAll, ih, Nat.add_assoc]

/-- A spliced operand loses its operator. -/
theorem opCountAll_spliced_le (g : Gate) (e : Expr) : opCountAll (spliced g e) ≤ e.opCount := by
  rcases spliced_cases g e with ⟨es, rfl, hes⟩ | ⟨-, hself⟩
  · rw [hes, opCount]
    exact Nat.le_add_left _ _
  · rw [hself, opCountAll, opCountAll]
    exact Nat.le_refl _

theorem opCountAll_flatMap_spliced_le (g : Gate) (es : List Expr) :
    opCountAll (es.flatMap (spliced g)) ≤ opCountAll es := by
  induction es with
  | nil => exact Nat.le_refl _
  | cons e es ih =>
    rw [List.flatMap_cons, opCountAll_append, opCountAll]
    exact Nat.add_le_add (opCountAll_spliced_le g e) ih

theorem opCountAll_map_le (h : ∀ e ∈ es, e.flatten.opCount ≤ e.opCount) :
    opCountAll (es.map flatten) ≤ opCountAll es := by
  induction es with
  | nil => exact Nat.le_refl _
  | cons e es ih =>
    rw [List.forall_mem_cons] at h
    rw [List.map_cons, opCountAll, opCountAll]
    exact Nat.add_le_add h.1 (ih h.2)

theorem opCount_flatten_le (e : Expr) : e.flatten.opCount ≤ e.opCount := by
  induction e with
  | var name => exact Nat.le_refl _
  | op o es ih =>
    have hes := opCountAll_map_le ih
    cases o with
    | call name =>
      rw [flatten_call, opCount, opCount]
      exact Nat.add_le_add_left hes 1
    | gate g =>
      rw [flatten_gate, opCount, opCount]
      split
      next =>
        have hmerged := opCountAll_flatMap_spliced_le g (es.map flatten)
        exact Nat.add_le_add_left (Nat.le_trans hmerged hes) 1
      next => exact Nat.add_le_add_left hes 1

/-! ## What flattening does -/

/-- A flattened expression has no conjunction directly under a conjunction and no disjunction
directly under a disjunction, and flattening it again changes nothing. It has the variables of the
expression, each in its place, no more operators, and under every valuation the same outcome; where
every inverter has an operand, this is a word or something in the expression is undetermined. -/
theorem flatten_normalizes (e : Expr) :
    (e.flatten.Unnested .and ∧ e.flatten.Unnested .or) ∧
    e.flatten.flatten = e.flatten ∧
    (e.flatten.occurrences = e.occurrences ∧ e.flatten.variableNames = e.variableNames) ∧
    e.flatten.opCount ≤ e.opCount ∧
    (∀ values, e.flatten.eval values = e.eval values) ∧
    (e.InvertersFed → ∀ values,
      (∃ w, e.eval values = .ok w) ∨ e.eval values = .error .undetermined) := by
  have hnames := occurrences_flatten e
  refine ⟨⟨unnested_flatten rfl e, unnested_flatten rfl e⟩, flatten_flatten e, ⟨hnames, ?_⟩,
    opCount_flatten_le e, flatten_equiv e, fun hfed values => eval_of_invertersFed values hfed⟩
  rw [variableNames, variableNames, hnames]

/-- Pairs that only meet when an inner pair is merged, under an inverter and a call, and a
conjunction that loses its last operand. -/
theorem flatten_normalizes_mixed :
    let pair (g : Gate) (a b : Expr) : Expr := .gate g [a, b]
    let e : Expr := .gate .not [
      pair .and (pair .and (.var "A") (pair .and (.var "B") (.gate .and [])))
        (pair .or (pair .or (.var "A") (.var "C"))
          (.op (.call "F") [pair .and (.var "B") (.var "C")]))]
    let f : Expr := .gate .not [.gate .and [.var "A", .var "B",
      .gate .or [.var "A", .var "C", .op (.call "F") [pair .and (.var "B") (.var "C")]]]]
    e.InvertersFed ∧ e.flatten = f ∧ f.Unnested .and ∧ f.flatten = f ∧
      f.variableNames = ["A", "B", "C"] ∧ f.opCount = 5 ∧ e.opCount = 9 ∧
      ∀ values, f.eval values = e.eval values ∧
        ((∃ w, f.eval values = .ok w) ∨ f.eval values = .error .undetermined) := by
  intro pair e f
  have hfed : e.InvertersFed := by decide
  have hflat : e.flatten = f := rfl
  obtain ⟨⟨hand, -⟩, hagain, -, -, hmeaning, houtcome⟩ := flatten_normalizes e
  rw [hflat] at hand hagain
  simp only [hflat] at hmeaning
  refine ⟨hfed, hflat, hand, hagain, by decide, by decide, by decide, fun values => ?_⟩
  rw [hmeaning values]
  exact ⟨rfl, houtcome hfed values⟩

end LogicSchematic.Expr
