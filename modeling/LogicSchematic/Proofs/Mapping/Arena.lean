import LogicSchematic.Mapping.Arena
import LogicSchematic.Proofs.Mapping.Unfold

/-!
# Growing arenas

While a circuit is built its arena only grows (`Grows`), and the expression of an operand that the
arena has stays the same (`Grows.expr_eq`). `Sound P` is the invariant of every arena that is made
by adding gates: they are in order, no gate stands in it twice, and every gate satisfies `P`.
`add_sound` is the one step: adding a gate over operands that are there keeps the invariant and
gives an operand for the gate.

An operand stands for an expression (`Stands`) when the arena has it and what it unfolds to has the
meaning of that expression. What an operand stands for survives growth (`Stands.mono`), which is
what allows a circuit to be built piece by piece.
-/

namespace LogicSchematic

namespace Arena

/-- The expressions of the gates. -/
def exprs (a : Arena) : Array Expr := Mapping.gateExprs #[] a.gates

/-- The expression of an operand. -/
def expr (a : Arena) (x : Operand) : Expr := Mapping.operandExpr a.exprs x

/-- Whether an operand is a variable or a gate of the arena. -/
def Has (a : Arena) (x : Operand) : Prop := x.Below a.gates.length

/-- Whether gates were added and none was changed. -/
def Grows (a b : Arena) : Prop := a.gates <+: b.gates

/-- What is true of an arena whose gates were all added, each satisfying `P`. -/
structure Sound (P : MappedGate → Prop) (a : Arena) : Prop where
  ordered : Mapping.OrderedFrom 0 a.gates
  nodup : a.gates.Nodup
  gates : ∀ g ∈ a.gates, P g

variable {P : MappedGate → Prop} {a b c : Arena} {x : Operand} {e f : Expr}

theorem size_exprs (a : Arena) : a.exprs.size = a.gates.length := by
  rw [exprs, Mapping.size_gateExprs_empty]

@[simp] theorem has_gate {i : Nat} : a.Has (.gate i) ↔ i < a.gates.length := Iff.rfl

theorem Grows.refl (a : Arena) : a.Grows a := List.prefix_refl _

theorem Grows.trans (hab : a.Grows b) (hbc : b.Grows c) : a.Grows c := List.IsPrefix.trans hab hbc

theorem Grows.has (h : a.Grows b) (hx : a.Has x) : b.Has x := hx.mono h.length_le

theorem Grows.getElem? (h : a.Grows b) {i : Nat} {g : MappedGate} (hg : a.gates[i]? = some g) :
    b.gates[i]? = some g := by
  obtain ⟨gs, hgs⟩ := h
  rw [← hgs, List.getElem?_append_left (List.getElem?_eq_some_iff.mp hg).1, hg]

/-- Growth keeps the expression of an operand. -/
theorem Grows.expr_eq (h : a.Grows b) (hx : a.Has x) : b.expr x = a.expr x := by
  obtain ⟨gs, hgs⟩ := h
  rw [expr, expr, exprs, ← hgs, Mapping.gateExprs_append]
  exact Mapping.operandExpr_gateExprs (by rw [← exprs, size_exprs]; exact hx) gs

theorem Sound.ordered_iff (h : a.Sound P) {i : Nat} {g : MappedGate} (hg : a.gates[i]? = some g) :
    ∀ x ∈ g.operands, x.Below i :=
  Mapping.below_of_mem h.ordered hg

/-- A gate has the expression of its operands' expressions. -/
theorem Sound.expr_gate (h : a.Sound P) {i : Nat} {g : MappedGate} (hg : a.gates[i]? = some g) :
    a.expr (.gate i) = .gate g.gate (g.operands.map a.expr) :=
  Mapping.operandExpr_gate h.ordered hg

theorem sound_empty (P : MappedGate → Prop) : empty.Sound P :=
  ⟨trivial, List.nodup_nil, fun _ hg => absurd hg List.not_mem_nil⟩

/-! ## Adding a gate -/

/-- A new gate over operands of the arena comes after them. -/
theorem Sound.push (h : a.Sound P) {g : MappedGate} (hg : ∀ x ∈ g.operands, a.Has x) (hP : P g)
    (hnew : g ∉ a.gates) : (Arena.mk (a.gates ++ [g])).Sound P := by
  refine ⟨?_, ?_, ?_⟩
  · rw [Mapping.orderedFrom_iff]
    intro i k hk x hx
    rw [Nat.zero_add]
    rw [List.getElem?_append] at hk
    split at hk
    next => exact h.ordered_iff hk x hx
    next hi =>
      have hlast := List.getElem?_eq_some_iff.mp hk
      obtain ⟨hlt, rfl⟩ := hlast
      simp only [List.length_singleton, List.getElem_singleton] at hlt hx
      exact (hg x hx).mono (by omega)
  · rw [List.nodup_append]
    refine ⟨h.nodup, by simp, ?_⟩
    intro k hk k' hk' heq
    rw [List.mem_singleton.mp hk'] at heq
    exact hnew (heq ▸ hk)
  · intro k hk
    rcases List.mem_append.mp hk with hk | hk
    · exact h.gates k hk
    · rw [List.mem_singleton.mp hk]
      exact hP

theorem grows_add (a : Arena) (g : MappedGate) : a.Grows (a.add g).2 := by
  by_cases hmem : g ∈ a.gates
  · rw [add_of_mem hmem]
    exact Grows.refl a
  · rw [add_of_not_mem hmem]
    exact List.prefix_append _ _

/-- Adding a gate gives the index of the gate. -/
theorem exists_index_add (a : Arena) (g : MappedGate) :
    ∃ i, (a.add g).1 = .gate i ∧ (a.add g).2.gates[i]? = some g := by
  by_cases hmem : g ∈ a.gates
  · rw [add_of_mem hmem]
    exact ⟨_, rfl, List.getElem?_idxOf hmem⟩
  · rw [add_of_not_mem hmem]
    exact ⟨_, rfl, List.getElem?_concat_length⟩

theorem Sound.add (h : a.Sound P) {g : MappedGate} (hg : ∀ x ∈ g.operands, a.Has x) (hP : P g) :
    (a.add g).2.Sound P := by
  by_cases hmem : g ∈ a.gates
  · rw [add_of_mem hmem]
    exact h
  · rw [add_of_not_mem hmem]
    exact h.push hg hP hmem

/-- Adding a gate over operands of the arena gives an operand for it, and loses nothing. -/
theorem add_sound (h : a.Sound P) {g : MappedGate} (hg : ∀ x ∈ g.operands, a.Has x) (hP : P g) :
    (a.add g).2.Sound P ∧ a.Grows (a.add g).2 ∧ (a.add g).2.Has (a.add g).1 ∧
      (a.add g).2.expr (a.add g).1 = .gate g.gate (g.operands.map a.expr) := by
  have hsound := h.add hg hP
  have hgrows := grows_add a g
  obtain ⟨i, hi, hgate⟩ := exists_index_add a g
  refine ⟨hsound, hgrows, ?_, ?_⟩
  · rw [hi]
    exact (List.getElem?_eq_some_iff.mp hgate).1
  · rw [hi, hsound.expr_gate hgate]
    congr 1
    exact List.map_congr_left fun x hx => hgrows.expr_eq (hg x hx)

/-! ## What an operand stands for -/

/-- Whether the arena has an operand and it means what the expression means. -/
def Stands (a : Arena) (x : Operand) (e : Expr) : Prop := a.Has x ∧ a.expr x ≈ e

theorem Stands.mono (h : a.Stands x e) (hab : a.Grows b) : b.Stands x e :=
  ⟨hab.has h.1, by rw [hab.expr_eq h.1]; exact h.2⟩

theorem Stands.congr (h : a.Stands x e) (hef : e ≈ f) : a.Stands x f :=
  ⟨h.1, Setoid.trans h.2 hef⟩

theorem stands_var (a : Arena) (name : String) : a.Stands (.var name) (.var name) :=
  ⟨trivial, Setoid.refl _⟩

/-- The operand of an added gate stands for the gate over what its operands stand for. -/
theorem add_stands (h : a.Sound P) {g : Gate} {xs : List Operand} {es : List Expr}
    (hxs : List.Forall₂ a.Stands xs es) (hP : P ⟨g, xs⟩) :
    (a.add ⟨g, xs⟩).2.Sound P ∧ a.Grows (a.add ⟨g, xs⟩).2 ∧
      (a.add ⟨g, xs⟩).2.Stands (a.add ⟨g, xs⟩).1 (.gate g es) := by
  have hhas : ∀ x ∈ xs, a.Has x := by
    intro x hx
    obtain ⟨i, hi, rfl⟩ := List.getElem_of_mem hx
    exact (hxs.get hi (by rw [← hxs.length_eq]; exact hi)).1
  obtain ⟨hsound, hgrows, hroot, hexpr⟩ := add_sound (g := ⟨g, xs⟩) h hhas hP
  refine ⟨hsound, hgrows, hroot, ?_⟩
  rw [hexpr]
  exact Expr.gate_congr g (List.forall₂_map_left_iff.mpr (hxs.imp fun _ _ hs => hs.2))

end Arena

end LogicSchematic
