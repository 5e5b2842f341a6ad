import LogicSchematic.Proofs.Mapping.Unfold
import Mathlib.Data.List.Perm.Lattice

/-!
# The parts of an unfolded circuit

The expressions of the gates of a well-formed circuit are the operators of the expression it unfolds
to, each with all its operands (`WellFormed.mem_gateExprs_iff`). When no two gates have the same
expression, there are as many gates as there are different ones of these, so the expression alone
says how many gates there are (`WellFormed.length_gates_eq`).

What is true of every gate is true of every operator of the expression
(`WellFormed.everywhere_unfold`), its variables are those of the circuit
(`WellFormed.mem_variableNames_of_mem_occurrences`), and its operators are nested no deeper than
there are gates (`WellFormed.height_unfold_le`).
-/

namespace LogicSchematic

namespace Expr

/-- Whether `f` is the expression or is in one of its operands, at any depth. -/
inductive IsPart (f : Expr) : Expr → Prop
  | self : IsPart f f
  | operand {o : Op} {es : List Expr} {e : Expr} (he : e ∈ es) (h : IsPart f e) :
      IsPart f (.op o es)

mutual

/-- How many operators stand inside one another. -/
def height : Expr → Nat
  | .var _ => 0
  | .op _ es => heightAll es + 1

/-- How many operators stand inside one another in several expressions. -/
def heightAll : List Expr → Nat
  | [] => 0
  | e :: es => max (height e) (heightAll es)

end

theorem heightAll_le_iff {es : List Expr} {n : Nat} :
    heightAll es ≤ n ↔ ∀ e ∈ es, e.height ≤ n := by
  induction es with
  | nil => simp [heightAll]
  | cons e es ih => rw [heightAll, Nat.max_le, ih, List.forall_mem_cons]

end Expr

namespace Mapping

variable {gs : List MappedGate} {m m' : Mapping} {x : Operand} {f : Expr} {i : Nat}

/-! ## Parts and gates -/

/-- What an operand reaches is a part of its expression. -/
theorem isPart_of_reaches (hord : OrderedFrom 0 gs) (h : Reaches gs x i)
    (hf : (gateExprs #[] gs)[i]? = some f) : f.IsPart (operandExpr (gateExprs #[] gs) x) := by
  induction h with
  | here i =>
    rw [operandExpr, hf]
    exact .self
  | @step i j g x hg hx _ ih =>
    rw [operandExpr_gate hord hg]
    exact .operand (List.mem_map_of_mem hx) (ih hf)

/-- A part of the expression of an operand is a variable or the expression of a gate. -/
theorem mem_gateExprs_of_isPart (hord : OrderedFrom 0 gs) (hx : x.Below gs.length)
    (h : f.IsPart (operandExpr (gateExprs #[] gs) x)) (hvar : ∀ name, f ≠ .var name) :
    f ∈ gateExprs #[] gs := by
  generalize he : operandExpr (gateExprs #[] gs) x = e at h
  induction h generalizing x with
  | self =>
    cases x with
    | var name => exact absurd he.symm (hvar name)
    | gate i =>
      have hg := List.getElem?_eq_getElem (show i < gs.length from hx)
      rw [operandExpr_gate hord hg] at he
      exact Array.mem_of_getElem? ((getElem?_gateExprs_empty hord hg).trans (congrArg some he))
  | operand hmem _ ih =>
    -- the operands are those of a gate, which come before it
    cases x with
    | var name => cases he
    | gate i =>
      have hg := List.getElem?_eq_getElem (show i < gs.length from hx)
      rw [operandExpr_gate hord hg] at he
      cases he
      obtain ⟨y, hy, rfl⟩ := List.mem_map.mp hmem
      exact ih ((below_of_mem hord hg y hy).mono (Nat.le_of_lt hx)) rfl

/-- The expressions of the gates are the parts of the unfolded circuit that are no variables. -/
theorem WellFormed.mem_gateExprs_iff (h : m.WellFormed) :
    f ∈ gateExprs #[] m.gates ↔ f.IsPart m.unfold ∧ ∀ name, f ≠ .var name := by
  constructor
  · intro hmem
    obtain ⟨i, hi⟩ := Array.getElem?_of_mem hmem
    have hlt : i < m.gates.length := by
      have := (Array.getElem?_eq_some_iff.mp hi).1
      rwa [size_gateExprs_empty] at this
    refine ⟨isPart_of_reaches h.ordered (h.reached i hlt) hi, ?_⟩
    rintro name rfl
    rw [getElem?_gateExprs_empty h.ordered (List.getElem?_eq_getElem hlt)] at hi
    cases hi
  · rintro ⟨hpart, hvar⟩
    exact mem_gateExprs_of_isPart h.ordered h.root_below hpart hvar

/-- Circuits without repeated gates that unfold to the same expression have equally many gates. -/
theorem WellFormed.length_gates_eq (h : m.WellFormed) (h' : m'.WellFormed)
    (hnodup : (gateExprs #[] m.gates).toList.Nodup)
    (hnodup' : (gateExprs #[] m'.gates).toList.Nodup) (heq : m.unfold = m'.unfold) :
    m.gates.length = m'.gates.length := by
  have hperm : (gateExprs #[] m.gates).toList.Perm (gateExprs #[] m'.gates).toList := by
    rw [List.perm_ext_iff_of_nodup hnodup hnodup']
    intro f
    rw [Array.mem_toList_iff, Array.mem_toList_iff, h.mem_gateExprs_iff, h'.mem_gateExprs_iff, heq]
  have hlen := hperm.length_eq
  rwa [Array.length_toList, Array.length_toList, size_gateExprs_empty, size_gateExprs_empty] at hlen

/-! ## Operators, variables and heights -/

theorem WellFormed.everywhere_unfold (h : m.WellFormed) {p : Op → Nat → Prop}
    (hp : ∀ g ∈ m.gates, p (.gate g.gate) g.operands.length) : m.unfold.Everywhere p := by
  refine (h.forall_exprs_of_gates (fun name _ => Expr.everywhere_var p name) ?_).2
  intro g hg es hlen hes
  exact Expr.everywhere_op.mpr ⟨hlen ▸ hp g hg, hes⟩

theorem WellFormed.mem_variableNames_of_mem_occurrences (h : m.WellFormed) :
    ∀ name ∈ m.unfold.occurrences, name ∈ m.variableNames := by
  refine (h.forall_exprs (Q := fun e => ∀ name ∈ e.occurrences, name ∈ m.variableNames) ?_ ?_).2
  · intro name hname name' hmem
    rw [Expr.occurrences, List.mem_singleton] at hmem
    exact hmem ▸ hname
  · intro g es _ hes name hmem
    rw [Expr.gate, Expr.occurrences, Expr.occurrencesAll_eq_flatMap] at hmem
    obtain ⟨e, he, hmem⟩ := List.mem_flatMap.mp hmem
    exact hes e he name hmem

/-- Operators nest no deeper than there are gates to read. -/
theorem height_operandExpr_le (hord : OrderedFrom 0 gs) {n : Nat} (hn : n ≤ gs.length)
    (hx : x.Below n) : (operandExpr (gateExprs #[] gs) x).height ≤ n := by
  induction n using Nat.strongRecOn generalizing x with
  | ind n ih =>
    cases x with
    | var name => exact Nat.zero_le n
    | gate i =>
      have hi : i < n := hx
      have hg := List.getElem?_eq_getElem (show i < gs.length by omega)
      rw [operandExpr_gate hord hg, Expr.gate, Expr.height]
      refine Nat.le_trans (Nat.succ_le_succ (Expr.heightAll_le_iff.mpr fun e he => ?_)) hi
      obtain ⟨y, hy, rfl⟩ := List.mem_map.mp he
      exact ih i hi (by omega) (below_of_mem hord hg y hy)

theorem WellFormed.height_unfold_le (h : m.WellFormed) : m.unfold.height ≤ m.gates.length :=
  height_operandExpr_le h.ordered (Nat.le_refl _) h.root_below

end Mapping

end LogicSchematic
