import LogicSchematic.Mapping

/-!
# Gates under construction

While an expression is mapped, its gates are kept in an arena that never holds the same gate twice:
`add` gives the index of the gate that is already there. `finish` turns an arena into a circuit by
dropping the gates that its root does not reach. `add_of_mem` and `add_of_not_mem` are the two cases
of adding a gate.
-/
namespace LogicSchematic

/-- The gates made so far. -/
structure Arena where
  gates : List MappedGate
  deriving DecidableEq, Repr

namespace Arena

/-- The arena without gates. -/
def empty : Arena := ⟨[]⟩

/-- The operand for a gate, which is added if it is not there yet. -/
def add (a : Arena) (g : MappedGate) : Operand × Arena :=
  if g ∈ a.gates then (.gate (a.gates.idxOf g), a)
  else (.gate a.gates.length, ⟨a.gates ++ [g]⟩)

/-- The indices of the gates that an operand reads directly. -/
def reads (operands : List Operand) : List Nat :=
  operands.filterMap Operand.index?

/-- Marks gates from the last to the first: a gate is needed when its index is among the wanted
ones, and then the gates it reads are wanted too. The result holds the needed indices in ascending
order, in front of `kept`. -/
def needed : List (MappedGate × Nat) → (wanted kept : List Nat) → List Nat
  | [], _, kept => kept
  | (g, index) :: before, wanted, kept =>
    if index ∈ wanted then needed before (reads g.operands ++ wanted) (index :: kept)
    else needed before wanted kept

/-- The indices of the gates that the root reaches, in ascending order. -/
def reachable (a : Arena) (root : Operand) : List Nat :=
  needed a.gates.zipIdx.reverse (reads [root]) []

/-- The operand in a circuit that keeps only the gates with the indices `kept`. -/
def renumber (kept : List Nat) : Operand → Operand
  | .var name => .var name
  | .gate index => .gate (kept.idxOf index)

/-- The circuit of a root: the gates it reaches, in the same order. -/
def finish (a : Arena) (root : Operand) : Mapping :=
  let kept := a.reachable root
  { gates := (kept.filterMap (a.gates[·]?)).map fun g =>
      { g with operands := g.operands.map (renumber kept) }
    root := renumber kept root }

theorem add_of_mem {a : Arena} {g : MappedGate} (h : g ∈ a.gates) :
    a.add g = (.gate (a.gates.idxOf g), a) :=
  if_pos h

theorem add_of_not_mem {a : Arena} {g : MappedGate} (h : g ∉ a.gates) :
    a.add g = (.gate a.gates.length, ⟨a.gates ++ [g]⟩) :=
  if_neg h

end Arena

end LogicSchematic
