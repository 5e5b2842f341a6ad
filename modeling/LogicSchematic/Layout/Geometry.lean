import LogicSchematic.Layout.Scalar
import LogicSchematic.Netlist

/-!
# Points and pins

Positions on a schematic, where `y` grows downwards, and where the pins of a node lie relative to
its origin. Layout knows no symbols: it is given a table of pins, of which `standardPins` is the
one for the usual gate symbols. `standardPins_input_isSome_iff` and `standardPins_output_isSome_iff`
say that its pins are exactly those that the kinds of nodes have.
-/
namespace LogicSchematic

/-- A position on a schematic. -/
structure Point (α : Type) where
  x : α
  y : α
  deriving DecidableEq, Repr

namespace Point

variable {α : Type} [Scalar α]

/-- The point with both coordinates 0. -/
def origin : Point α := ⟨Scalar.ofNat 0, Scalar.ofNat 0⟩

/-- Moves a point by an offset. -/
def add (p offset : Point α) : Point α := ⟨p.x + offset.x, p.y + offset.y⟩

/-- The point of two whole coordinates. -/
def ofNats (p : Nat × Nat) : Point α := ⟨Scalar.ofNat p.1, Scalar.ofNat p.2⟩

/-- The larger of the coordinates of two points. -/
def max (p q : Point α) : Point α := ⟨Scalar.max p.x q.x, Scalar.max p.y q.y⟩

end Point

/-- Where the pins of the kinds of nodes lie, relative to the origin of a node; a pin that a kind
does not have lies nowhere. -/
structure PinTable (α : Type) where
  input : NodeKind → Nat → Option (Point α)
  output : NodeKind → Nat → Option (Point α)

namespace StandardPins

/-- The input pins of the usual symbols. -/
def inputs : NodeKind → List (Nat × Nat)
  | .input => []
  | .output => [(5, 30)]
  | .gate .and | .gate .nand => [(10, 15), (10, 45)]
  | .gate .or | .gate .nor => [(12, 15), (12, 45)]
  | .gate .xor | .gate .xnor => [(5, 15), (5, 45)]
  | .gate .not => [(10, 30)]
  | .gate .nand4 => [(10, 10), (10, 30), (10, 50), (10, 70)]

/-- The output pin of the usual symbols. -/
def output? : NodeKind → Option (Nat × Nat)
  | .input => some (40, 30)
  | .output => none
  | .gate .and | .gate .or | .gate .not => some (60, 30)
  | .gate .nand | .gate .nor => some (70, 30)
  | .gate .xor | .gate .xnor => some (68, 30)
  | .gate .nand4 => some (85, 40)

theorem length_inputs (kind : NodeKind) : (inputs kind).length = kind.inputPins := by
  rcases kind with _ | _ | g
  · rfl
  · rfl
  · cases g <;> rfl

end StandardPins

/-- The pins of the usual symbols. Every node has one output pin at most. -/
def standardPins {α : Type} [Scalar α] : PinTable α where
  input kind pin := ((StandardPins.inputs kind)[pin]?).map Point.ofNats
  output kind pin := if pin = 0 then (StandardPins.output? kind).map Point.ofNats else none

/-- The standard table has exactly the input pins of a kind. -/
theorem standardPins_input_isSome_iff {α : Type} [Scalar α] (kind : NodeKind) (pin : Nat) :
    ((standardPins : PinTable α).input kind pin).isSome ↔ pin < kind.inputPins := by
  simp [standardPins, StandardPins.length_inputs]

/-- The standard table has one output pin for every kind that can drive others. -/
theorem standardPins_output_isSome_iff {α : Type} [Scalar α] (kind : NodeKind) (pin : Nat) :
    ((standardPins : PinTable α).output kind pin).isSome ↔
      pin = 0 ∧ kind.hasOutput = true := by
  by_cases hp : pin = 0
  · rcases kind with _ | _ | g
    · simp [standardPins, StandardPins.output?, NodeKind.hasOutput, hp]
    · simp [standardPins, StandardPins.output?, NodeKind.hasOutput, hp]
    · cases g <;> simp [standardPins, StandardPins.output?, NodeKind.hasOutput, hp]
  · simp [standardPins, hp]

end LogicSchematic
