import LogicSchematic.Layout.Scalar

/-!
# Constants of a layout

The distances that placement and routing keep.
-/
namespace LogicSchematic

/-- The constants of placement. -/
structure PlacementConstants (α : Type) where
  /-- The horizontal position of the inputs. -/
  margin : α
  /-- The horizontal distance between levels. -/
  levelWidth : α
  /-- The vertical position of the first input. -/
  inputTop : α
  /-- The vertical distance between inputs. -/
  inputSpacing : α
  /-- The least vertical distance between nodes of a level. -/
  minGap : α
  /-- Wanted positions closer than this are ordered by equation. -/
  tieThreshold : α
  /-- The wanted position of a node without drivers. -/
  defaultY : α
  deriving DecidableEq, Repr

/-- The constants of routing. -/
structure RoutingConstants (α : Type) where
  /-- The horizontal distance between levels. -/
  levelWidth : α
  /-- A wire that spans more than this part of a level bends in the first gutter. -/
  longSpanRatio : α
  /-- Where the first gutter is, as a part of a level from the left end. -/
  gutterRatio : α
  /-- The number of lanes that wires take turns in. -/
  laneCount : Nat
  /-- The horizontal distance between lanes. -/
  laneSpacing : α
  /-- The least horizontal distance of a bend from both ends. -/
  clearance : α
  deriving DecidableEq, Repr

variable {α : Type} [Scalar α]

namespace PlacementConstants

/-- The usual constants. -/
def standard : PlacementConstants α where
  margin := 50.0
  levelWidth := 200.0
  inputTop := 100.0
  inputSpacing := 90.0
  minGap := 120.0
  tieThreshold := 20.0
  defaultY := 100.0

/-- The horizontal position of a level. -/
def columnX (c : PlacementConstants α) (level : Nat) : α :=
  c.margin + Scalar.ofNat level * c.levelWidth

end PlacementConstants

/-- The usual constants. -/
def RoutingConstants.standard : RoutingConstants α where
  levelWidth := 200.0
  longSpanRatio := 0.8
  gutterRatio := 0.55
  laneCount := 10
  laneSpacing := 8.0
  clearance := 25.0

end LogicSchematic
