import LogicSchematic.Layout.Constants
import LogicSchematic.Layout.Geometry

/-!
# Routing

A wire leaves its driver horizontally, runs up or down once, and arrives horizontally. The vertical
part stands halfway, or in the first gutter when the wire is long; wires take turns in lanes beside
that place. It is kept away from both ends as far as they leave room, and stands exactly halfway
where they leave none.
-/
namespace LogicSchematic

/-- The path of a wire. -/
structure WirePath (α : Type) where
  start : Point α
  /-- The horizontal position of the vertical part. -/
  bendX : α
  stop : Point α
  deriving DecidableEq, Repr

/-- The four corners of a path, from its start to its end. -/
def WirePath.points {α : Type} (p : WirePath α) : List (Point α) :=
  [p.start, ⟨p.bendX, p.start.y⟩, ⟨p.bendX, p.stop.y⟩, p.stop]

namespace Routing

variable {α : Type} [Scalar α]

/-- The place halfway between two others. -/
def midpoint (x y : α) : α := (x + y) / Scalar.ofNat 2

/-- Where the vertical part of a wire stands before lanes are taken into account. -/
def idealBend (constants : RoutingConstants α) (start stop : α) : α :=
  let left := Scalar.min start stop
  let span := Scalar.max start stop - left
  let levels := Scalar.round (span / constants.levelWidth)
  if Scalar.le (Scalar.ofNat 1) levels &&
      Scalar.lt (constants.longSpanRatio * constants.levelWidth) span then
    left + constants.levelWidth * constants.gutterRatio
  else midpoint start stop

/-- How many lanes the lane of a wire is away from the middle one. -/
def lane (constants : RoutingConstants α) (index : Nat) : α :=
  let count := Nat.max constants.laneCount 1
  Scalar.ofNat (index % count) - Scalar.ofNat (count - 1) / Scalar.ofNat 2

/-- The horizontal position of the vertical part of the wire with a given number. -/
def bend (constants : RoutingConstants α) (index : Nat) (start stop : α) : α :=
  let low := Scalar.min start stop + constants.clearance
  let high := Scalar.max start stop - constants.clearance
  if Scalar.le low high then
    Scalar.clamp low high
      (idealBend constants start stop + lane constants index * constants.laneSpacing)
  else midpoint start stop

/-- The path of the wire with a given number between two pins. -/
def route (constants : RoutingConstants α) (index : Nat) (start stop : Point α) : WirePath α :=
  ⟨start, bend constants index start.x stop.x, stop⟩

end Routing

end LogicSchematic
