/-!
# Numbers of a layout

Placement and routing use nothing of their numbers but the four operations, comparisons, absolute
value and rounding. They are written over a class of such numbers, so that the same definitions run
on floating-point numbers and can be reasoned about over exact ones.
-/
namespace LogicSchematic

/-- Numbers that positions on a schematic can be computed with. -/
class Scalar (α : Type) extends Add α, Sub α, Mul α, Div α, OfScientific α where
  ofNat : Nat → α
  abs : α → α
  /-- The nearest whole number; a half goes away from zero. -/
  round : α → α
  lt : α → α → Bool
  le : α → α → Bool
  /-- False of a value that is no number. -/
  isNumber : α → Bool

namespace Scalar

variable {α : Type} [Scalar α]

/-- The smaller of two values; of equal ones, such as the two zeros, the second. A value that is no
number counts for nothing beside one that is. -/
def min (x y : α) : α :=
  if isNumber x then (if le y x then y else x) else y

/-- The larger of two values; of equal ones, such as the two zeros, the second. A value that is no
number counts for nothing beside one that is. -/
def max (x y : α) : α :=
  if isNumber x then (if le x y then y else x) else y

/-- The value nearest to `x` between `low` and `high`. -/
def clamp (low high x : α) : α :=
  if lt x low then low else if lt high x then high else x

end Scalar

instance : Scalar Float where
  ofNat := Float.ofNat
  abs := Float.abs
  round := Float.round
  lt x y := x < y
  le x y := x ≤ y
  isNumber x := !x.isNaN

end LogicSchematic
