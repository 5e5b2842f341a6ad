import LogicSchematic.Layout.Scalar
import Mathlib.Algebra.Order.Ring.Rat
import Mathlib.Algebra.Order.Floor.Ring
import Mathlib.Data.Rat.Floor
import Mathlib.Tactic.Linarith
import Mathlib.Tactic.NormNum.OfScientific

/-!
# Exact numbers

Layout over the rational numbers, where nothing is rounded but what the definitions round. The
comparisons are those of the order there, and so are the greater and the smaller of two numbers and
the nearest number between two bounds (`Scalar.clamp_rat`).
-/

namespace LogicSchematic

instance : Scalar ℚ where
  ofNat n := n
  abs x := |x|
  round x := if 0 ≤ x then ⌊x + 1 / 2⌋ else -⌊1 / 2 - x⌋
  lt x y := decide (x < y)
  le x y := decide (x ≤ y)
  isNumber _ := true

namespace Scalar

variable {x y low high : ℚ}

@[simp] theorem ofNat_rat (n : Nat) : (Scalar.ofNat n : ℚ) = n := rfl

@[simp] theorem lt_rat_iff : Scalar.lt x y = true ↔ x < y := decide_eq_true_iff

@[simp] theorem le_rat_iff : Scalar.le x y = true ↔ x ≤ y := decide_eq_true_iff

theorem min_rat (x y : ℚ) : Scalar.min x y = Min.min x y := by
  show (if Scalar.le y x = true then y else x) = _
  rw [min_comm, min_def]
  exact if_congr le_rat_iff rfl rfl

theorem max_rat (x y : ℚ) : Scalar.max x y = Max.max x y := by
  show (if Scalar.le x y = true then y else x) = _
  rw [max_def]
  exact if_congr le_rat_iff rfl rfl

/-- Bounding a number goes through the greatest and the least. -/
theorem clamp_rat (h : low ≤ high) (x : ℚ) :
    Scalar.clamp low high x = Max.max low (Min.min high x) := by
  unfold Scalar.clamp
  simp only [lt_rat_iff]
  split
  next hlow => rw [min_eq_right (hlow.le.trans h), max_eq_left hlow.le]
  next hlow =>
    split
    next hhigh => rw [min_eq_left hhigh.le, max_eq_right h]
    next hhigh => rw [min_eq_right (le_of_not_gt hhigh), max_eq_right (le_of_not_gt hlow)]

end Scalar

end LogicSchematic
