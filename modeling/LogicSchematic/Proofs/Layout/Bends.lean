import LogicSchematic.Layout.Routing
import LogicSchematic.Proofs.Layout.Exact

/-!
# Bends

Where the vertical part of a wire stands, over exact numbers. If the ends are at least twice the
clearance apart, it is the place its lane asks for, bounded by the clearance at both ends
(`bend_of_room`); if not, it is halfway (`bend_of_narrow`). Both stay between the ends, and what a
lane asks for is the only thing that depends on the number of the wire. `route_wellBent` puts this
together.
-/

namespace LogicSchematic

namespace Routing

variable {constants : RoutingConstants ℚ} {index i j : Nat} {start stop : ℚ}

/-! ## Halfway -/

theorem midpoint_eq (start stop : ℚ) :
    midpoint start stop = (min start stop + max start stop) / 2 := by
  rw [min_add_max]
  rfl

theorem midpoint_comm (start stop : ℚ) : midpoint start stop = midpoint stop start := by
  rw [midpoint_eq, midpoint_eq, min_comm, max_comm]

theorem midpoint_mem (start stop : ℚ) :
    min start stop ≤ midpoint start stop ∧ midpoint start stop ≤ max start stop := by
  rw [midpoint_eq]
  have hle : min start stop ≤ max start stop := min_le_max
  exact ⟨by linarith, by linarith⟩

theorem lt_midpoint_lt (h : min start stop < max start stop) :
    min start stop < midpoint start stop ∧ midpoint start stop < max start stop := by
  rw [midpoint_eq]
  exact ⟨left_lt_add_div_two.mpr h, add_div_two_lt_right.mpr h⟩

/-! ## With and without room -/

/-- With room for the clearance at both ends, the wish of the lane is bounded by it. -/
theorem bend_of_room (index : Nat)
    (h : 2 * constants.clearance ≤ max start stop - min start stop) :
    bend constants index start stop =
      max (min start stop + constants.clearance) (min (max start stop - constants.clearance)
        (idealBend constants start stop + lane constants index * constants.laneSpacing)) := by
  have hle : min start stop + constants.clearance ≤ max start stop - constants.clearance := by
    linarith
  unfold bend
  simp only [Scalar.min_rat, Scalar.max_rat, Scalar.le_rat_iff]
  rw [if_pos hle, Scalar.clamp_rat hle]

/-- Without room, a wire bends halfway. -/
theorem bend_of_narrow (index : Nat)
    (h : max start stop - min start stop < 2 * constants.clearance) :
    bend constants index start stop = midpoint start stop := by
  unfold bend
  simp only [Scalar.min_rat, Scalar.max_rat, Scalar.le_rat_iff]
  exact if_neg (by linarith)

/-- A wire bends away from both ends, if they are far enough apart. -/
theorem bend_mem (index : Nat)
    (h : 2 * constants.clearance ≤ max start stop - min start stop) :
    min start stop + constants.clearance ≤ bend constants index start stop ∧
      bend constants index start stop ≤ max start stop - constants.clearance := by
  rw [bend_of_room index h]
  exact ⟨le_max_left _ _, max_le (by linarith) (min_le_left _ _)⟩

/-- A wire never bends outside its ends. -/
theorem bend_between (h : 0 ≤ constants.clearance) (index : Nat) (start stop : ℚ) :
    min start stop ≤ bend constants index start stop ∧
      bend constants index start stop ≤ max start stop := by
  rcases le_or_gt (2 * constants.clearance) (max start stop - min start stop) with hroom | hnarrow
  · obtain ⟨hlow, hhigh⟩ := bend_mem index hroom
    exact ⟨by linarith, by linarith⟩
  · rw [bend_of_narrow index hnarrow]
    exact midpoint_mem start stop

/-- A wire does not bend at its ends. -/
theorem bend_strictly_between (h : 0 < constants.clearance) (index : Nat)
    (hlt : min start stop < max start stop) :
    min start stop < bend constants index start stop ∧
      bend constants index start stop < max start stop := by
  rcases le_or_gt (2 * constants.clearance) (max start stop - min start stop) with hroom | hnarrow
  · obtain ⟨hlow, hhigh⟩ := bend_mem index hroom
    exact ⟨by linarith, by linarith⟩
  · rw [bend_of_narrow index hnarrow]
    exact lt_midpoint_lt hlt

/-! ## Directions and lanes -/

theorem idealBend_comm (constants : RoutingConstants ℚ) (start stop : ℚ) :
    idealBend constants start stop = idealBend constants stop start := by
  unfold idealBend
  simp only [Scalar.min_rat, Scalar.max_rat]
  rw [min_comm, max_comm, midpoint_comm]

/-- A wire bends at the same place in both directions. -/
theorem bend_comm (constants : RoutingConstants ℚ) (index : Nat) (start stop : ℚ) :
    bend constants index start stop = bend constants index stop start := by
  unfold bend
  simp only [Scalar.min_rat, Scalar.max_rat]
  rw [min_comm, max_comm, midpoint_comm, idealBend_comm]

/-- Wires in the same lane bend at the same place. -/
theorem bend_congr (h : i % max constants.laneCount 1 = j % max constants.laneCount 1)
    (start stop : ℚ) : bend constants i start stop = bend constants j start stop := by
  have hlane : lane constants i = lane constants j := congrArg (fun n : Nat => (n : ℚ) - _) h
  unfold bend
  rw [hlane]

theorem lane_mono (h : i % max constants.laneCount 1 ≤ j % max constants.laneCount 1) :
    lane constants i ≤ lane constants j :=
  sub_le_sub_right (Nat.cast_le.mpr h) _

/-- Wires that differ in their number only bend in the order of their lanes. -/
theorem bend_mono (hspacing : 0 ≤ constants.laneSpacing)
    (h : i % max constants.laneCount 1 ≤ j % max constants.laneCount 1) (start stop : ℚ) :
    bend constants i start stop ≤ bend constants j start stop := by
  rcases le_or_gt (2 * constants.clearance) (max start stop - min start stop) with hroom | hnarrow
  · rw [bend_of_room i hroom, bend_of_room j hroom]
    have hlane := mul_le_mul_of_nonneg_right (lane_mono h) hspacing
    exact max_le_max_left _ (min_le_min_left _ (add_le_add_right hlane _))
  · rw [bend_of_narrow i hnarrow, bend_of_narrow j hnarrow]

/-- Whether the wires between two points bend as they should: the clearance is kept at both ends
where there is room for it and the bend is halfway where there is none, it is between the ends and
not at them, and it depends on the two points and the lane of the wire only, in the order of the
lanes. -/
structure WellBent (constants : RoutingConstants ℚ) (start stop : Point ℚ) : Prop where
  room : ∀ index, 2 * constants.clearance ≤ max start.x stop.x - min start.x stop.x →
    (route constants index start stop).bendX ∈ Set.Icc (min start.x stop.x + constants.clearance)
      (max start.x stop.x - constants.clearance)
  narrow : ∀ index, ¬ 2 * constants.clearance ≤ max start.x stop.x - min start.x stop.x →
    (route constants index start stop).bendX = (start.x + stop.x) / 2
  between : ∀ index, (route constants index start stop).bendX ∈
    Set.Icc (min start.x stop.x) (max start.x stop.x)
  strictly_between : 0 < constants.clearance → min start.x stop.x < max start.x stop.x →
    ∀ index, (route constants index start stop).bendX ∈
      Set.Ioo (min start.x stop.x) (max start.x stop.x)
  swap : ∀ index, (route constants index stop start).bendX =
    (route constants index start stop).bendX
  lane : ∀ i j, i % max constants.laneCount 1 = j % max constants.laneCount 1 →
    (route constants i start stop).bendX = (route constants j start stop).bendX
  mono : 0 ≤ constants.laneSpacing →
    ∀ i j, i % max constants.laneCount 1 ≤ j % max constants.laneCount 1 →
      (route constants i start stop).bendX ≤ (route constants j start stop).bendX

/-- All wires bend as they should, whatever the distances and the lanes. -/
theorem route_wellBent (constants : RoutingConstants ℚ) (hclearance : 0 ≤ constants.clearance)
    (start stop : Point ℚ) : WellBent constants start stop where
  room index h := bend_mem index h
  narrow index h := bend_of_narrow index (not_le.mp h)
  between index := bend_between hclearance index start.x stop.x
  strictly_between hpos hlt index := bend_strictly_between hpos index hlt
  swap index := bend_comm constants index stop.x start.x
  lane _ _ h := bend_congr h start.x stop.x
  mono hspacing _ _ h := bend_mono hspacing h start.x stop.x

/-- The first and the last lane of a wire between neighbouring columns. -/
theorem route_wellBent_standard :
    let constants : RoutingConstants ℚ := .standard
    let start : Point ℚ := ⟨0, 0⟩
    let stop : Point ℚ := ⟨150, 50⟩
    0 ≤ constants.clearance ∧ (route constants 0 start stop).bendX = 39 ∧
      (route constants 9 start stop).bendX = 111 ∧ WellBent constants start stop := by
  intro constants start stop
  have hclearance : 0 ≤ constants.clearance := by decide +kernel
  exact ⟨hclearance, by decide +kernel, by decide +kernel,
    route_wellBent constants hclearance start stop⟩

end Routing

end LogicSchematic
