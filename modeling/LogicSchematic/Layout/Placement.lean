import LogicSchematic.Layout.Constants
import LogicSchematic.Layout.Geometry

/-!
# Placement

Every level is a column. Inputs are stacked in the first column in creation order. The other levels
are placed one after the other: a node wants to stand at the mean height of its drivers, and is
pushed down when that is too close to the node above it.

The nodes of a level are put in order by their wanted heights, except that nodes whose heights are
close are ordered by equation. That comparison is not transitive, so `sortCandidates` is an
insertion that compares neighbours only; `insertCandidate_perm` says that it loses nothing.
-/
namespace LogicSchematic

/-- A node that waits for its place in a level. -/
structure Candidate (α : Type) where
  id : NodeId
  /-- The height it wants to stand at. -/
  ideal : α
  /-- The equation it was made for. -/
  group : Nat
  deriving DecidableEq, Repr

namespace Placement

variable {α : Type} [Scalar α]

/-- Compares two candidates: by height, or by equation when the heights are close. -/
def order (tieThreshold : α) (a b : Candidate α) : Ordering :=
  let difference := a.ideal - b.ideal
  if Scalar.lt (Scalar.abs difference) tieThreshold then compare a.group b.group
  else if Scalar.lt difference (Scalar.ofNat 0) then .lt
  else .gt

/-- Puts a candidate behind others, whose last comes first in the list, and lets it slide forward as
long as the one before it compares as greater. -/
def insertCandidate (tieThreshold : α) (c : Candidate α) :
    List (Candidate α) → List (Candidate α)
  | [] => [c]
  | last :: before =>
    if order tieThreshold last c = .gt then last :: insertCandidate tieThreshold c before
    else c :: last :: before

/-- Puts candidates in order, inserting one after the other. -/
def sortCandidates (tieThreshold : α) (cs : List (Candidate α)) : List (Candidate α) :=
  (cs.foldl (fun sorted c => insertCandidate tieThreshold c sorted) []).reverse

/-- The mean of `y` and more values. -/
def mean (y : α) (ys : List α) : α :=
  ys.foldl (· + ·) y / Scalar.ofNat (ys.length + 1)

/-- The height a node wants to stand at, when its drivers stand at these positions. -/
def idealHeight (constants : PlacementConstants α) : List (Point α) → α
  | [] => constants.defaultY
  | p :: ps => mean p.y (ps.map Point.y)

/-- The height of a node that wants to stand at `ideal`, below a node at the height `previous`. -/
def pushDown (minGap : α) (previous : Option α) (ideal : α) : α :=
  match previous with
  | some p => if Scalar.lt ideal (p + minGap) then p + minGap else ideal
  | none => ideal

/-- The heights of the candidates of a level, from the top. -/
def stack (minGap : α) (previous : Option α) : List (Candidate α) → List (NodeId × α)
  | [] => []
  | c :: cs =>
    let y := pushDown minGap previous c.ideal
    (c.id, y) :: stack minGap (some y) cs

/-- Positions by node number. -/
abbrev Positions (α : Type) := Array (Point α)

/-- The position of a node. -/
def Positions.at (positions : Positions α) (id : NodeId) : Point α :=
  positions[id]?.getD Point.origin

/-- The inputs, stacked in the first column; all other nodes are still at the origin. -/
def placeInputs (net : Netlist) (constants : PlacementConstants α) : Positions α :=
  net.inputs.toList.zipIdx.foldl
    (fun positions (id, i) => positions.setIfInBounds id
      ⟨constants.columnX 0, constants.inputTop + Scalar.ofNat i * constants.inputSpacing⟩)
    (Array.replicate net.nodes.size Point.origin)

/-- The candidates of a level, in creation order. -/
def candidates (net : Netlist) (constants : PlacementConstants α) (positions : Positions α)
    (level : Nat) : List (Candidate α) :=
  net.nodes.toList.zipIdx.filterMap fun (n, id) =>
    if n.level = level then
      some ⟨id, idealHeight constants (n.children.map (Positions.at positions)), n.group⟩
    else none

/-- Places a level, when the levels before it are placed. -/
def placeLevel (net : Netlist) (constants : PlacementConstants α) (positions : Positions α)
    (level : Nat) : Positions α :=
  let sorted := sortCandidates constants.tieThreshold (candidates net constants positions level)
  (stack constants.minGap none sorted).foldl
    (fun positions (id, y) => positions.setIfInBounds id ⟨constants.columnX level, y⟩) positions

/-- The positions of all nodes. -/
def place (net : Netlist) (constants : PlacementConstants α) : Positions α :=
  (List.range net.maxLevel).foldl
    (fun positions i => placeLevel net constants positions (i + 1)) (placeInputs net constants)

theorem insertCandidate_perm (tieThreshold : α) (c : Candidate α) (cs : List (Candidate α)) :
    (insertCandidate tieThreshold c cs).Perm (c :: cs) := by
  induction cs with
  | nil => exact List.Perm.refl _
  | cons d cs ih =>
    simp only [insertCandidate]
    split
    · exact (ih.cons d).trans (List.Perm.swap c d cs)
    · exact List.Perm.refl _

end Placement

end LogicSchematic
