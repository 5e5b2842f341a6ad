import LogicSchematic.Layout.Placement
import LogicSchematic.Proofs.Netlist.Consistency

/-!
# Columns

Every node of a consistent netlist stands in the column of its level (`x_place`). Placing goes level
by level, and the invariant is that the levels placed so far are in their columns (`InColumns`): the
inputs are the nodes of the first level (`placeInputs_inColumns`), and placing a level moves exactly
the nodes of that level, whatever order they are put in (`mem_map_fst_stack`), to one column
(`InColumns.placeLevel`).
-/

namespace LogicSchematic

variable {α : Type} [Scalar α]

namespace Placement

variable {positions : Positions α} {net : Netlist} {constants : PlacementConstants α}
  {level : Nat} {id : NodeId} {n : Node}

/-! ## Putting candidates in order -/

/-- Candidates are inserted among those that were inserted before. -/
theorem foldl_insertCandidate_perm (tieThreshold : α) (cs sorted : List (Candidate α)) :
    (cs.foldl (fun sorted c => insertCandidate tieThreshold c sorted) sorted).Perm
      (cs ++ sorted) := by
  induction cs generalizing sorted with
  | nil => exact List.Perm.refl _
  | cons c cs ih =>
    have hinsert : (cs ++ insertCandidate tieThreshold c sorted).Perm (cs ++ c :: sorted) :=
      (insertCandidate_perm tieThreshold c sorted).append_left cs
    exact ((ih _).trans hinsert).trans List.perm_middle

/-- Sorting keeps the candidates. -/
theorem sortCandidates_perm (tieThreshold : α) (cs : List (Candidate α)) :
    (sortCandidates tieThreshold cs).Perm cs := by
  have hperm := foldl_insertCandidate_perm tieThreshold cs []
  rw [List.append_nil] at hperm
  exact (List.reverse_perm _).trans hperm

/-- Stacking keeps the candidates and their order. -/
theorem map_fst_stack (minGap : α) (previous : Option α) (cs : List (Candidate α)) :
    (stack minGap previous cs).map Prod.fst = cs.map Candidate.id := by
  induction cs generalizing previous with
  | nil => rfl
  | cons c cs ih => rw [stack, List.map_cons, List.map_cons, ih]

theorem filterMap_ite {β γ : Type} (p : β → Prop) [DecidablePred p] (f : β → γ) (xs : List β) :
    (xs.filterMap fun x => if p x then some (f x) else none) = (xs.filter (p ·)).map f := by
  induction xs with
  | nil => rfl
  | cons x xs ih => by_cases hx : p x <;> simp [hx, ih]

/-- The nodes of a level, in order of creation, with their numbers. -/
def levelNodes (net : Netlist) (level : Nat) : List (Node × NodeId) :=
  net.nodes.toList.zipIdx.filter fun p => p.1.level = level

theorem mem_levelNodes {p : Node × NodeId} :
    p ∈ levelNodes net level ↔ net.nodes[p.2]? = some p.1 ∧ p.1.level = level := by
  rw [levelNodes, List.mem_filter, List.mem_zipIdx_iff_getElem?, Array.getElem?_toList,
    decide_eq_true_iff]

theorem pairwise_levelNodes (net : Netlist) (level : Nat) :
    (levelNodes net level).Pairwise fun p q => p.2 < q.2 := by
  have hids : (net.nodes.toList.zipIdx.map Prod.snd).Pairwise (· < ·) := by
    rw [List.zipIdx_map_snd]
    exact List.pairwise_lt_range'
  exact (List.pairwise_map.mp hids).sublist List.filter_sublist

/-- The candidates of a level are its nodes. -/
theorem candidates_eq_map (net : Netlist) (constants : PlacementConstants α)
    (positions : Positions α) (level : Nat) : candidates net constants positions level =
      (levelNodes net level).map fun p =>
        ⟨p.2, idealHeight constants (p.1.children.map (Positions.at positions)), p.1.group⟩ :=
  filterMap_ite (fun p : Node × NodeId => p.1.level = level) _ _

theorem mem_map_id_candidates : id ∈ (candidates net constants positions level).map Candidate.id ↔
    ∃ n, net.nodes[id]? = some n ∧ n.level = level := by
  rw [candidates_eq_map, List.map_map]
  constructor
  · intro hid
    obtain ⟨p, hp, rfl⟩ := List.mem_map.mp hid
    exact ⟨p.1, mem_levelNodes.mp hp⟩
  · rintro ⟨n, hn⟩
    exact List.mem_map.mpr ⟨(n, id), mem_levelNodes.mpr hn, rfl⟩

theorem nodup_map_id_candidates :
    ((candidates net constants positions level).map Candidate.id).Nodup := by
  rw [candidates_eq_map, List.map_map]
  exact List.pairwise_map.mpr ((pairwise_levelNodes net level).imp Nat.ne_of_lt)

/-- The nodes that are stacked in a column are those of its level. -/
theorem mem_map_fst_stack : id ∈ (stack constants.minGap none (sortCandidates
      constants.tieThreshold (candidates net constants positions level))).map Prod.fst ↔
    ∃ n, net.nodes[id]? = some n ∧ n.level = level := by
  rw [map_fst_stack, ((sortCandidates_perm _ _).map Candidate.id).mem_iff, mem_map_id_candidates]

/-! ## Moving nodes -/

theorem at_setIfInBounds (positions : Positions α) (i id : NodeId) (p : Point α) :
    Positions.at (positions.setIfInBounds i p) id =
      if i = id ∧ id < positions.size then p else positions.at id := by
  unfold Positions.at
  rw [Array.getElem?_setIfInBounds]
  by_cases hi : i = id
  · subst hi
    by_cases hlt : i < positions.size
    · simp [hlt]
    · simp [hlt]
  · simp [hi]

section foldl

variable {ι : Type} {xs : List ι} {f : ι → NodeId} {point : ι → Point α}

omit [Scalar α] in
theorem size_foldl_setIfInBounds : (xs.foldl (fun positions x =>
      positions.setIfInBounds (f x) (point x)) positions).size = positions.size := by
  induction xs generalizing positions with
  | nil => rfl
  | cons x xs ih => rw [List.foldl_cons, ih, Array.size_setIfInBounds]

/-- What is not moved stays. -/
theorem at_foldl_of_not_mem (h : id ∉ xs.map f) : Positions.at (xs.foldl (fun positions x =>
      positions.setIfInBounds (f x) (point x)) positions) id = positions.at id := by
  induction xs generalizing positions with
  | nil => rfl
  | cons x xs ih =>
    rw [List.map_cons, List.mem_cons, not_or] at h
    rw [List.foldl_cons, ih h.2, at_setIfInBounds, if_neg (fun hx => h.1 hx.1.symm)]

/-- What is moved once is there. -/
theorem at_foldl_of_mem (hnodup : (xs.map f).Nodup) {i : ι} (hi : i ∈ xs)
    (hlt : f i < positions.size) : Positions.at (xs.foldl (fun positions x =>
      positions.setIfInBounds (f x) (point x)) positions) (f i) = point i := by
  induction xs generalizing positions with
  | nil => cases hi
  | cons x xs ih =>
    rw [List.map_cons, List.nodup_cons] at hnodup
    rw [List.foldl_cons]
    rcases List.mem_cons.mp hi with rfl | hmem
    · rw [at_foldl_of_not_mem hnodup.1, at_setIfInBounds, if_pos ⟨rfl, hlt⟩]
    · exact ih hnodup.2 hmem (by rwa [Array.size_setIfInBounds])

end foldl

/-! ## Level by level -/

/-- Whether the nodes of the levels up to a given one stand in the columns of their levels. -/
structure InColumns (net : Netlist) (constants : PlacementConstants α) (positions : Positions α)
    (level : Nat) : Prop where
  size : positions.size = net.nodes.size
  x : ∀ id n, net.nodes[id]? = some n → n.level ≤ level →
    (positions.at id).x = constants.columnX n.level

/-- The nodes of the first level are the inputs. -/
theorem placeInputs_inColumns (hcheck : net.check = .ok ()) (hlisted : net.Listed)
    (constants : PlacementConstants α) :
    InColumns net constants (placeInputs net constants) 0 := by
  refine ⟨size_foldl_setIfInBounds.trans Array.size_replicate, fun id n hn hlevel => ?_⟩
  have hinput : n.kind = .input := by
    by_contra hkind
    have hcons := (Netlist.check_eq_ok_iff.mp hcheck).1 id n hn
    obtain ⟨child, hchild⟩ := List.exists_mem_of_ne_nil _ (hcons.driven hkind)
    obtain ⟨m, -, -, -, hlt⟩ := hcons.exists_driver hchild
    omega
  obtain ⟨i, hi⟩ := List.mem_iff_getElem?.mp
    (Array.mem_toList_iff.mpr ((hlisted.mem_inputs_iff hn).mpr hinput))
  have hnodup : (net.inputs.toList.zipIdx.map Prod.fst).Nodup := by
    rw [List.zipIdx_map_fst, hlisted.inputs]
    exact List.nodup_findIdxs
  have hlt : id < (Array.replicate net.nodes.size (Point.origin : Point α)).size := by
    rw [Array.size_replicate]
    exact (Array.getElem?_eq_some_iff.mp hn).1
  rw [Nat.le_zero.mp hlevel]
  exact congrArg Point.x (at_foldl_of_mem hnodup (List.mk_mem_zipIdx_iff_getElem?.mpr hi) hlt)

/-- Placing a level leaves the nodes of the others. -/
theorem at_placeLevel_of_ne (hn : net.nodes[id]? = some n) (hlevel : n.level ≠ level) :
    (placeLevel net constants positions level).at id = positions.at id := by
  refine at_foldl_of_not_mem fun hmem => ?_
  obtain ⟨m, hm, hlevel'⟩ := mem_map_fst_stack.mp hmem
  cases hn.symm.trans hm
  exact hlevel hlevel'

/-- Placing a level puts its nodes where they are stacked. -/
theorem at_placeLevel_of_mem (hsize : positions.size = net.nodes.size) {p : NodeId × α}
    (hp : p ∈ stack constants.minGap none
      (sortCandidates constants.tieThreshold (candidates net constants positions level))) :
    (placeLevel net constants positions level).at p.1 = ⟨constants.columnX level, p.2⟩ := by
  refine at_foldl_of_mem ?_ hp ?_
  · show ((stack _ _ _).map Prod.fst).Nodup
    rw [map_fst_stack]
    exact ((sortCandidates_perm _ _).map _).nodup_iff.mpr nodup_map_id_candidates
  · obtain ⟨n, hn, -⟩ := mem_map_fst_stack.mp (List.mem_map_of_mem hp)
    rw [hsize]
    exact (Array.getElem?_eq_some_iff.mp hn).1

/-- Placing a level puts its nodes into their column and leaves the others. -/
theorem InColumns.placeLevel (h : InColumns net constants positions level) :
    InColumns net constants (placeLevel net constants positions (level + 1)) (level + 1) := by
  refine ⟨size_foldl_setIfInBounds.trans h.size, fun id n hn hlevel => ?_⟩
  by_cases hplaced : n.level = level + 1
  · obtain ⟨p, hp, rfl⟩ : ∃ p ∈ stack constants.minGap none (sortCandidates
        constants.tieThreshold (candidates net constants positions (level + 1))), p.1 = id :=
      List.mem_map.mp (mem_map_fst_stack.mpr ⟨n, hn, hplaced⟩)
    rw [hplaced, at_placeLevel_of_mem h.size hp]
  · rw [← h.x id n hn (by omega)]
    exact congrArg Point.x (at_placeLevel_of_ne hn hplaced)

/-- All levels are placed. -/
theorem place_inColumns (hcheck : net.check = .ok ()) (hlisted : net.Listed)
    (constants : PlacementConstants α) :
    InColumns net constants (place net constants) net.maxLevel := by
  unfold place
  induction net.maxLevel with
  | zero => exact placeInputs_inColumns hcheck hlisted constants
  | succ level ih =>
    rw [List.range_succ, List.foldl_append]
    exact ih.placeLevel

theorem level_le_maxLevel (hn : net.nodes[id]? = some n) : n.level ≤ net.maxLevel :=
  Netlist.le_highest (List.mem_map_of_mem (Array.mem_toList_iff.mpr (Array.mem_of_getElem? hn)))

/-- A node stands in the column of its level. -/
theorem x_place (h : net.Consistent) (constants : PlacementConstants α)
    (hn : net.nodes[id]? = some n) :
    ((place net constants).at id).x = constants.columnX n.level :=
  (place_inColumns h.check h.listed constants).x id n hn (level_le_maxLevel hn)

end Placement

end LogicSchematic
