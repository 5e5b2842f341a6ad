import LogicSchematic.Proofs.Layout.Columns
import LogicSchematic.Proofs.Layout.Exact
import Mathlib.Data.Fintype.EquivFin
import Mathlib.Data.List.Chain
import Mathlib.Data.List.Induction

/-!
# The order within a level

Candidates are put in order by a comparison that is not transitive: heights that are close are
ordered by equation, others by height, so that three candidates can each be smaller than the next in
a circle. What can be asked of the result is about neighbours: none compares as greater than the one
behind it.

All of it comes from what one insertion does (`insertCandidate_eq`): the new candidate passes a run
of others that compare as greater, and stops behind one that does not. Passing keeps neighbours in
order because of two candidates only one compares as greater (`order_ne_gt`), which takes a positive
threshold. It keeps all others in their order, which is said by numbering the candidates and
following the numbers: a relation that insertions keep (`Kept`) says where the candidates come to
stand (`Kept.exists_places`). A candidate is passed by a later one only if it compares as greater
(`exists_stable_places`). With a threshold that is not positive, of two candidates of one height
each compares as greater than the other, and they come out in the opposite order
(`exists_reversing_places`).
-/

namespace LogicSchematic

namespace Placement

section Insertion

variable {α : Type} [Scalar α] {tieThreshold : α}

/-- A candidate passes a run of others that compare as greater, up to one that does not. -/
theorem insertCandidate_eq (tieThreshold : α) (c : Candidate α) (cs : List (Candidate α)) :
    ∃ passed rest, cs = passed ++ rest ∧
      insertCandidate tieThreshold c cs = passed ++ c :: rest ∧
      (∀ d ∈ passed, order tieThreshold d c = .gt) ∧
      ∀ d ∈ rest.head?, order tieThreshold d c ≠ .gt := by
  induction cs with
  | nil => exact ⟨[], [], rfl, rfl, by simp, by simp⟩
  | cons last before ih =>
    rw [insertCandidate]
    split
    next hgt =>
      obtain ⟨passed, rest, rfl, hinsert, hpassed, hrest⟩ := ih
      refine ⟨last :: passed, rest, rfl, ?_, List.forall_mem_cons.mpr ⟨hgt, hpassed⟩, hrest⟩
      rw [hinsert, List.cons_append]
    next hgt => exact ⟨[], last :: before, rfl, rfl, by simp, by simpa using hgt⟩

/-- The last candidate is inserted behind the others. -/
theorem reverse_sortCandidates_concat (tieThreshold : α) (cs : List (Candidate α))
    (c : Candidate α) : (sortCandidates tieThreshold (cs ++ [c])).reverse =
      insertCandidate tieThreshold c (sortCandidates tieThreshold cs).reverse := by
  simp [sortCandidates, List.foldl_append]

/-- Whether insertions keep a relation between numbered candidates of which the first stands behind
the second: it holds between those that are passed and the new candidate, which has the highest
number, and between the new candidate and the rest. -/
structure Kept (tieThreshold : α) (R : Candidate α × Nat → Candidate α × Nat → Prop) : Prop where
  passed : ∀ p c n, p.2 < n → order tieThreshold p.1 c = .gt → R p (c, n)
  rest : ∀ c n (rest : List (Candidate α × Nat)), (∀ q ∈ rest, q.2 < n) → rest.Pairwise R →
    (∀ q ∈ rest.head?, order tieThreshold q.1 c ≠ .gt) → ∀ q ∈ rest, R (c, n) q

variable {R : Candidate α × Nat → Candidate α × Nat → Prop}

/-- Numbered candidates, sorted, the last one first, are related one behind the other. -/
theorem Kept.exists_numbered (h : Kept tieThreshold R) (cs : List (Candidate α)) :
    ∃ numbered : List (Candidate α × Nat), numbered.Perm cs.zipIdx ∧
      numbered.map Prod.fst = (sortCandidates tieThreshold cs).reverse ∧
      numbered.Pairwise R := by
  induction cs using List.reverseRecOn with
  | nil => exact ⟨[], .nil, rfl, .nil⟩
  | append_singleton cs c ih =>
    obtain ⟨numbered, hperm, hmap, hpairwise⟩ := ih
    obtain ⟨passed, rest, hsplit, hinsert, hgreater, hstop⟩ :=
      insertCandidate_eq tieThreshold c (sortCandidates tieThreshold cs).reverse
    obtain ⟨passed', rest', rfl, rfl, rfl⟩ := List.map_eq_append_iff.mp (hmap.trans hsplit)
    have hlt : ∀ p ∈ passed' ++ rest', p.2 < cs.length := by
      intro p hp
      have hmem := List.snd_lt_of_mem_zipIdx (hperm.mem_iff.mp hp)
      rwa [Nat.add_zero] at hmem
    obtain ⟨hpassed, hrest, hcross⟩ := List.pairwise_append.mp hpairwise
    have hbefore : ∀ q ∈ rest', R (c, cs.length) q := by
      refine h.rest c cs.length rest' (fun q hq => hlt q (List.mem_append_right _ hq)) hrest ?_
      intro q hq
      refine hstop q.1 ?_
      rw [List.head?_map]
      exact Option.mem_map_of_mem _ hq
    refine ⟨passed' ++ (c, cs.length) :: rest', ?_, ?_, ?_⟩
    · have hnew : (cs ++ [c]).zipIdx = cs.zipIdx ++ [(c, cs.length)] := by
        simp [List.zipIdx_append]
      rw [hnew]
      exact List.perm_middle.trans ((hperm.cons _).trans (List.perm_append_singleton _ _).symm)
    · rw [reverse_sortCandidates_concat, hinsert, List.map_append, List.map_cons]
    · refine List.pairwise_append.mpr ⟨hpassed, .cons hbefore hrest, fun p hp => ?_⟩
      refine List.forall_mem_cons.mpr ⟨?_, hcross p hp⟩
      exact h.passed p c cs.length (hlt p (List.mem_append_left _ hp))
        (hgreater p.1 (List.mem_map_of_mem hp))

/-- Every candidate has its place in the sorted list, and is related to those in front of it. -/
theorem Kept.exists_places (h : Kept tieThreshold R) (cs : List (Candidate α)) :
    ∃ place : Equiv.Perm (Fin cs.length),
      (∀ i, (sortCandidates tieThreshold cs)[(place i : Nat)]? = some cs[i]) ∧
      ∀ i j, i ≠ j → place i < place j ∨ R (cs[i], i) (cs[j], j) := by
  obtain ⟨numbered, hperm, hmap, hpairwise⟩ := h.exists_numbered cs
  have hlength : numbered.reverse.length = cs.length := by
    rw [List.length_reverse, hperm.length_eq, List.length_zipIdx]
  have hplace : ∀ i : Fin cs.length, ∃ k : Fin cs.length,
      numbered.reverse[(k : Nat)]? = some (cs[i], (i : Nat)) := by
    intro i
    have hmem : (cs[i], (i : Nat)) ∈ numbered.reverse := by
      rw [List.mem_reverse, hperm.mem_iff, List.mk_mem_zipIdx_iff_getElem?]
      exact List.getElem?_eq_getElem i.isLt
    obtain ⟨k, hk, heq⟩ := List.getElem_of_mem hmem
    exact ⟨⟨k, hlength ▸ hk⟩, List.getElem?_eq_some_iff.mpr ⟨hk, heq⟩⟩
  choose place hplace using hplace
  have hinjective : Function.Injective place := by
    intro i j hij
    have heq := (hplace i).symm.trans (hij ▸ hplace j)
    exact Fin.ext (congrArg Prod.snd (Option.some.inj heq))
  refine ⟨.ofBijective place (Finite.injective_iff_bijective.mp hinjective), fun i => ?_,
    fun i j hne => or_iff_not_imp_left.mpr fun hnot => ?_⟩
  · have hsorted : numbered.reverse.map Prod.fst = sortCandidates tieThreshold cs := by
      rw [List.map_reverse, hmap, List.reverse_reverse]
    rw [← hsorted, List.getElem?_map, Equiv.ofBijective_apply, hplace i]
    rfl
  · obtain ⟨hi, hi'⟩ := List.getElem?_eq_some_iff.mp (hplace i)
    obtain ⟨hj, hj'⟩ := List.getElem?_eq_some_iff.mp (hplace j)
    have hlt : place j < place i := lt_of_le_of_ne (not_lt.mp hnot) (hinjective.ne hne.symm)
    have hrel := List.pairwise_iff_getElem.mp (List.pairwise_reverse.mpr hpairwise) _ _ hj hi hlt
    rwa [hi', hj'] at hrel

/-- A candidate is passed by a later one only if it compares as greater. -/
theorem exists_stable_places (tieThreshold : α) (cs : List (Candidate α)) :
    ∃ place : Equiv.Perm (Fin cs.length),
      (∀ i, (sortCandidates tieThreshold cs)[(place i : Nat)]? = some cs[i]) ∧
      ∀ i j, i < j → order tieThreshold cs[i] cs[j] ≠ .gt → place i < place j := by
  have hkept : Kept tieThreshold
      (fun p q : Candidate α × Nat => p.2 < q.2 → order tieThreshold p.1 q.1 = .gt) := by
    refine ⟨fun p c n _ hgt _ => hgt, fun c n rest hlt _ _ q hq hn => ?_⟩
    exact absurd hn (Nat.lt_asymm (hlt q hq))
  obtain ⟨place, hplace, hpassed⟩ := hkept.exists_places cs
  exact ⟨place, hplace, fun i j hij hne =>
    (hpassed i j (ne_of_lt hij)).resolve_right fun hgt => hne (hgt hij)⟩

end Insertion

/-! ## Exact heights -/

variable {tieThreshold : ℚ} {a b : Candidate ℚ}

/-- When a candidate compares as greater: at a close height, by its equation. -/
theorem order_eq_gt_iff : order tieThreshold a b = .gt ↔
    if |a.ideal - b.ideal| < tieThreshold then b.group < a.group else b.ideal ≤ a.ideal := by
  unfold order
  simp only [Scalar.lt_rat_iff]
  show (if |a.ideal - b.ideal| < tieThreshold then _ else _) = _ ↔ _
  split
  next => exact Nat.compare_eq_gt
  next =>
    show (if a.ideal - b.ideal < ((0 : Nat) : ℚ) then Ordering.lt else .gt) = .gt ↔ _
    simp only [Nat.cast_zero, sub_neg]
    split
    next hlt => exact ⟨fun heq => absurd heq (by decide), fun hle => absurd hlt (not_lt.mpr hle)⟩
    next hle => exact ⟨fun _ => not_lt.mp hle, fun _ => rfl⟩

/-- Of two candidates, one at most compares as greater. -/
theorem order_ne_gt (h : 0 < tieThreshold) (hgt : order tieThreshold a b = .gt) :
    order tieThreshold b a ≠ .gt := by
  rw [order_eq_gt_iff] at hgt
  rw [Ne, order_eq_gt_iff, abs_sub_comm]
  split at hgt
  next hclose =>
    rw [if_pos hclose]
    exact Nat.lt_asymm hgt
  next hfar =>
    rw [if_neg hfar]
    intro hle
    rw [le_antisymm hle hgt, sub_self, abs_zero] at hfar
    exact hfar h

/-- No candidate of a sorted list compares as greater than the one behind it. -/
theorem isChain_sortCandidates (h : 0 < tieThreshold) (cs : List (Candidate ℚ)) :
    (sortCandidates tieThreshold cs).IsChain fun a b => order tieThreshold a b ≠ .gt := by
  suffices hreverse : (sortCandidates tieThreshold cs).reverse.IsChain
      fun d c => order tieThreshold c d ≠ .gt from List.isChain_reverse.mp hreverse
  induction cs using List.reverseRecOn with
  | nil => exact .nil
  | append_singleton cs c ih =>
    obtain ⟨passed, rest, hsplit, hinsert, hpassed, hrest⟩ :=
      insertCandidate_eq tieThreshold c (sortCandidates tieThreshold cs).reverse
    rw [reverse_sortCandidates_concat, hinsert]
    rw [hsplit] at ih
    obtain ⟨hchain, hchain', -⟩ := List.isChain_append.mp ih
    -- the new neighbours are the last that was passed and the first that was not
    refine List.isChain_append.mpr ⟨hchain, List.isChain_cons.mpr ⟨hrest, hchain'⟩, ?_⟩
    intro d hd c' hc'
    cases hc'
    exact order_ne_gt h (hpassed d (List.mem_of_getLast? hd))

/-- With a threshold that is not positive, candidates of one height come out in the opposite
order. -/
theorem exists_reversing_places (h : tieThreshold ≤ 0) (cs : List (Candidate ℚ)) :
    ∃ place : Equiv.Perm (Fin cs.length),
      (∀ i, (sortCandidates tieThreshold cs)[(place i : Nat)]? = some cs[i]) ∧
      ∀ i j, i < j → cs[i].ideal = cs[j].ideal → place j < place i := by
  have horder : ∀ a b : Candidate ℚ, order tieThreshold a b = .gt ↔ b.ideal ≤ a.ideal := by
    intro a b
    rw [order_eq_gt_iff, if_neg (not_lt.mpr (h.trans (abs_nonneg _)))]
  have hkept : Kept tieThreshold (fun p q : Candidate ℚ × Nat =>
      q.1.ideal < p.1.ideal ∨ q.1.ideal = p.1.ideal ∧ p.2 < q.2) := by
    refine ⟨fun p c n hn hgt => ?_, fun c n rest _ hpairwise hstop q hq => ?_⟩
    · rcases lt_or_eq_of_le ((horder p.1 c).mp hgt) with hlt | heq
      · exact .inl hlt
      · exact .inr ⟨heq, hn⟩
    · -- the first of the rest stands higher, and no other is below it
      cases rest with
      | nil => cases hq
      | cons first rest =>
        have hfirst : first.1.ideal < c.ideal := by
          have hne := hstop first rfl
          rwa [Ne, horder, not_le] at hne
        rcases List.mem_cons.mp hq with rfl | hmem
        · exact .inl hfirst
        · refine .inl (lt_of_le_of_lt ?_ hfirst)
          rcases (List.pairwise_cons.mp hpairwise).1 q hmem with hlt | ⟨heq, -⟩
          · exact hlt.le
          · exact heq.le
  obtain ⟨place, hplace, hpassed⟩ := hkept.exists_places cs
  refine ⟨place, hplace, fun i j hij heq => ?_⟩
  refine (hpassed j i (ne_of_gt hij)).resolve_right ?_
  rintro (hideal | ⟨-, hji⟩)
  · exact absurd heq (ne_of_lt hideal)
  · exact absurd hji (Nat.lt_asymm hij)

/-- Sorting keeps the candidates, leaves no neighbours of which the first compares as greater, and
keeps two candidates in their order unless the first compares as greater. -/
theorem sortCandidates_sound (h : 0 < tieThreshold) (cs : List (Candidate ℚ)) :
    (sortCandidates tieThreshold cs).Perm cs ∧
      (sortCandidates tieThreshold cs).IsChain (fun a b => order tieThreshold a b ≠ .gt) ∧
      ∃ place : Equiv.Perm (Fin cs.length),
        (∀ i, (sortCandidates tieThreshold cs)[(place i : Nat)]? = some cs[i]) ∧
        ∀ i j, i < j → order tieThreshold cs[i] cs[j] ≠ .gt → place i < place j :=
  ⟨sortCandidates_perm tieThreshold cs, isChain_sortCandidates h cs,
    exists_stable_places tieThreshold cs⟩

/-- Three candidates of which each compares as greater than the next in a circle: the second passes
the first, and the third stays behind the first, although it is smaller than the second. -/
theorem sortCandidates_sound_circle :
    let t : ℚ := 20
    let a : Candidate ℚ := ⟨0, 0, 2⟩
    let b : Candidate ℚ := ⟨1, 15, 1⟩
    let c : Candidate ℚ := ⟨2, 30, 0⟩
    let cs := [a, b, c]
    order t a b = .gt ∧ order t b c = .gt ∧ order t c a = .gt ∧ 0 < t ∧
      sortCandidates t cs = [b, a, c] ∧ (sortCandidates t cs).Perm cs ∧
      (sortCandidates t cs).IsChain (fun a b => order t a b ≠ .gt) ∧
      ∃ place : Equiv.Perm (Fin cs.length),
        (∀ i, (sortCandidates t cs)[(place i : Nat)]? = some cs[i]) ∧
        ∀ i j, i < j → order t cs[i] cs[j] ≠ .gt → place i < place j := by
  intro t a b c cs
  exact ⟨by decide +kernel, by decide +kernel, by decide +kernel, by decide +kernel,
    by decide +kernel, sortCandidates_sound (by decide +kernel) cs⟩

end Placement

end LogicSchematic
