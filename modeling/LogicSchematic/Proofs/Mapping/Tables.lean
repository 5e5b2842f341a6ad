import LogicSchematic.Proofs.Mapping.Finish

/-!
# Arenas with tables

`Arena.add` searches all gates for the one that is asked for, and `Arena.finish` searches the kept
indices for each operand. Here both are read off tables. An index beside the gates says where each
of them stands. Marks are set in one sweep from the last gate to the first, and one sweep from the
first to the last copies the marked gates and writes down the place of each copy, in a table that
holds zeros at first.

`InStep` is the invariant of the index, which each call keeps (`add_eq`). The backward sweep ends
with the marks of the needed gates, because what a gate wants marked comes before it and is still
to be looked at (`marked_sweep`). Where the forward sweep reads its table, the place has been
written already: `Copied` says which places these are after the first `n` gates, and each gate keeps
it (`Copied.skip`, `Copied.copy`). So the sweeps give the circuit of `finish` (`finish_eq`).
-/

namespace LogicSchematic

open Mapping (OrderedFrom)

/-- The gates made so far, and the index of each. -/
structure Tables where
  gates : List MappedGate
  index : List (MappedGate × Nat)

namespace Tables

/-- Tables without gates. -/
def empty : Tables := ⟨[], []⟩

/-- The arena of the same gates. -/
def arena (t : Tables) : Arena := ⟨t.gates⟩

/-- The operand for a gate, which is added if the index does not have it. -/
def add (t : Tables) (g : MappedGate) : Operand × Tables :=
  match t.index.lookup g with
  | some i => (.gate i, t)
  | none => (.gate t.gates.length, ⟨t.gates ++ [g], (g, t.gates.length) :: t.index⟩)

/-- The operands for several gates, asked for one after another. -/
def addAll (gs : List MappedGate) : List Operand × Tables :=
  gs.foldl (fun s g => (s.1 ++ [(s.2.add g).1], (s.2.add g).2)) ([], empty)

/-- Marks the gates that the operands read. -/
def mark (used : Array Bool) (operands : List Operand) : Array Bool :=
  (Arena.reads operands).foldl (fun used j => used.setIfInBounds j true) used

/-- The sweep over gates, the last one first, that marks what a marked gate reads. -/
def sweep : List (MappedGate × Nat) → Array Bool → Array Bool
  | [], used => used
  | (g, index) :: before, used =>
    if used.getD index false then sweep before (mark used g.operands) else sweep before used

/-- The operand that reads a copy at the place of the table. -/
def renumber (places : Array Nat) : Operand → Operand
  | .var name => .var name
  | .gate index => .gate (places.getD index 0)

/-- The sweep over gates, the first one first, that copies the marked ones behind `copies`. -/
def copyMarked (used : Array Bool) :
    List (MappedGate × Nat) → (places : Array Nat) → (copies : List MappedGate) →
      Array Nat × List MappedGate
  | [], places, copies => (places, copies)
  | (g, index) :: rest, places, copies =>
    if used.getD index false then
      let places := places.setIfInBounds index copies.length
      copyMarked used rest places
        (copies ++ [{ g with operands := g.operands.map (renumber places) }])
    else copyMarked used rest places copies

/-- The circuit of a root, by a sweep backward and a sweep forward. -/
def finish (t : Tables) (root : Operand) : Mapping :=
  let n := t.gates.length
  let used := sweep t.gates.zipIdx.reverse (mark (Array.replicate n false) [root])
  let copied := copyMarked used t.gates.zipIdx (Array.replicate n 0) []
  ⟨copied.2, renumber copied.1 root⟩

/-! ## The index -/

/-- Whether the index has exactly the gates, each with the place where it stands. -/
def InStep (t : Tables) : Prop :=
  ∀ (g : MappedGate) (i : Nat), t.index.lookup g = some i ↔ t.gates[i]? = some g

theorem inStep_empty : empty.InStep := by
  intro g i
  simp [empty]

theorem getElem?_concat_eq_some_iff {gs : List MappedGate} {g k : MappedGate} {i : Nat} :
    (gs ++ [g])[i]? = some k ↔ gs[i]? = some k ∨ i = gs.length ∧ k = g := by
  rw [List.getElem?_append]
  split
  next hi => simp [Nat.ne_of_lt hi]
  next hi =>
    rw [List.getElem?_singleton, List.getElem?_eq_none (Nat.le_of_not_lt hi)]
    split
    next hlast =>
      have : i = gs.length := by omega
      simp [this, eq_comm]
    next hlast =>
      have : i ≠ gs.length := by omega
      simp [this]

/-- A call of `add` finds what a search would find, and keeps the index in step. -/
theorem add_eq {t : Tables} (h : t.InStep) (g : MappedGate) :
    (t.add g).1 = (t.arena.add g).1 ∧ (t.add g).2.arena = (t.arena.add g).2 ∧
      (t.add g).2.InStep := by
  have hfound : g ∈ t.arena.gates → t.index.lookup g = some (t.gates.idxOf g) := by
    intro hmem
    exact (h g _).mpr (List.getElem?_idxOf hmem)
  rw [add]
  cases hg : t.index.lookup g with
  | some i =>
    have hmem : g ∈ t.arena.gates := List.mem_of_getElem? ((h g i).mp hg)
    cases hg.symm.trans (hfound hmem)
    rw [Arena.add_of_mem hmem]
    exact ⟨rfl, rfl, h⟩
  | none =>
    have hnew : g ∉ t.arena.gates := by
      intro hmem
      cases hg.symm.trans (hfound hmem)
    rw [Arena.add_of_not_mem hnew]
    refine ⟨rfl, rfl, fun k i => ?_⟩
    rw [getElem?_concat_eq_some_iff, ← h k i, List.lookup_cons]
    by_cases hk : k = g
    · subst hk
      simp [hg, eq_comm]
    · simp [hk, beq_false_of_ne hk]

theorem addAll_concat (gs : List MappedGate) (g : MappedGate) :
    addAll (gs ++ [g]) =
      ((addAll gs).1 ++ [((addAll gs).2.add g).1], ((addAll gs).2.add g).2) := by
  rw [addAll, List.foldl_append]
  rfl

/-! ## Marks -/

theorem getD_foldl_setIfInBounds (js : List Nat) (used : Array Bool) (hjs : ∀ j ∈ js, j < used.size)
    (i : Nat) :
    (js.foldl (fun used j => used.setIfInBounds j true) used).getD i false = true ↔
      i ∈ js ∨ used.getD i false = true := by
  induction js generalizing used with
  | nil => simp
  | cons j js ih =>
    rw [List.forall_mem_cons] at hjs
    have hset : (used.setIfInBounds j true).getD i false = true ↔
        i = j ∨ used.getD i false = true := by
      rw [Array.getD_eq_getD_getElem?, Array.getElem?_setIfInBounds, Array.getD_eq_getD_getElem?]
      split
      next heq => simp [heq, heq ▸ hjs.1]
      next hne => simp [Ne.symm hne]
    rw [List.foldl_cons, ih _ (by simpa using hjs.2), hset, List.mem_cons]
    tauto

theorem size_mark (used : Array Bool) (xs : List Operand) : (mark used xs).size = used.size := by
  rw [mark]
  induction Arena.reads xs generalizing used with
  | nil => rfl
  | cons j js ih => rw [List.foldl_cons, ih, Array.size_setIfInBounds]

theorem marked_mark {used : Array Bool} {xs : List Operand}
    (h : ∀ j ∈ Arena.reads xs, j < used.size) (i : Nat) :
    (mark used xs).getD i false = true ↔ i ∈ Arena.reads xs ∨ used.getD i false = true :=
  getD_foldl_setIfInBounds _ used h i

/-- The sweep ends with the marks of the needed gates. The gates from `n` on have been looked at,
and those of them that are marked are kept; what is marked from here on comes before `n`. -/
theorem marked_sweep {gs : List MappedGate} (h : OrderedFrom 0 gs) {n : Nat} (hn : n ≤ gs.length)
    {used : Array Bool} {wanted kept : List Nat} (hsize : used.size = gs.length)
    (hused : ∀ i, used.getD i false = true ↔ i ∈ wanted)
    (hkept : ∀ i, i ∈ kept ↔ n ≤ i ∧ i ∈ wanted) (i : Nat) :
    (sweep (gs.take n).zipIdx.reverse used).getD i false = true ↔
      i ∈ Arena.needed (gs.take n).zipIdx.reverse wanted kept := by
  induction n generalizing used wanted kept with
  | zero =>
    have hall := hkept i
    rw [List.take_zero]
    simp only [Nat.zero_le, true_and] at hall
    exact (hused i).trans hall.symm
  | succ n ih =>
    have hbelow : ∀ j ∈ Arena.reads gs[n].operands, j < n := by
      intro j hj
      exact Mapping.below_of_mem h (List.getElem?_eq_getElem hn) _ (Arena.mem_reads.mp hj)
    rw [Arena.reverse_zipIdx_take_succ hn, sweep, Arena.needed]
    by_cases hwanted : n ∈ wanted
    · rw [if_pos ((hused n).mpr hwanted), if_pos hwanted]
      refine ih (by omega) (by rw [size_mark, hsize]) ?_ ?_
      · intro j
        rw [marked_mark (fun k hk => by have := hbelow k hk; omega), hused, List.mem_append]
      · intro j
        rw [List.mem_cons, List.mem_append, hkept]
        -- a gate from `n` on is not read by gate `n`, so it is wanted only if it was before
        constructor
        · rintro (rfl | ⟨hj, hmem⟩)
          · exact ⟨Nat.le_refl _, .inr hwanted⟩
          · exact ⟨by omega, .inr hmem⟩
        · rintro ⟨hj, hmem | hmem⟩
          · have := hbelow j hmem
            omega
          · by_cases hjn : j = n
            · exact .inl hjn
            · exact .inr ⟨by omega, hmem⟩
    · rw [if_neg (fun hmarked => hwanted ((hused n).mp hmarked)), if_neg hwanted]
      refine ih (by omega) hsize hused fun j => ?_
      rw [hkept]
      constructor
      · exact fun hj => ⟨by omega, hj.2⟩
      · intro hj
        have hjn : j ≠ n := fun heq => hwanted (heq ▸ hj.2)
        exact ⟨by omega, hj.2⟩

/-- From the mark of the root, the sweep marks what the root reaches. -/
theorem marked_sweep_root {P : MappedGate → Prop} {a : Arena} (h : a.Sound P) {root : Operand}
    (hroot : a.Has root) (i : Nat) :
    (sweep a.gates.zipIdx.reverse
      (mark (Array.replicate a.gates.length false) [root])).getD i false = true ↔
        i ∈ a.reachable root := by
  have hreads := Arena.lt_of_mem_reads (List.forall_mem_singleton.mpr hroot)
  have hstart : ∀ j, (mark (Array.replicate a.gates.length false) [root]).getD j false = true ↔
      j ∈ Arena.reads [root] := by
    intro j
    have hfalse : (Array.replicate a.gates.length false).getD j false ≠ true := by
      rw [Array.getD_eq_getD_getElem?, Array.getElem?_replicate]
      split <;> simp
    rw [marked_mark (by rwa [Array.size_replicate])]
    simp [hfalse]
  have hnone : ∀ j, j ∈ ([] : List Nat) ↔ a.gates.length ≤ j ∧ j ∈ Arena.reads [root] := by
    intro j
    have := hreads j
    simp only [List.not_mem_nil, false_iff, not_and]
    exact fun hle hj => Nat.not_lt.mpr hle (this hj)
  have hsize : (mark (Array.replicate a.gates.length false) [root]).size = a.gates.length := by
    rw [size_mark, Array.size_replicate]
  have := marked_sweep h.ordered (Nat.le_refl _) hsize hstart hnone i
  rwa [List.take_length] at this

/-! ## Copies -/

variable {P : MappedGate → Prop} {a : Arena} {kept : List Nat} {n : Nat} {places : Array Nat}
  {copies : List MappedGate}

/-- What the forward sweep has done when it has gone past the first `n` gates: the kept ones among
them are copied, and their places are in the table. -/
structure Copied (a : Arena) (kept : List Nat) (n : Nat) (places : Array Nat)
    (copies : List MappedGate) : Prop where
  size : places.size = a.gates.length
  place : ∀ i ∈ kept, i < n → places.getD i 0 = kept.idxOf i
  first : copies <+: a.compact kept
  copied : ∀ i ∈ kept, kept.idxOf i < copies.length ↔ i < n

theorem copied_zero (a : Arena) (kept : List Nat) :
    Copied a kept 0 (Array.replicate a.gates.length 0) [] :=
  ⟨Array.size_replicate, fun _ _ hi => absurd hi (Nat.not_lt_zero _), List.nil_prefix,
    fun _ _ => by simp⟩

theorem concat_first {gs ks : List MappedGate} {g : MappedGate} (h : gs <+: ks)
    (hg : ks[gs.length]? = some g) : gs ++ [g] <+: ks := by
  obtain ⟨rest, rfl⟩ := h
  rw [List.getElem?_append_right (Nat.le_refl _), Nat.sub_self] at hg
  cases rest with
  | nil => cases hg
  | cons k rest =>
    cases hg
    exact ⟨rest, by rw [List.append_assoc]; rfl⟩

/-- Operands that read copied gates are renumbered to the copies. -/
theorem Copied.renumber_eq (h : Copied a kept n places copies) {x : Operand}
    (hx : ∀ i, x = .gate i → i ∈ kept ∧ i < n) : renumber places x = Arena.renumber kept x := by
  cases x with
  | var name => rfl
  | gate i =>
    obtain ⟨hmem, hlt⟩ := hx i rfl
    exact congrArg Operand.gate (h.place i hmem hlt)

theorem Copied.skip (h : Copied a kept n places copies) (hn : n ∉ kept) :
    Copied a kept (n + 1) places copies := by
  have hne : ∀ i ∈ kept, i ≠ n := fun i hi heq => hn (heq ▸ hi)
  refine ⟨h.size, fun i hi hlt => ?_, h.first, fun i hi => ?_⟩
  · have := hne i hi
    exact h.place i hi (by omega)
  · have := hne i hi
    rw [h.copied i hi]
    omega

/-- The next kept gate takes the next place. -/
theorem Copied.idxOf_eq (h : Copied a kept n places copies) (hsel : a.Selection kept)
    (hn : n ∈ kept) : kept.idxOf n = copies.length := by
  have hle : ¬ kept.idxOf n < copies.length := by
    rw [h.copied n hn]
    omega
  by_contra hne
  have hlt : copies.length < kept.length := by
    have := List.idxOf_lt_length_of_mem hn
    omega
  -- the gate that belongs at this place comes before gate `n`, so it has been copied already
  have hmem := List.getElem_mem hlt
  have hplace := hsel.idxOf_getElem hlt
  have hbefore : kept[copies.length] < n := by
    by_contra hge
    rcases Nat.lt_or_eq_of_le (Nat.le_of_not_lt hge) with hgt | heq
    · have := hsel.idxOf_lt hn hmem hgt
      omega
    · rw [← heq] at hplace
      exact hne hplace
  have := (h.copied _ hmem).mpr hbefore
  omega

/-- The place of a kept gate is written before its operands are read off the table. They come before
the gate, so theirs have been written already. -/
theorem Copied.copy (h : Copied a kept n places copies) (hsound : a.Sound P)
    (hsel : a.Selection kept) (hn : n ∈ kept) {g : MappedGate} (hg : a.gates[n]? = some g) :
    let places' := places.setIfInBounds n copies.length
    Copied a kept (n + 1) places'
      (copies ++ [{ g with operands := g.operands.map (renumber places') }]) := by
  intro places'
  have hidx := h.idxOf_eq hsel hn
  have hplaces : ∀ i ∈ kept, i < n + 1 → places'.getD i 0 = kept.idxOf i := by
    intro i hi hlt
    rw [Array.getD_eq_getD_getElem?, Array.getElem?_setIfInBounds]
    split
    next heq =>
      have hn := hsel.lt_length n hn
      rw [if_pos (by rw [h.size]; exact hn), ← heq, hidx]
      rfl
    next hne =>
      rw [← Array.getD_eq_getD_getElem?]
      exact h.place i hi (by omega)
  have hcopy : g.operands.map (renumber places') = g.operands.map (Arena.renumber kept) := by
    refine List.map_congr_left fun x hx => ?_
    cases x with
    | var name => rfl
    | gate j =>
      have hlt : j < n := hsound.ordered_iff hg _ hx
      exact congrArg Operand.gate (hplaces j (hsel.closed n hn g hg j hx) (by omega))
  rw [hcopy]
  refine ⟨by rw [Array.size_setIfInBounds, h.size], hplaces, ?_, ?_⟩
  · have hnext := Arena.getElem?_compact_idxOf hsel hn hg
    rw [hidx] at hnext
    exact concat_first h.first hnext
  · intro i hi
    rw [List.length_append, List.length_singleton]
    have hcopied := h.copied i hi
    have hinj : kept.idxOf i = kept.idxOf n ↔ i = n := List.idxOf_inj hi
    omega

/-- The forward sweep copies all kept gates. -/
theorem copied_copyMarked (hsound : a.Sound P) (hsel : a.Selection kept) {used : Array Bool}
    (hused : ∀ i, used.getD i false = true ↔ i ∈ kept) (gs : List MappedGate)
    (hgs : gs = a.gates.drop n) (h : Copied a kept n places copies) :
    Copied a kept (n + gs.length) (copyMarked used (gs.zipIdx n) places copies).1
      (copyMarked used (gs.zipIdx n) places copies).2 := by
  induction gs generalizing n places copies with
  | nil => exact h
  | cons g gs ih =>
    have hg : a.gates[n]? = some g := by
      have := congrArg List.head? hgs
      rw [List.head?_drop] at this
      exact this.symm
    have hrest : gs = a.gates.drop (n + 1) := by
      rw [← List.tail_drop, ← hgs, List.tail_cons]
    rw [List.zipIdx_cons, copyMarked, List.length_cons, Nat.add_comm gs.length, ← Nat.add_assoc]
    by_cases hn : n ∈ kept
    · rw [if_pos ((hused n).mpr hn)]
      exact ih hrest (h.copy hsound hsel hn hg)
    · rw [if_neg (fun hmarked => hn ((hused n).mp hmarked))]
      exact ih hrest (h.skip hn)

theorem Copied.copies_eq (h : Copied a kept a.gates.length places copies)
    (hsel : a.Selection kept) : copies = a.compact kept := by
  refine h.first.eq_of_length_le ?_
  rw [Arena.length_compact hsel]
  by_contra hlt
  have hlt := Nat.lt_of_not_le hlt
  have hmem := List.getElem_mem hlt
  have := (h.copied _ hmem).mpr (hsel.lt_length _ hmem)
  rw [hsel.idxOf_getElem hlt] at this
  omega

/-! ## The circuit -/

/-- Two sweeps over a sound arena give the circuit of the root. -/
theorem finish_eq {t : Tables} (h : t.arena.Sound P) {root : Operand} (hroot : t.arena.Has root) :
    t.finish root = t.arena.finish root := by
  have hsel := Arena.selection_reachable h hroot
  have hcopied :=
    copied_copyMarked h hsel (marked_sweep_root h hroot) t.gates rfl (copied_zero t.arena _)
  rw [Nat.zero_add] at hcopied
  have hroot' : ∀ i, root = .gate i → i ∈ t.arena.reachable root ∧ i < t.gates.length :=
    fun i hi => ⟨Arena.mem_reachable_root h hroot i hi, by rw [hi] at hroot; exact hroot⟩
  exact congrArg₂ Mapping.mk (hcopied.copies_eq hsel) (hcopied.renumber_eq hroot')

end Tables

end LogicSchematic
