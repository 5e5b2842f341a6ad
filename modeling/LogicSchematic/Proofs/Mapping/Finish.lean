import LogicSchematic.Proofs.Mapping.Arena

/-!
# Dropping unneeded gates

`finish` keeps the gates that the root reaches. That the marking pass finds exactly these is
`mem_reachable`; it marks from the last gate to the first, and since gates are in order, all readers
of a gate are marked before the gate is looked at.

A selection of gates that is ascending and closed under reading (`Selection`) can be renumbered: the
kept copies are in order again and have the expressions of the originals
(`Selection.expr_renumber`). So `finish` gives a well-formed circuit that unfolds to the expression
of its root (`finish_wellFormed`, `unfold_finish`), each of whose gates copies one of the arena
(`exists_of_mem_finish`).
-/

namespace LogicSchematic

namespace Arena

open Mapping (OrderedFrom Reaches)

variable {P : MappedGate → Prop} {a : Arena} {gs : List MappedGate} {kept : List Nat}

/-! ## Marking -/

theorem mem_reads {xs : List Operand} {j : Nat} : j ∈ reads xs ↔ .gate j ∈ xs := by
  rw [reads, List.mem_filterMap]
  constructor
  · rintro ⟨x, hx, hj⟩
    cases x with
    | var name => cases hj
    | gate i =>
      cases hj
      exact hx
  · exact fun h => ⟨_, h, rfl⟩

theorem lt_of_mem_reads {xs : List Operand} (h : ∀ x ∈ xs, a.Has x) :
    ∀ j ∈ reads xs, j < a.gates.length :=
  fun j hj => h (.gate j) (mem_reads.mp hj)

/-- Backwards, the first gates begin with the last of them. -/
theorem reverse_zipIdx_take_succ {n : Nat} (hn : n < gs.length) :
    (gs.take (n + 1)).zipIdx.reverse = (gs[n], n) :: (gs.take n).zipIdx.reverse := by
  have hlen : (gs.take n).length = n := by
    rw [List.length_take]
    omega
  rw [List.take_succ_eq_append_getElem hn, List.zipIdx_append, List.reverse_append, hlen,
    Nat.zero_add]
  rfl

/-- Marking keeps, beside what is kept already, what the wanted gates reach. -/
theorem mem_needed (h : OrderedFrom 0 gs) {n i : Nat} (hn : n ≤ gs.length)
    (wanted kept : List Nat) :
    i ∈ needed (gs.take n).zipIdx.reverse wanted kept ↔
      i ∈ kept ∨ ∃ j ∈ wanted, j < n ∧ Reaches gs (.gate j) i := by
  induction n generalizing wanted kept with
  | zero => simp [needed]
  | succ n ih =>
    have hg : gs[n]? = some gs[n] := List.getElem?_eq_getElem hn
    rw [reverse_zipIdx_take_succ hn, needed]
    split
    next hwanted =>
      -- gate `n` is wanted: it is kept, and from here on its operands are wanted too
      rw [ih (by omega), List.mem_cons]
      constructor
      · rintro ((rfl | hkept) | ⟨j, hj, hlt, hr⟩)
        · exact .inr ⟨i, hwanted, by omega, .here i⟩
        · exact .inl hkept
        · rcases List.mem_append.mp hj with hread | hj
          · exact .inr ⟨n, hwanted, by omega, .step hg (mem_reads.mp hread) hr⟩
          · exact .inr ⟨j, hj, by omega, hr⟩
      · rintro (hkept | ⟨j, hj, hlt, hr⟩)
        · exact .inl (.inr hkept)
        · -- what gate `n` reaches, it reaches by way of an operand, unless it is the gate itself
          by_cases hjn : j = n
          · subst hjn
            rcases Mapping.reaches_gate_iff.mp hr with rfl | ⟨g, k, hg', hk, hr⟩
            · exact .inl (.inl rfl)
            · cases hg.symm.trans hg'
              have hbelow := Mapping.below_of_mem h hg _ hk
              exact .inr ⟨k, List.mem_append_left _ (mem_reads.mpr hk), hbelow, hr⟩
          · exact .inr ⟨j, List.mem_append_right _ hj, by omega, hr⟩
    next hwanted =>
      -- a gate that is not wanted changes nothing, so the bound may stop at it
      rw [ih (by omega)]
      refine or_congr Iff.rfl (exists_congr fun j => and_congr_right fun hj => ?_)
      have hjn : j ≠ n := fun heq => hwanted (heq ▸ hj)
      exact and_congr_left fun _ => by omega

/-- Marking keeps indices in ascending order. -/
theorem pairwise_needed {n : Nat} (hn : n ≤ gs.length) (wanted : List Nat) {kept : List Nat}
    (hkept : kept.Pairwise (· < ·)) (hle : ∀ i ∈ kept, n ≤ i) :
    (needed (gs.take n).zipIdx.reverse wanted kept).Pairwise (· < ·) := by
  induction n generalizing wanted kept with
  | zero => simpa [needed] using hkept
  | succ n ih =>
    rw [reverse_zipIdx_take_succ hn, needed]
    split
    next =>
      refine ih (by omega) _ (List.pairwise_cons.mpr ⟨hle, hkept⟩) ?_
      intro i hi
      rcases List.mem_cons.mp hi with rfl | hi
      · exact Nat.le_refl _
      · have := hle i hi
        omega
    next => exact ih (by omega) _ hkept fun i hi => Nat.le_of_succ_le (hle i hi)

/-- The kept gates are those that the root reaches. -/
theorem mem_reachable (h : a.Sound P) {root : Operand} (hroot : a.Has root) {i : Nat} :
    i ∈ a.reachable root ↔ Reaches a.gates root i := by
  have hmem := mem_needed h.ordered (i := i) (Nat.le_refl a.gates.length) (reads [root]) []
  rw [List.take_length] at hmem
  rw [reachable, hmem]
  constructor
  · rintro (hnil | ⟨j, hj, -, hr⟩)
    · exact absurd hnil List.not_mem_nil
    · rw [mem_reads, List.mem_singleton] at hj
      exact hj ▸ hr
  · intro hr
    cases root with
    | var name => exact absurd hr Mapping.not_reaches_var
    | gate j => exact .inr ⟨j, mem_reads.mpr (List.mem_singleton.mpr rfl), hroot, hr⟩

theorem pairwise_reachable (a : Arena) (root : Operand) :
    (a.reachable root).Pairwise (· < ·) := by
  have := pairwise_needed (Nat.le_refl a.gates.length) (reads [root]) .nil (by simp)
  rwa [List.take_length] at this

/-! ## Renumbering -/

/-- Gates that can be kept by themselves: they are listed in ascending order, and what they read is
listed too. -/
structure Selection (a : Arena) (kept : List Nat) : Prop where
  ascending : kept.Pairwise (· < ·)
  lt_length : ∀ i ∈ kept, i < a.gates.length
  closed : ∀ i ∈ kept, ∀ g, a.gates[i]? = some g → ∀ j, .gate j ∈ g.operands → j ∈ kept

theorem selection_reachable (h : a.Sound P) {root : Operand} (hroot : a.Has root) :
    a.Selection (a.reachable root) := by
  refine ⟨pairwise_reachable a root, ?_, ?_⟩
  · intro i hi
    exact Mapping.lt_of_reaches h.ordered ((mem_reachable h hroot).mp hi) hroot
  · intro i hi g hg j hj
    rw [mem_reachable h hroot] at hi ⊢
    exact hi.trans (.step hg hj (.here j))

/-- The kept gates, reading the kept copies. -/
def compact (a : Arena) (kept : List Nat) : List MappedGate :=
  (kept.filterMap (a.gates[·]?)).map fun g => { g with operands := g.operands.map (renumber kept) }

theorem finish_eq (a : Arena) (root : Operand) :
    a.finish root =
      { gates := a.compact (a.reachable root), root := renumber (a.reachable root) root } := rfl

/-- Every listed gate is there. -/
theorem map_some_filterMap (h : ∀ i ∈ kept, i < a.gates.length) :
    (kept.filterMap (a.gates[·]?)).map some = kept.map (a.gates[·]?) := by
  induction kept with
  | nil => rfl
  | cons i is ih =>
    rw [List.forall_mem_cons] at h
    have hi := List.getElem?_eq_getElem h.1
    rw [List.filterMap_cons_some hi, List.map_cons, List.map_cons, ih h.2, hi]

theorem length_compact (h : a.Selection kept) : (a.compact kept).length = kept.length := by
  have := congrArg List.length (map_some_filterMap h.lt_length)
  rw [List.length_map, List.length_map] at this
  rw [compact, List.length_map, this]

/-- Each kept gate is copied to its place among the kept ones. -/
theorem getElem?_compact (h : a.Selection kept) (k : Nat) :
    (a.compact kept)[k]? = (kept[k]?.bind (a.gates[·]?)).map fun g =>
      { g with operands := g.operands.map (renumber kept) } := by
  have hsome := congrArg (·[k]?) (map_some_filterMap h.lt_length)
  simp only [List.getElem?_map] at hsome
  rw [compact, List.getElem?_map]
  cases hk : kept[k]? with
  | none =>
    rw [hk, Option.map_none, Option.map_eq_none_iff] at hsome
    rw [hsome]
    rfl
  | some i =>
    rw [hk] at hsome
    obtain ⟨g, hg, hsame⟩ := Option.map_eq_some_iff.mp hsome
    rw [hg, Option.bind_some]
    exact congrArg _ hsame

/-- The copy of a kept gate. -/
theorem getElem?_compact_idxOf (h : a.Selection kept) {i : Nat} (hi : i ∈ kept) {g : MappedGate}
    (hg : a.gates[i]? = some g) :
    (a.compact kept)[kept.idxOf i]? =
      some { g with operands := g.operands.map (renumber kept) } := by
  rw [getElem?_compact h, List.getElem?_idxOf hi, Option.bind_some, hg]
  rfl

/-- Copies stand in the order of their originals. -/
theorem Selection.idxOf_lt (h : a.Selection kept) {i j : Nat} (hi : i ∈ kept) (hj : j ∈ kept)
    (hij : i < j) : kept.idxOf i < kept.idxOf j := by
  have hi' := List.idxOf_lt_length_of_mem hi
  have hj' := List.idxOf_lt_length_of_mem hj
  -- the list ascends, so a copy that does not come before stands at a smaller index or the same
  by_contra hle
  rcases Nat.lt_or_eq_of_le (Nat.le_of_not_lt hle) with hlt | heq
  · have := List.pairwise_iff_getElem.mp h.ascending _ _ hj' hi' hlt
    rw [List.getElem_idxOf, List.getElem_idxOf] at this
    omega
  · have : kept[kept.idxOf j] = kept[kept.idxOf i] := by simp only [heq]
    rw [List.getElem_idxOf, List.getElem_idxOf] at this
    omega

theorem Selection.idxOf_getElem (h : a.Selection kept) {k : Nat} (hk : k < kept.length) :
    kept.idxOf kept[k] = k := by
  have hnodup : kept.Nodup := h.ascending.imp Nat.ne_of_lt
  exact List.Nodup.idxOf_getElem hnodup k hk

/-- Kept copies are in order. -/
theorem Selection.ordered (hs : a.Sound P) (h : a.Selection kept) :
    OrderedFrom 0 (a.compact kept) := by
  rw [Mapping.orderedFrom_iff]
  intro k g' hk y hy
  rw [Nat.zero_add]
  rw [getElem?_compact h] at hk
  obtain ⟨g, hg, rfl⟩ := Option.map_eq_some_iff.mp hk
  obtain ⟨i, hi, hg⟩ := Option.bind_eq_some_iff.mp hg
  obtain ⟨hlt, rfl⟩ := List.getElem?_eq_some_iff.mp hi
  obtain ⟨x, hx, rfl⟩ := List.mem_map.mp hy
  cases x with
  | var name => trivial
  | gate j =>
    have hmem := List.getElem_mem hlt
    have hjk := h.idxOf_lt (h.closed _ hmem g hg j hx) hmem (hs.ordered_iff hg _ hx)
    rwa [h.idxOf_getElem hlt] at hjk

/-- The copy of a gate has the expression of the gate. -/
theorem Selection.expr_renumber (hs : a.Sound P) (h : a.Selection kept) {x : Operand}
    (hx : ∀ i, x = .gate i → i ∈ kept) :
    Mapping.operandExpr (Mapping.gateExprs #[] (a.compact kept)) (renumber kept x) = a.expr x := by
  have hgate : ∀ i ∈ kept,
      Mapping.operandExpr (Mapping.gateExprs #[] (a.compact kept)) (renumber kept (.gate i)) =
        a.expr (.gate i) := by
    intro i
    -- a gate reads gates before it only, so the hypothesis covers its operands
    induction i using Nat.strongRecOn with
    | ind i ih =>
      intro hi
      have hg : a.gates[i]? = some _ := List.getElem?_eq_getElem (h.lt_length i hi)
      rw [renumber, Mapping.operandExpr_gate (h.ordered hs) (getElem?_compact_idxOf h hi hg),
        hs.expr_gate hg, List.map_map]
      congr 1
      refine List.map_congr_left fun y hy => ?_
      cases y with
      | var name => rfl
      | gate j => exact ih j (hs.ordered_iff hg _ hy) (h.closed i hi _ hg j hy)
  cases x with
  | var name => rfl
  | gate i => exact hgate i (hx i rfl)

/-- What an operand reaches, its copy reaches in copy. -/
theorem Selection.reaches (h : a.Selection kept) {x : Operand} {i : Nat}
    (hr : Reaches a.gates x i) (hx : ∀ j, x = .gate j → j ∈ kept) :
    Reaches (a.compact kept) (renumber kept x) (kept.idxOf i) := by
  induction hr with
  | here i => exact .here _
  | @step i j g x hg hmem _ ih =>
    have hj := hx j rfl
    refine .step (getElem?_compact_idxOf h hj hg) (List.mem_map_of_mem hmem) (ih ?_)
    rintro k rfl
    exact h.closed j hj g hg k hmem

/-! ## The finished circuit -/

theorem mem_reachable_root (h : a.Sound P) {root : Operand} (hroot : a.Has root) (i : Nat)
    (hi : root = .gate i) : i ∈ a.reachable root := by
  rw [mem_reachable h hroot, hi]
  exact .here i

/-- A finished circuit unfolds to the expression of its root. -/
theorem unfold_finish (h : a.Sound P) {root : Operand} (hroot : a.Has root) :
    (a.finish root).unfold = a.expr root := by
  rw [Mapping.unfold, finish_eq]
  exact (selection_reachable h hroot).expr_renumber h (mem_reachable_root h hroot)

/-- Every gate of a finished circuit copies a gate of the arena. -/
theorem exists_of_mem_finish {root : Operand} {g : MappedGate} (hg : g ∈ (a.finish root).gates) :
    ∃ k ∈ a.gates, g.gate = k.gate ∧ g.operands.length = k.operands.length := by
  rw [finish_eq] at hg
  obtain ⟨k, hk, rfl⟩ := List.mem_map.mp hg
  obtain ⟨i, -, hi⟩ := List.mem_filterMap.mp hk
  exact ⟨k, List.mem_of_getElem? hi, rfl, List.length_map _⟩

theorem finish_wellFormed (h : a.Sound P) (hP : ∀ g, P g → g.operands ≠ []) {root : Operand}
    (hroot : a.Has root) : (a.finish root).WellFormed := by
  have hsel := selection_reachable h hroot
  have hmem := mem_reachable_root h hroot
  rw [finish_eq]
  refine ⟨hsel.ordered h, ?_, ?_, ?_⟩
  · rw [length_compact hsel]
    cases root with
    | var name => trivial
    | gate i => exact List.idxOf_lt_length_of_mem (hmem i rfl)
  · intro k hk
    rw [length_compact hsel] at hk
    have hr := (mem_reachable h hroot).mp (List.getElem_mem hk)
    have := hsel.reaches hr hmem
    rwa [hsel.idxOf_getElem hk] at this
  · intro g hg
    obtain ⟨k, hk, -, hlen⟩ := exists_of_mem_finish hg
    have := List.length_pos_iff.mpr (hP k (h.gates k hk))
    exact List.length_pos_iff.mp (by omega)

end Arena

end LogicSchematic
