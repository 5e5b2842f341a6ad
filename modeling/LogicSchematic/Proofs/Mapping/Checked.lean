import LogicSchematic.Proofs.Mapping.Finish

/-!
# Finishing a circuit with checks

`finish` looks gates up by their indices. `finish?` does the same and gives nothing at the first
index that belongs to no gate. In an arena whose gates read gates before them, and from a root that
is there, there is no such index: `Sound.finish?_eq`.
-/

namespace LogicSchematic

namespace Arena

/-- `needed`, which gives nothing when a needed gate reads one that is not among the first `n`. -/
def needed? (n : Nat) : List (MappedGate × Nat) → (wanted kept : List Nat) → Option (List Nat)
  | [], _, kept => some kept
  | (g, index) :: before, wanted, kept =>
    if index ∈ wanted then
      if ∀ j ∈ reads g.operands, j < n then
        needed? n before (reads g.operands ++ wanted) (index :: kept)
      else none
    else needed? n before wanted kept

/-- `renumber`, which gives nothing for a gate that is not among the first `n`. -/
def renumber? (n : Nat) (kept : List Nat) : Operand → Option Operand
  | .var name => some (.var name)
  | .gate index => if index < n then some (.gate (kept.idxOf index)) else none

/-- `finish`, which gives nothing when an index belongs to no gate. -/
def finish? (a : Arena) (root : Operand) : Option Mapping := do
  let n := a.gates.length
  guard (∀ j ∈ reads [root], j < n)
  let kept ← needed? n a.gates.zipIdx.reverse (reads [root]) []
  let gates ← (kept.filterMap (a.gates[·]?)).mapM fun g => do
    return { g with operands := ← g.operands.mapM (renumber? n kept) }
  return ⟨gates, ← renumber? n kept root⟩

variable {P : MappedGate → Prop} {a : Arena} {n : Nat}

theorem needed?_eq {gs : List (MappedGate × Nat)} (h : ∀ p ∈ gs, ∀ j ∈ reads p.1.operands, j < n)
    (wanted kept : List Nat) : needed? n gs wanted kept = some (needed gs wanted kept) := by
  induction gs generalizing wanted kept with
  | nil => rfl
  | cons p gs ih =>
    rw [List.forall_mem_cons] at h
    rw [needed?, needed, if_pos h.1]
    split
    next => exact ih h.2 _ _
    next => exact ih h.2 _ _

theorem renumber?_eq {x : Operand} (hx : x.Below n) (kept : List Nat) :
    renumber? n kept x = some (renumber kept x) := by
  cases x with
  | var name => rfl
  | gate index => exact if_pos hx

/-- In a sound arena all indices belong to gates. -/
theorem Sound.finish?_eq (h : a.Sound P) {root : Operand} (hroot : a.Has root) :
    a.finish? root = some (a.finish root) := by
  have hbelow : ∀ g ∈ a.gates, ∀ x ∈ g.operands, a.Has x := by
    intro g hg x hx
    obtain ⟨i, hi⟩ := List.getElem?_of_mem hg
    have hlt := (List.getElem?_eq_some_iff.mp hi).1
    exact ((h.ordered_iff hi) x hx).mono (Nat.le_of_lt hlt)
  have hneeded : needed? a.gates.length a.gates.zipIdx.reverse (reads [root]) [] =
      some (a.reachable root) := by
    refine needed?_eq (fun p hp => ?_) _ _
    have hmem : p.1 ∈ a.gates := List.fst_mem_of_mem_zipIdx (List.mem_reverse.mp hp)
    exact lt_of_mem_reads (hbelow p.1 hmem)
  have hgates : ((a.reachable root).filterMap (a.gates[·]?)).mapM (fun g => do
      return { g with
        operands := ← g.operands.mapM (renumber? a.gates.length (a.reachable root)) }) =
      some (a.compact (a.reachable root)) := by
    refine Option.mapM_eq_some_map fun g hg => ?_
    obtain ⟨i, -, hi⟩ := List.mem_filterMap.mp hg
    have hoperands := Option.mapM_eq_some_map fun x hx =>
      renumber?_eq (hbelow g (List.mem_of_getElem? hi) x hx) (a.reachable root)
    rw [hoperands]
    rfl
  have hguard : ∀ j ∈ reads [root], j < a.gates.length :=
    lt_of_mem_reads (List.forall_mem_singleton.mpr hroot)
  rw [finish?, guard, if_pos hguard]
  simp only [Option.pure_def, Option.bind_eq_bind, Option.bind_some] at hgates ⊢
  rw [hneeded, Option.bind_some, hgates, Option.bind_some, renumber?_eq hroot]
  rfl

end Arena

end LogicSchematic
