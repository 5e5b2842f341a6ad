import LogicSchematic.Proofs.Mapping.Arena
import LogicSchematic.Proofs.Synthesis.Circuit

/-!
# The size of circuits

How many gates synthesis adds to an arena at most: `Adds` bounds the success of one step, with a
condition that the arena meets afterwards, and there is one rule for each way steps are put together
and one lemma for each function.

Counting the gates of each identity by itself is not enough for parity. Where a conjunction is built
from inverters (`conjoin_adds_inverters`), the two conjunctions of a parity invert the same
operands, and the second time the inverters are found in the arena. So the bound of a conjunction
counts the inverters only that are not there yet (`inverterCost`), and `xorOf_adds` comes to nine
gates for every gate set.

An expression takes at most `Expr.gateBound` gates beside those that were there (`mapExpr_bounded`),
and dropping gates adds none, so this bounds the circuit (`length_gates_le`).
-/

namespace LogicSchematic

/-! ## The bound of an expression -/

namespace Expr

mutual

/-- The most gates a circuit for an expression has: `9 * (n - 1) + 2` for every operator with `n`
operands. -/
def gateBound : Expr → Nat
  | .var _ => 0
  | .op _ es => 9 * (es.length - 1) + 2 + gateBoundAll es

/-- The most gates circuits for several expressions have. -/
def gateBoundAll : List Expr → Nat
  | [] => 0
  | e :: es => gateBound e + gateBoundAll es

end

end Expr

namespace Arena

variable {a : Arena}

theorem Grows.mem {b : Arena} (h : a.Grows b) {g : MappedGate} (hg : g ∈ a.gates) : g ∈ b.gates :=
  h.subset hg

/-- Adding a gate adds it if it is not there yet. -/
theorem length_add (a : Arena) (g : MappedGate) :
    (a.add g).2.gates.length = a.gates.length + if g ∈ a.gates then 0 else 1 := by
  by_cases hmem : g ∈ a.gates
  · rw [add_of_mem hmem, if_pos hmem]
    rfl
  · rw [add_of_not_mem hmem, if_neg hmem, List.length_append, List.length_singleton]

theorem mem_add (a : Arena) (g : MappedGate) : g ∈ (a.add g).2.gates := by
  obtain ⟨i, -, hi⟩ := exists_index_add a g
  exact List.mem_of_getElem? hi

theorem length_needed_le (gs : List (MappedGate × Nat)) (wanted kept : List Nat) :
    (needed gs wanted kept).length ≤ gs.length + kept.length := by
  induction gs generalizing wanted kept with
  | nil => simp [needed]
  | cons p gs ih =>
    rw [needed]
    split
    · have := ih (reads p.1.operands ++ wanted) (p.2 :: kept)
      simp only [List.length_cons] at this ⊢
      omega
    · have := ih wanted kept
      simp only [List.length_cons]
      omega

/-- Dropping gates adds none. -/
theorem length_finish_le (a : Arena) (root : Operand) :
    (a.finish root).gates.length ≤ a.gates.length := by
  have hkept := length_needed_le a.gates.zipIdx.reverse (reads [root]) []
  rw [List.length_reverse, List.length_zipIdx, List.length_nil, Nat.add_zero] at hkept
  rw [finish_eq, compact, List.length_map]
  exact Nat.le_trans (List.length_filterMap_le _ _) hkept

end Arena

namespace Synthesizer

variable {s : Synthesizer} {α β : Type} {a : Arena} {x y : Operand} {k l d : Nat}
  {Q R : Arena → Prop}

/-- Whether every success of a step adds at most `k` gates to the arena and leaves one with `Q`. -/
def Adds (a : Arena) (k : Nat) (p : Build α) (Q : Arena → Prop) : Prop :=
  ∀ x b, p a = .ok (x, b) → a.Grows b ∧ b.gates.length ≤ a.gates.length + k ∧ Q b

/-- Whether an action adds at most `k` gates, to every arena and at every depth. -/
def Bounded (k : Nat) (p : Pending) : Prop := ∀ depth a, Adds a k (p depth) fun _ => True

/-- Whether actions add at most `k` gates together. -/
inductive BoundedAll : Nat → List Pending → Prop
  | nil : BoundedAll 0 []
  | cons {k l : Nat} {p : Pending} {ps : List Pending} (hp : Bounded k p) (hps : BoundedAll l ps) :
      BoundedAll (k + l) (p :: ps)

/-! ## Rules -/

theorem Adds.mono {p : Build α} (h : Adds a k p Q) (hk : k ≤ l) : Adds a l p Q := by
  intro x b hx
  obtain ⟨hgrows, hlen, hQ⟩ := h x b hx
  exact ⟨hgrows, by omega, hQ⟩

theorem Adds.weaken {p : Build α} (h : Adds a k p Q) (hR : ∀ b, a.Grows b → Q b → R b) :
    Adds a k p R := by
  intro x b hx
  obtain ⟨hgrows, hlen, hQ⟩ := h x b hx
  exact ⟨hgrows, hlen, hR b hgrows hQ⟩

theorem Adds.bind {p : Build α} {q : α → Build β} (hp : Adds a k p Q)
    (hq : ∀ x b, a.Grows b → Q b → Adds b l (q x) R) : Adds a (k + l) (p >>= q) R := by
  intro y c h
  obtain ⟨x, b, hx, hy⟩ := bind_run_eq_ok.mp h
  obtain ⟨hab, hlen, hQ⟩ := hp x b hx
  obtain ⟨hbc, hlen', hR⟩ := hq x b hab hQ y c hy
  exact ⟨hab.trans hbc, by omega, hR⟩

theorem adds_pure (x : α) (hQ : Q a) : Adds a 0 (pure x) Q := by
  intro y b h
  cases h
  exact ⟨Arena.Grows.refl a, Nat.le_refl _, hQ⟩

theorem adds_refuse (g : Gate) (k : Nat) : Adds a k (refuse g) Q := by
  intro x b h
  cases h

theorem Adds.checkDepth {p : Build α} (hp : Adds a k p Q) :
    Adds a k (do s.checkDepth d; p) Q := by
  have hcheck : Adds a 0 (s.checkDepth d) fun b => b = a := by
    intro u b h
    rw [Synthesizer.checkDepth] at h
    split at h
    next => cases h
    next =>
      cases h
      exact ⟨Arena.Grows.refl a, Nat.le_refl _, rfl⟩
  rw [← Nat.zero_add k]
  refine hcheck.bind ?_
  rintro u b - rfl
  exact hp

/-- A gate costs one gate, or none if it is there. -/
theorem adds_add (a : Arena) (g : Gate) (xs : List Operand) :
    Adds a (if ⟨g, xs⟩ ∈ a.gates then 0 else 1) (add g xs) fun b => ⟨g, xs⟩ ∈ b.gates := by
  intro y b h
  have hadd : a.add ⟨g, xs⟩ = (y, b) := Except.ok.inj h
  have hgrows := a.grows_add ⟨g, xs⟩
  have hlen := a.length_add ⟨g, xs⟩
  have hmem := a.mem_add ⟨g, xs⟩
  rw [hadd] at hgrows hlen hmem
  exact ⟨hgrows, Nat.le_of_eq hlen, hmem⟩

theorem adds_add_one (g : Gate) (xs : List Operand) : Adds a 1 (add g xs) fun _ => True := by
  refine ((adds_add a g xs).mono ?_).weaken fun _ _ _ => trivial
  split <;> omega

/-- A gate that is not allowed costs what its replacement costs. -/
theorem addOr_adds_of_not_allows {g : Gate} {xs : List Operand} {replacement : Build Operand}
    (hg : s.allows g = false) (hr : Adds a k replacement Q) :
    Adds a k (s.addOr g xs d replacement) Q := by
  rw [addOr, if_neg (by simp [hg])]
  exact Adds.checkDepth fun x b h => hr x b (Except.mapError_eq_ok_iff.mp h)

theorem addOr_adds {g : Gate} {xs : List Operand} {replacement : Build Operand} (hk : 1 ≤ k)
    (hr : s.allows g = false → Adds a k replacement fun _ => True) :
    Adds a k (s.addOr g xs d replacement) fun _ => True := by
  by_cases hg : s.allows g = true
  · rw [addOr, if_pos hg]
    exact (adds_add_one g xs).mono hk
  · have hg : s.allows g = false := by simpa using hg
    exact addOr_adds_of_not_allows hg (hr hg)

/-! ## Inverters -/

/-- The gate an operand is inverted with. -/
def inverterOf (s : Synthesizer) (x : Operand) : MappedGate :=
  if s.allows .not then ⟨.not, [x]⟩
  else if s.allows .nand then ⟨.nand, [x, x]⟩
  else if s.allows .nand4 then ⟨.nand4, [x, x, x, x]⟩
  else ⟨.nor, [x, x]⟩

/-- What it costs to invert an operand: nothing if it was inverted before. -/
def inverterCost (s : Synthesizer) (a : Arena) (x : Operand) : Nat :=
  if s.inverterOf x ∈ a.gates then 0 else 1

theorem inverterCost_le (s : Synthesizer) (a : Arena) (x : Operand) : s.inverterCost a x ≤ 1 := by
  unfold inverterCost
  split <;> omega

theorem inverterCost_of_mem (h : s.inverterOf x ∈ a.gates) : s.inverterCost a x = 0 :=
  if_pos h

theorem invert_adds (a : Arena) (x : Operand) (d : Nat) :
    Adds a (s.inverterCost a x) (s.invert x d) fun b => s.inverterOf x ∈ b.gates := by
  unfold invert inverterCost inverterOf
  by_cases hnot : s.allows .not = true
  · rw [addOr, if_pos hnot, if_pos hnot]
    exact adds_add a .not [x]
  refine addOr_adds_of_not_allows (by simpa using hnot) ?_
  rw [if_neg hnot]
  by_cases hnand : s.allows .nand = true
  · rw [if_pos hnand, if_pos hnand]
    exact adds_add a .nand [x, x]
  rw [if_neg hnand, if_neg hnand]
  by_cases hnand4 : s.allows .nand4 = true
  · rw [if_pos hnand4, if_pos hnand4]
    exact adds_add a .nand4 [x, x, x, x]
  rw [if_neg hnand4, if_neg hnand4]
  by_cases hnor : s.allows .nor = true
  · rw [if_pos hnor]
    exact adds_add a .nor [x, x]
  · rw [if_neg hnor]
    exact adds_refuse _ _

theorem invert_adds_one (x : Operand) (d : Nat) : Adds a 1 (s.invert x d) fun _ => True :=
  ((invert_adds a x d).mono (s.inverterCost_le a x)).weaken fun _ _ _ => trivial

/-- What is made is then inverted. -/
theorem invert_after_adds {p : Build Operand} (hp : Adds a k p Q) :
    Adds a (k + 1) (do s.invert (← p) d) fun _ => True :=
  hp.bind fun x _ _ _ => invert_adds_one x d

/-- Two operands are inverted before they are used; both inverters are there afterwards. -/
theorem invert_two_adds {q : Operand → Operand → Build Operand}
    (hq : ∀ nx ny b, Adds b k (q nx ny) fun _ => True) :
    Adds a (s.inverterCost a x + s.inverterCost a y + k)
      (do q (← s.invert x d) (← s.invert y d))
      fun b => s.inverterOf x ∈ b.gates ∧ s.inverterOf y ∈ b.gates := by
  rw [Nat.add_assoc]
  refine (invert_adds a x d).bind fun nx b hab hx => ?_
  have hy : s.inverterCost b y ≤ s.inverterCost a y := by
    by_cases hmem : s.inverterOf y ∈ a.gates
    · rw [inverterCost_of_mem (hab.mem hmem)]
      exact Nat.zero_le _
    · have hone : s.inverterCost a y = 1 := if_neg hmem
      exact hone ▸ s.inverterCost_le b y
  refine (((invert_adds b y d).mono hy).bind fun ny c hbc hy => ?_)
  exact (hq nx ny c).weaken fun e hce _ => ⟨hce.mem (hbc.mem hx), hce.mem hy⟩

/-! ## Gates over mapped operands -/

/-- What a conjunction of two operands costs. Without any of these gates there is none. -/
def conjoinCost (s : Synthesizer) : Nat :=
  if s.allows .and then 1
  else if s.allows .nand then 2
  else if s.allows .nor then 3
  else if s.allows .nand4 then 2
  else if s.allows .or then 4
  else 1

/-- What a disjunction of two operands costs. Without any of these gates there is none. -/
def disjoinCost (s : Synthesizer) : Nat :=
  if s.allows .or then 1
  else if s.allows .nor then 2
  else if s.allows .nand then 3
  else if s.allows .nand4 then 3
  else if s.allows .and then 4
  else 1

theorem conjoinCost_le (s : Synthesizer) : s.conjoinCost ≤ 4 := by
  unfold conjoinCost
  split_ifs <;> omega

theorem disjoinCost_le (s : Synthesizer) : s.disjoinCost ≤ 4 := by
  unfold disjoinCost
  split_ifs <;> omega

/-- A conjunction is expensive when it is built from inverters. -/
theorem of_two_lt_conjoinCost (h : 2 < s.conjoinCost) :
    s.allows .and = false ∧ s.allows .nand = false ∧
      (s.allows .nor = true ∧ s.conjoinCost = 3 ∨
        s.allows .nor = false ∧ s.allows .nand4 = false ∧ s.allows .or = true ∧
          s.conjoinCost = 4) := by
  unfold conjoinCost at h ⊢
  cases hand : s.allows .and <;> cases hnand : s.allows .nand <;> cases hnor : s.allows .nor <;>
    cases hnand4 : s.allows .nand4 <;> cases hor : s.allows .or <;> simp_all

/-- An expensive conjunction is built from the inverses of its operands. Beside the inverters it
costs two gates less. -/
theorem conjoin_adds_inverters (h : 2 < s.conjoinCost) (a : Arena) (x y : Operand) (d : Nat) :
    Adds a (s.inverterCost a x + s.inverterCost a y + (s.conjoinCost - 2)) (s.conjoin x y d)
      fun b => s.inverterOf x ∈ b.gates ∧ s.inverterOf y ∈ b.gates := by
  obtain ⟨hand, hnand, hrest⟩ := of_two_lt_conjoinCost h
  refine addOr_adds_of_not_allows hand ?_
  rw [if_neg (by simp [hnand])]
  obtain ⟨hnor, hcost⟩ | ⟨hnor, hnand4, hor, hcost⟩ := hrest
  · rw [hcost, if_pos hnor]
    exact invert_two_adds fun nx ny b => adds_add_one .nor [nx, ny]
  · rw [hcost, if_neg (by simp [hnor]), if_neg (by simp [hnand4]), if_pos hor]
    exact invert_two_adds fun nx ny b => invert_after_adds (adds_add_one .or [nx, ny])

theorem conjoin_adds (a : Arena) (x y : Operand) (d : Nat) :
    Adds a s.conjoinCost (s.conjoin x y d) fun _ => True := by
  by_cases h : 2 < s.conjoinCost
  · refine ((conjoin_adds_inverters h a x y d).mono ?_).weaken fun _ _ _ => trivial
    have := s.inverterCost_le a x
    have := s.inverterCost_le a y
    omega
  · unfold conjoinCost at h ⊢
    unfold conjoin
    refine addOr_adds (by split_ifs <;> omega) fun hand => ?_
    rw [if_neg (by simp [hand])] at h ⊢
    split
    next => exact invert_after_adds (adds_add_one .nand [x, y])
    next hnand =>
    rw [if_neg hnand] at h
    split
    next hnor =>
      rw [if_pos hnor] at h
      omega
    next hnor =>
    rw [if_neg hnor] at h
    split
    next => exact invert_after_adds (adds_add_one .nand4 [x, y, x, y])
    next hnand4 =>
    rw [if_neg hnand4] at h
    split
    next hor =>
      rw [if_pos hor] at h
      omega
    next => exact adds_refuse _ _

theorem disjoin_adds (a : Arena) (x y : Operand) (d : Nat) :
    Adds a s.disjoinCost (s.disjoin x y d) fun _ => True := by
  have hinv : ∀ {k : Nat} {q : Operand → Operand → Build Operand},
      (∀ nx ny b, Adds b k (q nx ny) fun _ => True) →
      Adds a (2 + k) (do q (← s.invert x (d + 1)) (← s.invert y (d + 1))) fun _ => True := by
    intro k q hq
    refine ((invert_two_adds hq).mono ?_).weaken fun _ _ _ => trivial
    have := s.inverterCost_le a x
    have := s.inverterCost_le a y
    omega
  unfold disjoinCost disjoin
  refine addOr_adds (by split_ifs <;> omega) fun hor => ?_
  rw [if_neg (by simp [hor])]
  split
  next => exact invert_after_adds (adds_add_one .nor [x, y])
  split
  next => exact hinv fun nx ny b => adds_add_one .nand [nx, ny]
  split
  next => exact hinv fun nx ny b => adds_add_one .nand4 [nx, ny, nx, ny]
  split
  next => exact hinv fun nx ny b => invert_after_adds (adds_add_one .and [nx, ny])
  next => exact adds_refuse _ _

theorem nandOf_adds (a : Arena) (x y : Operand) (d : Nat) :
    Adds a 5 (s.nandOf x y d) fun _ => True := by
  unfold nandOf
  refine addOr_adds (by omega) fun _ => ?_
  split
  next => exact (invert_after_adds (adds_add_one .and [x, y])).mono (by omega)
  split
  next => exact (adds_add_one .nand4 [x, y, x, y]).mono (by omega)
  next =>
    have := s.conjoinCost_le
    exact (invert_after_adds (conjoin_adds a x y (d + 1))).mono (by omega)

theorem norOf_adds (a : Arena) (x y : Operand) (d : Nat) :
    Adds a 5 (s.norOf x y d) fun _ => True := by
  unfold norOf
  refine addOr_adds (by omega) fun _ => ?_
  have := s.disjoinCost_le
  exact (invert_after_adds (disjoin_adds a x y (d + 1))).mono (by omega)

/-- A parity costs nine gates at most: either conjunctions are cheap, or they share their inverters
and disjunctions are cheap. -/
theorem xorOf_adds (a : Arena) (x y : Operand) (d : Nat) :
    Adds a 9 (s.xorOf x y d) fun _ => True := by
  unfold xorOf
  refine addOr_adds (by omega) fun _ => ?_
  by_cases hcheap : s.conjoinCost ≤ 2
  · have hcost : 2 * s.conjoinCost + s.disjoinCost ≤ 7 := by
      revert hcheap
      unfold conjoinCost disjoinCost
      split_ifs <;> omega
    refine Adds.mono (k := 1 + (s.conjoinCost + (1 + (s.conjoinCost + s.disjoinCost)))) ?_ (by omega)
    refine (invert_adds_one y _).bind fun ny b _ _ => ?_
    refine (conjoin_adds b x ny _).bind fun left c _ _ => ?_
    refine (invert_adds_one x _).bind fun nx c₁ _ _ => ?_
    exact (conjoin_adds c₁ nx y _).bind fun right c₂ _ _ => disjoin_adds c₂ left right _
  · have hcost : 2 * s.conjoinCost + s.disjoinCost ≤ 9 := by
      revert hcheap
      unfold conjoinCost disjoinCost
      split_ifs <;> omega
    have hinv : 2 < s.conjoinCost := by omega
    refine Adds.mono
      (k := 1 + (s.conjoinCost + (0 + (s.conjoinCost - 1 + s.disjoinCost)))) ?_ (by omega)
    refine ((invert_adds a y _).mono (s.inverterCost_le a y)).bind fun ny b _ hy => ?_
    have hleft : s.inverterCost b x + s.inverterCost b ny + (s.conjoinCost - 2) ≤
        s.conjoinCost := by
      have := s.inverterCost_le b x
      have := s.inverterCost_le b ny
      omega
    refine ((conjoin_adds_inverters hinv b x ny _).mono hleft).bind fun left c hbc hx => ?_
    -- the first operand was inverted for the conjunction on the left
    refine ((invert_adds c x _).mono (Nat.le_of_eq (inverterCost_of_mem hx.1))).bind
      fun nx c₁ hcc _ => ?_
    have hright : s.inverterCost c₁ nx + s.inverterCost c₁ y + (s.conjoinCost - 2) ≤
        s.conjoinCost - 1 := by
      have := s.inverterCost_le c₁ nx
      have := inverterCost_of_mem (hcc.mem (hbc.mem hy))
      omega
    refine ((conjoin_adds_inverters hinv c₁ nx y _).mono hright).bind fun right c₂ _ _ => ?_
    exact disjoin_adds c₂ left right _

theorem xnorOf_adds (a : Arena) (x y : Operand) (d : Nat) :
    Adds a 10 (s.xnorOf x y d) fun _ => True := by
  unfold xnorOf
  refine addOr_adds (by omega) fun _ => ?_
  exact invert_after_adds (xorOf_adds a x y (d + 1))

/-- What a gate over mapped operands costs. -/
def buildCost : Gate → Nat → Nat
  | .and, 2 | .or, 2 => 4
  | .nand, 2 | .nor, 2 => 5
  | .xor, 2 => 9
  | .xnor, 2 => 10
  | _, _ => 1

theorem one_le_buildCost (g : Gate) (n : Nat) : 1 ≤ buildCost g n := by
  unfold buildCost
  split <;> omega

theorem buildCost_two_le {g : Gate} (hg : g ≠ .xnor) : buildCost g 2 ≤ 9 := by
  cases g <;> first | decide | exact absurd rfl hg

theorem buildCost_le (g : Gate) (n : Nat) : buildCost g n ≤ 9 * (n - 1) + 1 := by
  unfold buildCost
  split <;> omega

theorem build_adds (a : Arena) (g : Gate) (xs : List Operand) (d : Nat) :
    Adds a (buildCost g xs.length) (s.build g xs d) fun _ => True := by
  unfold build
  split
  · exact invert_adds_one _ d
  · exact (conjoin_adds a _ _ d).mono s.conjoinCost_le
  · exact (disjoin_adds a _ _ d).mono s.disjoinCost_le
  · exact nandOf_adds a _ _ d
  · exact norOf_adds a _ _ d
  · exact xorOf_adds a _ _ d
  · exact xnorOf_adds a _ _ d
  · exact addOr_adds (one_le_buildCost _ _) fun _ => adds_refuse _ _

/-! ## Gates over pending operands -/

variable {p : Pending} {ps : List Pending} {g : Gate}

theorem Bounded.mono (h : Bounded k p) (hk : k ≤ l) : Bounded l p :=
  fun d a => (h d a).mono hk

theorem Bounded.checkDepth (h : Bounded k p) :
    Bounded k fun depth => (do s.checkDepth depth; p (depth + 1)) :=
  fun d a => (h (d + 1) a).checkDepth

theorem BoundedAll.concat (hps : BoundedAll k ps) (hp : Bounded l p) :
    BoundedAll (l + k) (ps ++ [p]) := by
  induction hps with
  | nil => exact .cons hp .nil
  | cons hq _ ih =>
    rw [Nat.add_left_comm]
    exact .cons hq ih

theorem BoundedAll.reverse (h : BoundedAll k ps) : BoundedAll k ps.reverse := by
  induction h with
  | nil => exact .nil
  | cons hp _ ih =>
    rw [List.reverse_cons]
    exact ih.concat hp

/-- Operands are mapped one after another, and then used. -/
theorem mapM_bind_adds {q : List Operand → Build α} (hps : BoundedAll k ps)
    (hq : ∀ xs b, xs.length = ps.length → Adds b l (q xs) Q) :
    Adds a (k + l) (ps.mapM (· d) >>= q) Q := by
  induction hps generalizing a q with
  | nil =>
    rw [List.mapM_nil, pure_bind, Nat.zero_add]
    exact hq [] a rfl
  | cons hp _ ih =>
    simp only [List.mapM_cons, bind_assoc, pure_bind]
    rw [Nat.add_assoc]
    exact (hp d a).bind fun x b _ _ => ih fun xs c hxs => hq (x :: xs) c (congrArg (· + 1) hxs)

theorem direct_bounded (g : Gate) (h : BoundedAll k ps) :
    Bounded (k + buildCost g ps.length) (s.direct g ps) := by
  intro d a
  refine Adds.checkDepth (mapM_bind_adds h fun xs b hxs => ?_)
  rw [← hxs]
  exact build_adds b g xs (d + 1)

theorem complement_bounded (h : Bounded k p) : Bounded (k + 1) (s.complement p) :=
  (direct_bounded .not (.cons h .nil)).checkDepth

/-- Every link of a chain costs what a gate over two operands costs. -/
theorem chain_bounded (hg : g ≠ .xnor) (h : BoundedAll k ps) :
    Bounded (k + 9 * (ps.length - 1)) (s.chain g ps) := by
  induction h with
  | nil => exact fun d a => adds_refuse g _
  | cons hx hbefore ih =>
    cases hbefore with
    | nil => exact hx
    | cons _ _ =>
      intro d a
      have hlink : ∀ left right b, Adds b 9 (s.build g [left, right] (d + 1)) fun _ => True :=
        fun left right b => (build_adds b g [left, right] _).mono (buildCost_two_le hg)
      refine Adds.checkDepth (Adds.mono ((ih (d + 1) a).bind fun left b _ _ =>
        (hx (d + 1) b).bind fun right c _ _ => hlink left right c) ?_)
      simp only [List.length_cons]
      omega

theorem invertedNand4_bounded (h : BoundedAll k ps) : Bounded (k + 2) (s.invertedNand4 ps) := by
  intro d a
  refine Adds.checkDepth (mapM_bind_adds h fun xs b _ => ?_)
  exact (adds_add_one .nand4 _).bind fun z c _ _ => adds_add_one .not [z]

theorem associative_bounded (hg : g ≠ .xnor) (h : BoundedAll k ps) :
    Bounded (k + (9 * (ps.length - 1) + 1)) (s.associative g ps) := by
  have hdirect := (direct_bounded (s := s) g h).mono (Nat.add_le_add_left (buildCost_le g _) k)
  unfold associative
  split
  next x =>
    split
    next => exact hdirect
    next =>
      cases h with
      | cons hx hnil =>
        cases hnil
        exact hx.checkDepth.mono (by omega)
  next =>
    split
    next => exact hdirect
    next htwo =>
    split
    next => exact (invertedNand4_bounded h).mono (by omega)
    next =>
      have hchain := chain_bounded (s := s) hg h.reverse
      rw [List.length_reverse] at hchain
      exact hchain.mono (by omega)

theorem complemented_bounded {base : Gate} (hbase : base ≠ .xnor) (h : BoundedAll k ps) :
    Bounded (k + (9 * (ps.length - 1) + 2)) (s.complemented g base ps) := by
  have hdirect := (direct_bounded (s := s) g h).mono (Nat.add_le_add_left (buildCost_le g _) k)
  unfold complemented
  split
  next x =>
    split
    next => exact hdirect.mono (by omega)
    next =>
      cases h with
      | cons hx hnil =>
        cases hnil
        exact (complement_bounded hx).mono (by omega)
  next =>
    split
    next => exact hdirect.mono (by omega)
    next => exact complement_bounded (associative_bounded hbase h)

theorem wideNand_bounded (h : BoundedAll k ps) :
    Bounded (k + (9 * (ps.length - 1) + 2)) (s.wideNand ps) := by
  unfold wideNand
  split
  next =>
    intro d a
    refine Adds.checkDepth (mapM_bind_adds h fun xs b _ => ?_)
    exact (adds_add_one .nand4 _).mono (by omega)
  next => exact complement_bounded (associative_bounded (by decide) h)

theorem inverter_bounded (h : BoundedAll k ps) :
    Bounded (k + (9 * (ps.length - 1) + 2)) (s.inverter ps) := by
  unfold inverter
  split
  next =>
    have := buildCost_le .not ps.length
    exact (direct_bounded .not h).mono (by omega)
  next => exact fun d a => (adds_refuse .not _).checkDepth

/-- Mapping a gate over `n` operands costs `9 * (n - 1) + 2` gates beside those of its operands. -/
theorem mapGate_bounded (g : Gate) (h : BoundedAll k ps) :
    Bounded (k + (9 * (ps.length - 1) + 2)) (s.mapGate g ps) := by
  cases g with
  | not => exact inverter_bounded h
  | nand4 => exact wideNand_bounded h
  | nand => exact complemented_bounded (by decide) h
  | nor => exact complemented_bounded (by decide) h
  | xnor => exact complemented_bounded (by decide) h
  | and => exact (associative_bounded (by decide) h).mono (by omega)
  | or => exact (associative_bounded (by decide) h).mono (by omega)
  | xor => exact (associative_bounded (by decide) h).mono (by omega)

/-! ## Expressions -/

theorem mapExpr_bounded (e : Expr) : Bounded e.gateBound (s.mapExpr e) := by
  induction e with
  | var name => exact fun d a => (adds_pure (Operand.var name) trivial).checkDepth
  | op o es ih =>
    cases o with
    | call name =>
      intro d a
      refine Adds.checkDepth ?_
      intro x b h
      cases h
    | gate g =>
      have hoperands : BoundedAll (Expr.gateBoundAll es) (es.map s.mapExpr) := by
        clear g
        induction es with
        | nil => exact .nil
        | cons e es ihes =>
          rw [List.forall_mem_cons] at ih
          exact .cons ih.1 (ihes ih.2)
      have hgate := mapGate_bounded (s := s) g hoperands
      rw [List.length_map, ← mapAll_eq_map] at hgate
      exact hgate.mono (by rw [Expr.gateBound]; omega)

variable {e : Expr} {m : Mapping}

/-- A bound on the gates that mapping adds bounds the circuit. -/
theorem length_gates_le_of_bounded (h : s.synthesize e = .ok m) (hbound : Bounded k (s.mapExpr e)) :
    m.gates.length ≤ k := by
  obtain ⟨root, a, hrun, rfl⟩ := exists_run h
  obtain ⟨-, hlen, -⟩ := hbound 0 Arena.empty root a hrun
  refine Nat.le_trans (a.length_finish_le root) ?_
  rwa [show Arena.empty.gates.length = 0 from rfl, Nat.zero_add] at hlen

/-- Circuits are of linear size: one of an expression has at most `9 * (n - 1) + 2` gates for every
operator with `n` operands. Of two variables, a parity takes at most nine gates, and a conjunction
at most four. -/
theorem length_gates_le (h : s.synthesize e = .ok m) :
    m.gates.length ≤ e.gateBound ∧
      (∀ x y, e = .gate .xor [.var x, .var y] → m.gates.length ≤ 9) ∧
      ∀ x y, e = .gate .and [.var x, .var y] → m.gates.length ≤ 4 := by
  have hvariables : ∀ x y, BoundedAll 0 [s.mapExpr (.var x), s.mapExpr (.var y)] :=
    fun x y => .cons (mapExpr_bounded (.var x)) (.cons (mapExpr_bounded (.var y)) .nil)
  refine ⟨length_gates_le_of_bounded h (mapExpr_bounded e), ?_, ?_⟩
  · rintro x y rfl
    have hbound := length_gates_le_of_bounded h (direct_bounded .xor (hvariables x y))
    rwa [Nat.zero_add] at hbound
  · rintro x y rfl
    have hbound := length_gates_le_of_bounded h (direct_bounded .and (hvariables x y))
    rwa [Nat.zero_add] at hbound

/-- Over inverted disjunctions alone, the parity of two variables. -/
theorem length_gates_le_xor_of_nor :
    ∃ m, (Synthesizer.mk (.ofList [.nor]) 30).synthesize (.gate .xor [.var "A", .var "B"]) = .ok m ∧
      m.gates.length ≤ (Expr.gate .xor [.var "A", .var "B"]).gateBound ∧ m.gates.length ≤ 9 := by
  obtain ⟨m, hm⟩ : ∃ m, (Synthesizer.mk (.ofList [.nor]) 30).synthesize
      (.gate .xor [.var "A", .var "B"]) = .ok m := ⟨_, rfl⟩
  obtain ⟨hlinear, hxor, -⟩ := length_gates_le hm
  exact ⟨m, hm, hlinear, hxor "A" "B" rfl⟩

end Synthesizer

end LogicSchematic
