import LogicSchematic.Proofs.Except
import Mathlib.Data.List.Basic
import Mathlib.Tactic.Tauto
import LogicSchematic.Synthesis

/-!
# The depth limit and the outcome

What a step of synthesis comes to depends on the depth limit in one way only: below some limit it is
that the limit is exceeded, and from there on it is always the same (`cutOff`). `Settles k c p` says
this of the step `p`, with the limit bounded by `k`, and that it is the condition `c` on the allowed
gates that decides between success and failure; neither the bound nor the condition depends on the
arena.

There is one rule for each way steps are put together (`Settles.bind`, `addOr_settles`, …), and then
one lemma for each function that builds a gate over mapped operands. Their conditions are
`GateSet.Inverts`, `GateSet.Conjoins`, `GateSet.Disjoins` and, for all gates, `GateSet.Builds`.
-/

namespace LogicSchematic

namespace GateSet

variable (s : GateSet)

/-- Whether inverters can be built. -/
def Inverts : Prop :=
  s.contains .not ∨ s.contains .nand ∨ s.contains .nand4 ∨ s.contains .nor

/-- Whether conjunctions of two operands can be built. -/
def Conjoins : Prop :=
  s.contains .and ∨ s.contains .nand ∨ s.contains .nor ∨ s.contains .nand4 ∨
    s.contains .or ∧ s.Inverts

/-- Whether disjunctions of two operands can be built. -/
def Disjoins : Prop :=
  s.contains .or ∨ s.contains .nor ∨ s.contains .nand ∨ s.contains .nand4 ∨
    s.contains .and ∧ s.Inverts

/-- Whether a gate can be built over `n` operands that are mapped. -/
def Builds : Gate → Nat → Prop
  | .not, 1 => s.Inverts
  | .and, 2 => s.Conjoins
  | .or, 2 => s.Disjoins
  | .nand, 2 => s.contains .nand ∨ s.contains .nand4 ∨ s.Conjoins ∧ s.Inverts
  | .nor, 2 => s.contains .nor ∨ s.Disjoins ∧ s.Inverts
  | .xor, 2 => s.contains .xor ∨ s.Inverts ∧ s.Conjoins ∧ s.Disjoins
  | .xnor, 2 => s.contains .xnor ∨
      (s.contains .xor ∨ s.Inverts ∧ s.Conjoins ∧ s.Disjoins) ∧ s.Inverts
  | g, _ => s.contains g

end GateSet

namespace Synthesizer

variable {s : GateSet} {α β : Type} {k k' d : Nat} {c c' : Prop} {x y : Operand}

/-- Up to the limit `D` the depth is exceeded, from there on the outcome is `r`, whose error names
what cannot be built. -/
def cutOff (D : Nat) (r : Except String α) (M : Nat) : Except SynthesisError α :=
  if M < D then .error (.depthExceeded M) else r.mapError .ungeneratable

/-- Whether a step, given for each depth limit, is cut off at a limit of at most `k`, and succeeds
beyond it exactly under the condition `c`, whatever the arena. -/
def Settles (k : Nat) (c : Prop) (p : Nat → Build α) : Prop :=
  ∀ a, ∃ D r, D ≤ k ∧ (∀ M, p M a = cutOff D r M) ∧ ((∃ v, r = .ok v) ↔ c)

/-! ## Rules -/

theorem Settles.mono {p : Nat → Build α} (h : Settles k c p) (hk : k ≤ k') : Settles k' c p := by
  intro a
  obtain ⟨D, r, hD, hp, hc⟩ := h a
  exact ⟨D, r, Nat.le_trans hD hk, hp, hc⟩

theorem Settles.iff {p : Nat → Build α} (h : Settles k c p) (hc : c ↔ c') : Settles k c' p := by
  intro a
  obtain ⟨D, r, hD, hp, hr⟩ := h a
  exact ⟨D, r, hD, hp, hr.trans hc⟩

theorem settles_pure (k : Nat) (v : α) : Settles k True fun _ => pure v := by
  intro a
  refine ⟨0, .ok (v, a), Nat.zero_le k, fun M => rfl, ?_⟩
  exact iff_true_intro ⟨_, rfl⟩

theorem settles_add (k : Nat) (g : Gate) (xs : List Operand) :
    Settles k True fun _ => add g xs := by
  intro a
  refine ⟨0, .ok (a.add ⟨g, xs⟩), Nat.zero_le k, fun M => rfl, ?_⟩
  exact iff_true_intro ⟨_, rfl⟩

theorem settles_throw (k : Nat) (name : String) :
    Settles k False fun _ => (throw (.ungeneratable name) : Build α) := by
  intro a
  refine ⟨0, .error name, Nat.zero_le k, fun M => rfl, ?_⟩
  exact iff_false_intro fun ⟨_, h⟩ => nomatch h

theorem settles_refuse (k : Nat) (g : Gate) : Settles k False fun _ => refuse g :=
  settles_throw k g.name

/-- One step after another: both must settle, and both must succeed. -/
theorem Settles.bind {p : Nat → Build α} {q : Nat → α → Build β} (hp : Settles k c p)
    (hq : ∀ x, Settles k c' fun M => q M x) : Settles k (c ∧ c') fun M => p M >>= q M := by
  intro a
  obtain ⟨D, r, hD, hp, hc⟩ := hp a
  have hrun : ∀ M, (p M >>= q M) a = (cutOff D r M >>= fun r => q M r.1 r.2) := by
    intro M
    rw [← hp M]
    rfl
  cases r with
  | error name =>
    -- the first step never succeeds, so the second is never reached
    refine ⟨D, .error name, hD, fun M => ?_, ?_⟩
    · refine (hrun M).trans ?_
      simp only [cutOff]
      split <;> rfl
    · have hnot : ¬ c := fun h => nomatch hc.mpr h
      simp [hnot]
  | ok v =>
    -- beyond the first limit the second step runs, always from the same arena
    obtain ⟨D', r', hD', hq, hc'⟩ := hq v.1 v.2
    refine ⟨max D D', r', Nat.max_le.mpr ⟨hD, hD'⟩, fun M => ?_, ?_⟩
    · refine (hrun M).trans ?_
      by_cases hM : M < D
      · rw [cutOff, cutOff, if_pos hM, if_pos (by omega)]
        rfl
      · rw [cutOff, cutOff, if_neg hM]
        refine (hq M).trans ?_
        rw [cutOff]
        by_cases hM' : M < D'
        · rw [if_pos hM', if_pos (by omega)]
        · rw [if_neg hM', if_neg (by omega)]
    · have hyes : c := hc.mp ⟨v, rfl⟩
      simp [hyes, hc']

theorem Settles.checkDepth {p : Nat → Build α} (hp : Settles k c p) (hd : d ≤ k) :
    Settles k c fun M => (do (Synthesizer.mk s M).checkDepth d; p M) := by
  have hcheck : Settles k True fun M => (Synthesizer.mk s M).checkDepth d := by
    intro a
    refine ⟨d, .ok ((), a), hd, fun M => ?_, iff_true_intro ⟨_, rfl⟩⟩
    simp only [Synthesizer.checkDepth, cutOff]
    split <;> rfl
  exact (hcheck.bind fun _ => hp).iff (by simp)

/-- A choice by what is allowed, which no limit changes. -/
theorem settles_ite {b : Bool} {p q : Nat → Build α} (hp : b = true → Settles k c p)
    (hq : b = false → Settles k c q) : Settles k c fun M => if b = true then p M else q M := by
  cases b with
  | true => exact hp rfl
  | false => exact hq rfl

/-- An allowed gate is added, another one is replaced. -/
theorem addOr_settles {g : Gate} {xs : List Operand} {replacement : Nat → Build Operand}
    (hd : d ≤ k) (hr : Settles k c replacement) :
    Settles k (s.contains g ∨ c) fun M =>
      (Synthesizer.mk s M).addOr g xs d (replacement M) := by
  simp only [addOr, allows]
  refine settles_ite (fun hg => ?_) fun hg => ?_
  · exact (settles_add k g xs).iff (by simp [hg])
  · -- the error of the replacement is restated in the name of the gate
    have hattribute : Settles k c fun M => (fun arena =>
        (replacement M arena).mapError (SynthesisError.attribute g) : Build Operand) := by
      intro a
      obtain ⟨D, r, hD, hp, hc⟩ := hr a
      refine ⟨D, r.mapError fun _ => g.name, hD, fun M => ?_, ?_⟩
      · simp only [hp, cutOff]
        split
        · rfl
        · cases r <;> rfl
      · rw [← hc]
        exact exists_congr fun v => Except.mapError_eq_ok_iff
    exact (hattribute.checkDepth hd).iff (by simp [hg])

/-! ## Gates over mapped operands -/

theorem invert_settles (hd : d ≤ k) :
    Settles k s.Inverts fun M => (Synthesizer.mk s M).invert x d := by
  unfold invert
  refine addOr_settles hd ?_
  simp only [allows]
  refine settles_ite (fun h => (settles_add k _ _).iff (by simp [h])) fun hnand => ?_
  refine settles_ite (fun h => (settles_add k _ _).iff (by simp [h])) fun hnand4 => ?_
  refine settles_ite (fun h => (settles_add k _ _).iff (by simp [h])) fun hnor => ?_
  exact (settles_refuse k _).iff (by simp [hnand, hnand4, hnor])

/-- What is made is then inverted. -/
theorem invert_after_settles {p : Nat → Build Operand} (hp : Settles k c p) (hd : d ≤ k) :
    Settles k (c ∧ s.Inverts) fun M => (do (Synthesizer.mk s M).invert (← p M) d) :=
  hp.bind fun _ => invert_settles hd

/-- Two operands are inverted before they are used. -/
theorem invert_two_settles {q : Nat → Operand → Operand → Build Operand} (hd : d ≤ k)
    (hq : ∀ nx ny, Settles k c fun M => q M nx ny) :
    Settles k (s.Inverts ∧ c) fun M =>
      (do q M (← (Synthesizer.mk s M).invert x d) (← (Synthesizer.mk s M).invert y d)) := by
  refine ((invert_settles hd).bind fun nx => (invert_settles hd).bind fun ny => hq nx ny).iff ?_
  rw [and_self_left]

theorem conjoin_settles (hd : d + 1 ≤ k) :
    Settles k s.Conjoins fun M => (Synthesizer.mk s M).conjoin x y d := by
  unfold conjoin
  refine addOr_settles (by omega) ?_
  simp only [allows]
  refine settles_ite (fun h => ?_) fun hnand => settles_ite (fun h => ?_) fun hnor =>
    settles_ite (fun h => ?_) fun hnand4 => settles_ite (fun h => ?_) fun hor => ?_
  · exact (invert_after_settles (settles_add k _ _) hd).iff (by simp [h, GateSet.Inverts])
  · exact (invert_two_settles hd fun _ _ => settles_add k _ _).iff (by simp [h, GateSet.Inverts])
  · exact (invert_after_settles (settles_add k _ _) hd).iff (by simp [h, GateSet.Inverts])
  · exact (invert_two_settles hd fun _ _ => invert_after_settles (settles_add k _ _) hd).iff
      (by simp [h, hnand, hnor, hnand4])
  · exact (settles_refuse k _).iff (by simp [hnand, hnor, hnand4, hor])

theorem disjoin_settles (hd : d + 1 ≤ k) :
    Settles k s.Disjoins fun M => (Synthesizer.mk s M).disjoin x y d := by
  unfold disjoin
  refine addOr_settles (by omega) ?_
  simp only [allows]
  refine settles_ite (fun h => ?_) fun hnor => settles_ite (fun h => ?_) fun hnand =>
    settles_ite (fun h => ?_) fun hnand4 => settles_ite (fun h => ?_) fun hand => ?_
  · exact (invert_after_settles (settles_add k _ _) hd).iff (by simp [h, GateSet.Inverts])
  · exact (invert_two_settles hd fun _ _ => settles_add k _ _).iff (by simp [h, GateSet.Inverts])
  · exact (invert_two_settles hd fun _ _ => settles_add k _ _).iff (by simp [h, GateSet.Inverts])
  · exact (invert_two_settles hd fun _ _ => invert_after_settles (settles_add k _ _) hd).iff
      (by simp [h, hnand, hnor, hnand4])
  · exact (settles_refuse k _).iff (by simp [hnand, hnor, hnand4, hand])

theorem nandOf_settles (hd : d + 2 ≤ k) :
    Settles k (s.Builds .nand 2) fun M => (Synthesizer.mk s M).nandOf x y d := by
  unfold nandOf
  refine addOr_settles (by omega) ?_
  simp only [allows, invertsWithoutNand]
  refine settles_ite (fun h => ?_) fun _ => settles_ite (fun h => ?_) fun hnand4 => ?_
  · refine (invert_after_settles (settles_add k _ _) (by omega)).iff ?_
    simp only [Bool.and_eq_true, Bool.or_eq_true] at h
    simp only [true_and, GateSet.Conjoins, GateSet.Inverts, h.1]
    tauto
  · exact (settles_add k _ _).iff (by simp [h])
  · exact (invert_after_settles (conjoin_settles (by omega)) (by omega)).iff (by simp [hnand4])

theorem norOf_settles (hd : d + 2 ≤ k) :
    Settles k (s.Builds .nor 2) fun M => (Synthesizer.mk s M).norOf x y d :=
  addOr_settles (by omega) (invert_after_settles (disjoin_settles (by omega)) (by omega))

theorem xorOf_settles (hd : d + 2 ≤ k) :
    Settles k (s.Builds .xor 2) fun M => (Synthesizer.mk s M).xorOf x y d := by
  refine addOr_settles (by omega)
    (Settles.iff (c := s.Inverts ∧ s.Conjoins ∧ s.Inverts ∧ s.Conjoins ∧ s.Disjoins) ?_ ?_)
  · exact (invert_settles (by omega)).bind fun _ => (conjoin_settles (by omega)).bind fun _ =>
      (invert_settles (by omega)).bind fun _ => (conjoin_settles (by omega)).bind fun _ =>
        disjoin_settles (by omega)
  · tauto

theorem xnorOf_settles (hd : d + 3 ≤ k) :
    Settles k (s.Builds .xnor 2) fun M => (Synthesizer.mk s M).xnorOf x y d :=
  addOr_settles (by omega) (invert_after_settles (xorOf_settles (by omega)) (by omega))

/-- A gate over operands that are mapped already. -/
theorem build_settles {g : Gate} {xs : List Operand} (hd : d + 3 ≤ k) :
    Settles k (s.Builds g xs.length) fun M => (Synthesizer.mk s M).build g xs d := by
  fun_cases build (Synthesizer.mk s 0) g xs d
  case case1 => exact invert_settles (by omega)
  case case2 => exact conjoin_settles (by omega)
  case case3 => exact disjoin_settles (by omega)
  case case4 => exact nandOf_settles (by omega)
  case case5 => exact norOf_settles (by omega)
  case case6 => exact xorOf_settles (by omega)
  case case7 => exact xnorOf_settles (by omega)
  case case8 hnot hand hor hnand hnor hxor hxnor =>
    have hother : Settles k (s.contains g) fun M =>
        (Synthesizer.mk s M).addOr g xs d (refuse g) :=
      (addOr_settles (by omega) (settles_refuse k g)).iff (or_iff_left id)
    have hbuild : ∀ M, (Synthesizer.mk s M).build g xs d =
        (Synthesizer.mk s M).addOr g xs d (refuse g) := by
      intro M
      rw [build] <;> assumption
    simp only [hbuild]
    refine hother.iff ?_
    -- any other number of operands, or any other gate: `Builds` asks for the gate itself
    rw [GateSet.Builds]
    · intro hg hlen
      obtain ⟨x, rfl⟩ := List.length_eq_one_iff.mp hlen
      exact hnot x hg rfl
    all_goals
      intro hg hlen
      obtain ⟨x, y, rfl⟩ := List.length_eq_two.mp hlen
      subst hg
    · exact hand x y rfl rfl
    · exact hor x y rfl rfl
    · exact hnand x y rfl rfl
    · exact hnor x y rfl rfl
    · exact hxor x y rfl rfl
    · exact hxnor x y rfl rfl

end Synthesizer

end LogicSchematic
