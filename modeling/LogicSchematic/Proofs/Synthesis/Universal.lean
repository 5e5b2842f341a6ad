import LogicSchematic.Proofs.Synthesis.Outcome

/-!
# Universal gate sets

From a universal set of gates (`GateSet.Universal`) every gate can be mapped over any number of
operands that it may have (`GateSet.Universal.maps`), so every proper expression of gates is
mappable (`mappable_of_universal`). With the bound on the depth, every such expression is
synthesized: `synthesize_isOk`.
-/

namespace LogicSchematic

namespace GateSet

variable {s : GateSet}

/-- Whether a set has one of the gates that every function can be built from, or an inverter and one
of the two gates that it completes. -/
def Universal (s : GateSet) : Prop :=
  s.contains .nand ∨ s.contains .nor ∨ s.contains .nand4 ∨
    s.contains .not ∧ (s.contains .and ∨ s.contains .or)

theorem Universal.inverts (h : s.Universal) : s.Inverts := by
  unfold Universal at h
  unfold Inverts
  tauto

theorem Universal.conjoins (h : s.Universal) : s.Conjoins := by
  have := h.inverts
  unfold Universal at h
  unfold Conjoins
  tauto

theorem Universal.disjoins (h : s.Universal) : s.Disjoins := by
  have := h.inverts
  unfold Universal at h
  unfold Disjoins
  tauto

/-- Every gate with two pins can be built over two operands. -/
theorem Universal.builds_two (h : s.Universal) {g : Gate} (hg : g.inputPins = 2) :
    s.Builds g 2 := by
  have hinv := h.inverts
  have hand := h.conjoins
  have hor := h.disjoins
  cases g with
  | and => exact hand
  | or => exact hor
  | nand => exact .inr (.inr ⟨hand, hinv⟩)
  | nor => exact .inr ⟨hor, hinv⟩
  | xor => exact .inr ⟨hinv, hand, hor⟩
  | xnor => exact .inr ⟨.inr ⟨hinv, hand, hor⟩, hinv⟩
  | not => cases hg
  | nand4 => cases hg

theorem Universal.associates (h : s.Universal) {g : Gate} (hg : g.inputPins = 2) (n : Nat) :
    s.Associates g n :=
  .inr (h.builds_two hg)

theorem Universal.complements (h : s.Universal) {g base : Gate} (hg : g.inputPins = 2)
    (hbase : base.inputPins = 2) (n : Nat) : s.Complements g base n := by
  unfold Complements
  split
  next => exact .inr h.inverts
  next =>
    split
    next => exact h.builds_two hg
    next => exact ⟨h.associates hbase n, h.inverts⟩

/-- Every gate can be mapped, the inverter over one operand. -/
theorem Universal.maps (h : s.Universal) {g : Gate} {n : Nat} (hn : g = .not → n = 1) :
    s.Maps g n := by
  cases g with
  | not =>
    cases hn rfl
    exact ⟨by omega, h.inverts⟩
  | nand4 => exact .inr ⟨h.associates rfl n, h.inverts⟩
  | nand => exact h.complements rfl rfl n
  | nor => exact h.complements rfl rfl n
  | xnor => exact h.complements rfl rfl n
  | and => exact h.associates rfl n
  | or => exact h.associates rfl n
  | xor => exact h.associates rfl n

end GateSet

theorem Expr.mappable_of_universal {s : GateSet} (hs : s.Universal) {e : Expr} (hnot : e.UnaryNot)
    (hcalls : e.CallFree) : e.Mappable s := by
  refine (hnot.and hcalls).mono fun o n h => ?_
  cases o with
  | call name => cases h.2
  | gate g => exact ⟨g, rfl, hs.maps fun hg => h.1 (by rw [hg])⟩

/-- From a universal set of gates every proper expression of gates is synthesized, when identities
may nest three times as deep as there are nodes, and four levels more. -/
theorem Synthesizer.synthesize_isOk {s : Synthesizer} (hs : s.allowed.Universal) {e : Expr}
    (he : e.Proper) (hnot : e.UnaryNot) (hcalls : e.CallFree)
    (hdepth : 3 * e.nodeCount + 4 ≤ s.maxDepth) : ∃ m, s.synthesize e = .ok m := by
  obtain ⟨D, r, hD, hrun, hr⟩ := synthesize_outcome s.allowed he
  obtain ⟨m, rfl⟩ := hr.mpr (Expr.mappable_of_universal hs hnot hcalls)
  refine ⟨m, (hrun s.maxDepth).trans ?_⟩
  rw [cutOff, if_neg (by omega)]
  rfl

/-- An inverter and a disjunction suffice for an inverted conjunction, which they build by way of
the conjunction. -/
theorem Synthesizer.synthesize_isOk_nand_of_or_not :
    (GateSet.ofList [.or, .not]).Universal ∧
      ∃ m, Synthesizer.synthesize ⟨.ofList [.or, .not], 13⟩ (.gate .nand [.var "A", .var "B"]) =
        .ok m :=
  have hs : (GateSet.ofList [.or, .not]).Universal := .inr (.inr (.inr ⟨rfl, .inr rfl⟩))
  ⟨hs, Synthesizer.synthesize_isOk hs (by decide) (by decide) (by decide) (by decide)⟩

end LogicSchematic
