import LogicSchematic.Proofs.Equivalence
import LogicSchematic.Proofs.Netlist.Meaning

/-!
# Equivalence of equations and a netlist

What it takes that `checkEquivalence` finds no difference: as many outputs as equations, and in
every round every output has the word of its equation (`checkEquivalence_eq_none_iff`). One lemma
leads to it for each function below: `lowestBit?` for a word, `firstDifference` for a round,
`differenceOn` for the rounds. The netlist of equations meets this for every seed
(`Implements.checkEquivalence`).
-/

namespace LogicSchematic

/-- Only the word without bits has no lowest bit. -/
theorem lowestBit?_eq_none_iff {w : UInt64} : lowestBit? w = none ↔ w = 0 := by
  rw [lowestBit?, List.find?_eq_none]
  constructor
  · intro h
    refine UInt64.toNat_inj.mp (Nat.eq_of_testBit_eq fun j => ?_)
    rw [UInt64.toNat_zero, Nat.zero_testBit]
    by_cases hj : j < 64
    · simpa [bitAt] using h j (List.mem_range.mpr hj)
    · -- a word has no bits from the 64th on
      refine Nat.testBit_lt_two_pow (Nat.lt_of_lt_of_le w.toNat_lt ?_)
      exact Nat.pow_le_pow_right (by decide) (Nat.le_of_not_lt hj)
  · rintro rfl j -
    simp [bitAt]

/-- There is no difference when every word is the word of its equation. -/
theorem firstDifference_eq_none_iff {values : Valuation} {pairs : List (Equation × UInt64)} :
    firstDifference values pairs = .ok none ↔
      ∀ p ∈ pairs, p.1.expr.eval values = .ok p.2 := by
  induction pairs with
  | nil => simp [firstDifference]
  | cons p pairs ih =>
    obtain ⟨e, actual⟩ := p
    rw [List.forall_mem_cons, ← ih, firstDifference]
    cases heval : e.expr.eval values with
    | ok expected =>
      simp only [Except.ok_bind, Except.ok.injEq]
      cases hbit : lowestBit? (expected ^^^ actual) with
      | none => simp [UInt64.xor_eq_zero_iff.mp (lowestBit?_eq_none_iff.mp hbit)]
      | some j =>
        have hne : expected ≠ actual := by
          rintro rfl
          rw [lowestBit?_eq_none_iff.mpr UInt64.xor_self] at hbit
          cases hbit
        simp [hne, Except.pure_eq_ok]
    | error cause =>
      cases cause with
      | missingOperand => simp [Except.error_bind]
      | undetermined =>
        -- an equation without a word differs in all bits
        have hbit : lowestBit? (~~~0) = some 0 := rfl
        simp only [Except.ok_bind, hbit, Except.pure_eq_ok]
        simp

namespace Netlist

variable {net : Netlist} {equations : List Equation}

theorem differenceOn_eq_none_iff {rounds : List (List UInt64)} :
    net.differenceOn equations rounds = .ok none ↔
      ∀ words ∈ rounds, ∃ outs, net.simulate words = .ok outs ∧
        ∀ p ∈ equations.zip outs, p.1.expr.eval (bindWords net.inputLabels words) = .ok p.2 := by
  induction rounds with
  | nil => simp [differenceOn]
  | cons words rounds ih =>
    rw [List.forall_mem_cons, ← ih, differenceOn]
    constructor
    · intro h
      obtain ⟨outs, houts, h⟩ := Except.bind_eq_ok_iff.mp h
      obtain ⟨difference, hdifference, h⟩ := Except.bind_eq_ok_iff.mp h
      cases difference with
      | some p => cases h
      | none => exact ⟨⟨outs, houts, firstDifference_eq_none_iff.mp hdifference⟩, h⟩
    · rintro ⟨⟨outs, houts, hwords⟩, hrest⟩
      simp only [houts, firstDifference_eq_none_iff.mpr hwords, Except.ok_bind]
      exact hrest

/-- No difference is found when the numbers match and every round gives every output the word of its
equation. -/
theorem checkEquivalence_eq_none_iff {seed : UInt64} :
    net.checkEquivalence equations seed = .ok none ↔
      equations.length = net.outputs.size ∧ ∀ words ∈ patterns net.inputs.size seed,
        ∃ outs, net.simulate words = .ok outs ∧
          ∀ p ∈ equations.zip outs, p.1.expr.eval (bindWords net.inputLabels words) = .ok p.2 := by
  rw [checkEquivalence]
  split
  next hlen => rw [differenceOn_eq_none_iff, and_iff_right hlen]
  next hlen =>
    rw [iff_false_right fun h => hlen h.1]
    split <;> simp

/-- The netlist of equations is found to be equivalent to them. -/
theorem Implements.checkEquivalence {s : Synthesizer} {K : Gate → Prop}
    {inputs : List (String × NodeId)} (h : net.Implements s K equations inputs)
    (hproper : ∀ e ∈ equations, e.expr.Proper) (seed : UInt64) :
    net.checkEquivalence equations seed = .ok none := by
  refine checkEquivalence_eq_none_iff.mpr ⟨h.outputs.length_eq, fun words hwords => ?_⟩
  obtain ⟨outs, hrun, heval⟩ := h.exists_simulate hproper (length_of_mem_patterns hwords)
  exact ⟨outs, hrun, fun p hp => (List.forall₂_iff_zip.mp heval).2 hp⟩

end Netlist

end LogicSchematic
