import LogicSchematic.Proofs.Expr.Boolean
import Mathlib.Algebra.Group.Nat.Defs
import Mathlib.Data.List.OfFn
import Mathlib.Data.Nat.Init

/-!
# Exhaustive patterns

In exhaustive patterns assignments are counted: bit `b` of the word of variable `i` in round `w` is
bit `i` of the number `64 * w + b` (`bitAt_exhaustiveWord`). Rounds with these bits are a binary
count (`IsBinaryCount`), and this is all that the assignments in them depend on: one is tried where
the number of the place ends in its binary digits (`triedAt_iff`). Hence each is tried, and from six
variables on, when no place is left over in a round, each is tried once. The exhaustive patterns are
such a count up to 69 variables, and can be held up to 64 (`exhaustivePatterns_enumerate`).
-/

namespace LogicSchematic

/-- The words of the first variables count within a round. -/
theorem bitAt_variableMasks : ∀ i : Fin 6, ∀ b : Fin 64,
    variableMasks[i.1]?.map (bitAt · b) = some (b.1.testBit i) := by
  decide +kernel

theorem length_variableMasks : variableMasks.length = 6 := rfl

/-- In exhaustive patterns the assignments are numbers. -/
theorem bitAt_exhaustiveWord (w : Nat) {i b : Nat} (hi : i < 70) (hb : b < 64) :
    bitAt (exhaustiveWord w i) b = (64 * w + b).testBit i := by
  rw [show 64 * w + b = 2 ^ 6 * w + b from rfl, Nat.testBit_two_pow_mul_add w hb i, exhaustiveWord]
  by_cases hlow : i < 6
  · rw [if_pos hlow]
    obtain ⟨mask, hmask, hbit⟩ := Option.map_eq_some_iff.mp (bitAt_variableMasks ⟨i, hlow⟩ ⟨b, hb⟩)
    rw [hmask]
    exact hbit
  · have hnone : variableMasks[i]? = none := by
      rw [List.getElem?_eq_none_iff, length_variableMasks]
      omega
    rw [if_neg hlow, hnone, Nat.mod_eq_of_lt (by omega)]
    dsimp only
    split
    next hbit => rw [bitAt_not 0 hb, bitAt_zero, hbit, Bool.not_false]
    next hbit => rw [bitAt_zero, Bool.eq_false_iff.mpr hbit]

/-! ## Binary counts -/

/-- Rounds that count through the assignments of `n` variables: every round has a word for each
variable, and bit `b` of the words of round `w` shows the binary digits of `64 * w + b`. -/
structure IsBinaryCount (n : Nat) (rounds : List (List UInt64)) : Prop where
  length_rounds : rounds.length = 2 ^ (n - 6)
  length_words : ∀ words ∈ rounds, words.length = n
  bit : ∀ (w : Nat) (hw : w < rounds.length) (i : Nat) (hi : i < rounds[w].length), ∀ b < 64,
    bitAt rounds[w][i] b = (64 * w + b).testBit i

/-- An assignment is tried at bit `p.2` of round `p.1`: there the words have its values. -/
def TriedAt {n : Nat} (rounds : List (List UInt64)) (τ : Fin n → Bool) (p : Nat × Nat) : Prop :=
  p.2 < 64 ∧ ∃ words, rounds[p.1]? = some words ∧ words.map (bitAt · p.2) = List.ofFn τ

/-- A number shows an assignment in its last binary digits when these are the number of the
assignment. -/
theorem testBit_eq_iff {n m : Nat} {τ : Fin n → Bool} :
    (fun i : Fin n => m.testBit i) = τ ↔ m % 2 ^ n = Nat.ofBits τ := by
  constructor
  · rintro rfl
    exact (Nat.ofBits_testBit m n).symm
  · intro h
    funext i
    calc m.testBit i
        = (m % 2 ^ n).testBit i := by
          rw [Nat.testBit_mod_two_pow, decide_eq_true i.isLt, Bool.true_and]
      _ = τ i := by rw [h, Nat.testBit_ofBits_lt τ i i.isLt]

/-- There are as many places as the variables have assignments, but at least those of one round. -/
theorem places_eq_two_pow (n : Nat) : 64 * 2 ^ (n - 6) = 2 ^ max n 6 := by
  rw [show 64 = 2 ^ 6 from rfl, ← Nat.pow_add]
  congr 1
  omega

namespace IsBinaryCount

variable {n : Nat} {rounds : List (List UInt64)} {τ : Fin n → Bool}

/-- The assignment at a place. -/
theorem map_bitAt (h : IsBinaryCount n rounds) {w b : Nat} (hw : w < rounds.length) (hb : b < 64) :
    rounds[w].map (bitAt · b) = List.ofFn fun i : Fin n => (64 * w + b).testBit i := by
  refine List.ext_getElem ?_ fun i hi _ => ?_
  · rw [List.length_map, List.length_ofFn]
    exact h.length_words _ (List.getElem_mem hw)
  · rw [List.getElem_map, List.getElem_ofFn]
    exact h.bit w hw i (by rwa [List.length_map] at hi) b hb

/-- An assignment is tried at the places whose number ends in its binary digits. -/
theorem triedAt_iff (h : IsBinaryCount n rounds) {w b : Nat} :
    TriedAt rounds τ (w, b) ↔
      w < 2 ^ (n - 6) ∧ b < 64 ∧ (64 * w + b) % 2 ^ n = Nat.ofBits τ := by
  rw [← h.length_rounds]
  constructor
  · rintro ⟨hb, words, hwords, hbits⟩
    obtain ⟨hw, rfl⟩ := List.getElem?_eq_some_iff.mp hwords
    rw [h.map_bitAt hw hb, List.ofFn_inj] at hbits
    exact ⟨hw, hb, testBit_eq_iff.mp hbits⟩
  · rintro ⟨hw, hb, hnumber⟩
    refine ⟨hb, rounds[w], List.getElem?_eq_getElem hw, ?_⟩
    rw [h.map_bitAt hw hb, testBit_eq_iff.mpr hnumber]

/-- Every assignment is tried, at the place that has its number. -/
theorem triedAt_number (h : IsBinaryCount n rounds) (τ : Fin n → Bool) :
    TriedAt rounds τ (Nat.ofBits τ / 64, Nat.ofBits τ % 64) := by
  have hlt := Nat.ofBits_lt_two_pow τ
  have hplaces : 2 ^ n ≤ 64 * 2 ^ (n - 6) := by
    rw [places_eq_two_pow]
    exact Nat.pow_le_pow_right (by decide) (Nat.le_max_left n 6)
  refine h.triedAt_iff.mpr ⟨?_, Nat.mod_lt _ (by decide), ?_⟩
  · exact Nat.div_lt_of_lt_mul (Nat.lt_of_lt_of_le hlt hplaces)
  · rw [Nat.div_add_mod, Nat.mod_eq_of_lt hlt]

/-- From six variables on an assignment is tried nowhere else. -/
theorem eq_number_of_triedAt (h : IsBinaryCount n rounds) (hn : 6 ≤ n) {p : Nat × Nat}
    (hp : TriedAt rounds τ p) : p = (Nat.ofBits τ / 64, Nat.ofBits τ % 64) := by
  obtain ⟨w, b⟩ := p
  obtain ⟨hw, hb, hnumber⟩ := h.triedAt_iff.mp hp
  -- the number of a place has no further digits that could differ
  have hplaces : 64 * 2 ^ (n - 6) = 2 ^ n := by rw [places_eq_two_pow, Nat.max_eq_left hn]
  have hplace : 64 * w + b < 2 ^ n := by omega
  rw [Nat.mod_eq_of_lt hplace] at hnumber
  rw [← hnumber]
  exact Prod.ext (by omega) (by omega)

end IsBinaryCount

/-! ## All assignments -/

/-- Up to 69 variables the bits of a round's number are not counted around. -/
theorem exhaustiveRounds_eq {n : Nat} (hn : n ≤ 69) : exhaustiveRounds n = 2 ^ (n - 6) := by
  rw [exhaustiveRounds, Nat.mod_eq_of_lt (by omega)]
  rfl

/-- Up to 69 variables exhaustive patterns are a binary count. -/
theorem isBinaryCount_exhaustivePatterns {n : Nat} (hn : n ≤ 69) :
    IsBinaryCount n (exhaustivePatterns n) where
  length_rounds := by rw [length_exhaustivePatterns, exhaustiveRounds_eq hn]
  length_words _ := length_of_mem_exhaustivePatterns
  bit := by
    intro w hw i hi b hb
    have hround : (exhaustivePatterns n)[w] = (List.range n).map (exhaustiveWord w) := by
      simp only [exhaustivePatterns, List.getElem_map, List.getElem_range]
    have hvar : i < n := by
      rwa [hround, List.length_map, List.length_range] at hi
    have hword : (exhaustivePatterns n)[w][i] = exhaustiveWord w i := by
      simp only [hround, List.getElem_map, List.getElem_range]
    rw [hword, bitAt_exhaustiveWord w (by omega) hb]

/-- Of these counts, the ones for up to 64 variables can be held. -/
theorem patternsFit_exhaustiveRounds_iff {n : Nat} (hn : n ≤ 69) :
    patternsFit n (exhaustiveRounds n) = true ↔ n ≤ 64 := by
  have hwords : 8 * n < addressableBytes := by
    rw [addressableBytes]
    omega
  have hfit : patternsFit n (exhaustiveRounds n) = true ↔ 24 * 2 ^ (n - 6) < addressableBytes := by
    rw [patternsFit, exhaustiveRounds_eq hn, decide_eq_true hwords, Bool.or_true, Bool.and_true,
      decide_eq_true_iff]
  rw [hfit, show addressableBytes = 32 * 2 ^ 58 from rfl]
  constructor
  · intro hheld
    by_contra hmany
    have : 2 ^ 59 ≤ 2 ^ (n - 6) := Nat.pow_le_pow_right (by decide) (by omega)
    omega
  · intro hfew
    have : 2 ^ (n - 6) ≤ 2 ^ 58 := Nat.pow_le_pow_right (by decide) (by omega)
    omega

/-- The exhaustive patterns for up to 69 variables, if there are not too many to be held. -/
theorem exhaustivePatterns?_eq {n : Nat} (hn : n ≤ 69) :
    exhaustivePatterns? n = if n ≤ 64 then some (exhaustivePatterns n) else none := by
  rw [exhaustivePatterns?]
  exact if_congr (patternsFit_exhaustiveRounds_iff hn) rfl rfl

/-- Exhaustive patterns enumerate the assignments of up to 69 variables, and are returned for up to
64; from 65 on there is no room for so many rounds. There are as many rounds as the variables from
the seventh on have assignments, with a word for every variable, and the bits are those of a binary
count. Every assignment is tried at some place, and from six variables on at only one. -/
theorem exhaustivePatterns_enumerate {n : Nat} (hn : n ≤ 69) :
    exhaustivePatterns? n = (if n ≤ 64 then some (exhaustivePatterns n) else none) ∧
    IsBinaryCount n (exhaustivePatterns n) ∧
    ∀ τ : Fin n → Bool, (∃ p, TriedAt (exhaustivePatterns n) τ p) ∧
      (6 ≤ n → ∃! p, TriedAt (exhaustivePatterns n) τ p) := by
  have hcount := isBinaryCount_exhaustivePatterns hn
  refine ⟨exhaustivePatterns?_eq hn, hcount, fun τ => ?_⟩
  have htried := hcount.triedAt_number τ
  exact ⟨⟨_, htried⟩, fun hsix => ⟨_, htried, fun _ hp => hcount.eq_number_of_triedAt hsix hp⟩⟩

/-- Of eight variables the two on the sides of the boundary, variable 5 that counts within a round
and variable 6 that counts rounds, are true together at one place only. -/
theorem exhaustivePatterns_enumerate_eight :
    let τ : Fin 8 → Bool := fun i => [5, 6].contains i.1
    8 ≤ 69 ∧ exhaustivePatterns? 8 = some (exhaustivePatterns 8) ∧
      IsBinaryCount 8 (exhaustivePatterns 8) ∧ TriedAt (exhaustivePatterns 8) τ (1, 32) ∧
      ∀ p, TriedAt (exhaustivePatterns 8) τ p → p = (1, 32) := by
  intro τ
  obtain ⟨hheld, hcount, htried⟩ := exhaustivePatterns_enumerate (n := 8) (by decide)
  have hplace : TriedAt (exhaustivePatterns 8) τ (1, 32) := ⟨by decide, _, rfl, by decide⟩
  exact ⟨by decide, hheld, hcount, hplace, fun p hp => ((htried τ).2 (by decide)).unique hp hplace⟩

/-- Exhaustive patterns for 65 variables would be a binary count, but cannot be held. -/
theorem exhaustivePatterns?_sixtyFive :
    exhaustivePatterns? 65 = none ∧
      ¬ ∀ n ≤ 69, ∃ rounds, exhaustivePatterns? n = some rounds ∧ rounds.length = 2 ^ (n - 6) := by
  have hnone : exhaustivePatterns? 65 = none := exhaustivePatterns?_eq (by decide)
  refine ⟨hnone, fun h => ?_⟩
  obtain ⟨rounds, hsome, -⟩ := h 65 (by decide)
  rw [hnone] at hsome
  cases hsome

/-- Up to sixteen variables, whatever the seed, every assignment is tried. -/
theorem exists_mem_patterns {bits : List Bool} (hlen : bits.length ≤ maxExhaustive) (seed : UInt64) :
    ∃ words ∈ patterns bits.length seed, ∃ j < 64, words.map (bitAt · j) = bits := by
  have hcount := isBinaryCount_exhaustivePatterns (Nat.le_trans hlen (by decide))
  obtain ⟨hj, words, hwords, hbits⟩ := hcount.triedAt_number bits.get
  rw [patterns, if_pos hlen]
  exact ⟨words, List.mem_of_getElem? hwords, _, hj, hbits.trans (List.ofFn_get bits)⟩

end LogicSchematic
