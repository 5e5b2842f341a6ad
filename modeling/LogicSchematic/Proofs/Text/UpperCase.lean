import LogicSchematic.Text.UpperCase

/-!
# Texts in upper case

A capital form consists of characters that are their own capital form: no code point of the list
`capitals` is one of the list `letters` (`not_mem_letters_of_mem_capitals`). So a text in upper case
is its own capital form (`upper_of_mem_upperCase`, `upperCase_eq_self`), and none of its characters
is a small letter of ASCII (`isLower_of_mem_upperCase`).
-/

namespace LogicSchematic.Text

theorem isLower_iff {c : Char} : c.isLower = true ↔ 97 ≤ c.toNat ∧ c.toNat ≤ 122 := by
  show (decide ('a'.val ≤ c.val) && decide (c.val ≤ 'z'.val)) = true ↔ _
  simp [UInt32.le_iff_toNat_le]

/-- What is no small letter of ASCII stays as it is. -/
theorem toUpper_of_isLower_eq_false {c : Char} (h : c.isLower = false) : c.toUpper = c := by
  refine dif_neg fun ⟨hle, hle'⟩ => ?_
  have hlower := isLower_iff.mpr ⟨UInt32.le_iff_toNat_le.mp hle, UInt32.le_iff_toNat_le.mp hle'⟩
  rw [h] at hlower
  cases hlower

theorem toNat_ofNat {n : Nat} (hn : n.isValidChar) : (Char.ofNat n).toNat = n := by
  rw [Char.ofNat, dif_pos hn]
  rfl

theorem isLower_toUpper_ascii : ∀ n < 128, (Char.ofNat n).toUpper.isLower = false := by
  decide

theorem upper_toUpper_ascii :
    ∀ n < 128, upper (Char.ofNat n).toUpper = [(Char.ofNat n).toUpper] := by
  decide

/-! ## The tables -/

/-- The letters of a run. -/
def CaseRun.letters (r : CaseRun) : List Nat :=
  (List.range ((r.last - r.first) / r.step + 1)).map fun k => r.first + r.step * k

/-- The capitals of a run. -/
def CaseRun.capitals (r : CaseRun) : List Nat :=
  (List.range ((r.last - r.first) / r.step + 1)).map fun k => r.capital + r.step * k

/-- A letter of a run is so many steps after the first one, and its capital as many after that of
the first. -/
theorem CaseRun.mem_of_covers {r : CaseRun} {n : Nat} (h : r.covers n = true) :
    n ∈ r.letters ∧ r.capital + (n - r.first) ∈ r.capitals := by
  simp only [covers, Bool.and_eq_true, decide_eq_true_eq, beq_iff_eq] at h
  obtain ⟨⟨hfirst, hlast⟩, hstep⟩ := h
  have hsteps : r.step * ((n - r.first) / r.step) = n - r.first := by
    have := Nat.div_add_mod (n - r.first) r.step
    omega
  have hlt : (n - r.first) / r.step < (r.last - r.first) / r.step + 1 :=
    Nat.lt_succ_of_le (Nat.div_le_div_right (by omega))
  constructor
  · refine List.mem_map.mpr ⟨_, List.mem_range.mpr hlt, ?_⟩
    omega
  · refine List.mem_map.mpr ⟨_, List.mem_range.mpr hlt, ?_⟩
    omega

/-- The code points that have another capital form than themselves. -/
def letters : List Nat :=
  List.range' 97 26 ++ caseRuns.flatMap CaseRun.letters ++ caseExpansions.map Prod.fst

/-- The code points that capital forms beyond ASCII consist of. -/
def capitals : List Nat :=
  caseRuns.flatMap CaseRun.capitals ++ caseExpansions.flatMap Prod.snd

/-- The set of some numbers, one bit for each. -/
def mask (ns : List Nat) : Nat := ns.foldr (fun n m => m ||| 1 <<< n) 0

theorem testBit_mask {ns : List Nat} {n : Nat} : (mask ns).testBit n = true ↔ n ∈ ns := by
  induction ns with
  | nil => simp [mask]
  | cons m ns ih =>
    have hcons : mask (m :: ns) = mask ns ||| 1 <<< m := rfl
    rw [hcons, Nat.testBit_or, Bool.or_eq_true, ih, List.mem_cons, Nat.one_shiftLeft,
      Nat.testBit_two_pow, decide_eq_true_eq, eq_comm, or_comm]

theorem testBit_letters_capitals :
    capitals.all (fun n => !(mask letters).testBit n) = true := by
  decide +kernel

/-- No capital is a letter. -/
theorem not_mem_letters_of_mem_capitals {n : Nat} (h : n ∈ capitals) : n ∉ letters := by
  have hbit := List.all_eq_true.mp testBit_letters_capitals n h
  rw [Bool.not_eq_true'] at hbit
  rw [← testBit_mask, hbit]
  exact Bool.false_ne_true

/-! ## Capital forms -/

/-- What is no letter stands for itself. -/
theorem upper_of_not_mem_letters {n : Nat} (h : n ∉ letters) :
    upper (Char.ofNat n) = [Char.ofNat n] := by
  by_cases hn : n.isValidChar
  · have hnat := toNat_ofNat hn
    simp only [letters, List.mem_append, List.mem_range'_1, List.mem_flatMap, List.mem_map,
      not_or, not_exists, not_and] at h
    obtain ⟨⟨hascii, hruns⟩, hlonger⟩ := h
    have hfind : caseRuns.find? (·.covers n) = none :=
      List.find?_eq_none.mpr fun r hr hcovers => hruns r hr (CaseRun.mem_of_covers hcovers).1
    have hlookup : caseExpansions.lookup n = none :=
      List.lookup_eq_none_iff.mpr fun p hp => by simpa using fun heq => hlonger p hp heq.symm
    by_cases hlt : n < 128
    · have hlower : (Char.ofNat n).isLower = false := by
        rw [← Bool.not_eq_true, isLower_iff, hnat]
        omega
      rw [upper_ascii (by omega), toUpper_of_isLower_eq_false hlower]
    · rw [upper, if_neg (by omega), upperBeyondAscii, hnat, hfind, hlookup]
  · rw [Char.ofNat, dif_neg hn]
    decide

/-- What a capital form consists of: a capital of ASCII, capitals of the tables, or the character
itself. -/
theorem mem_upper_cases {c d : Char} (h : d ∈ upper c) :
    (c.toNat < 128 ∧ d = c.toUpper) ∨ (∃ n ∈ capitals, d = Char.ofNat n) ∨
      (d = c ∧ upper c = [c]) := by
  by_cases hascii : c.toNat < 128
  · rw [upper_ascii hascii, List.mem_singleton] at h
    exact .inl ⟨hascii, h⟩
  · have hupper : upper c = upperBeyondAscii c := if_neg hascii
    rw [hupper] at h
    unfold upperBeyondAscii at h hupper
    split at h
    next r hr =>
      have hcovers := List.find?_some hr
      have hmem : r.capital + (c.toNat - r.first) ∈ capitals := by
        refine List.mem_append_left _ (List.mem_flatMap.mpr ⟨r, List.mem_of_find?_eq_some hr, ?_⟩)
        exact (CaseRun.mem_of_covers hcovers).2
      exact .inr (.inl ⟨_, hmem, List.mem_singleton.mp h⟩)
    next hnone =>
      split at h
      next ns hns =>
        obtain ⟨n, hn, rfl⟩ := List.mem_map.mp h
        obtain ⟨l, l', hlist, -⟩ := List.lookup_eq_some_iff.mp hns
        have hmem : n ∈ capitals :=
          List.mem_append_right _ (List.mem_flatMap.mpr ⟨(c.toNat, ns), by simp [hlist], hn⟩)
        exact .inr (.inl ⟨n, hmem, rfl⟩)
      next hnone' =>
        simp only [hnone, hnone'] at hupper
        exact .inr (.inr ⟨List.mem_singleton.mp h, hupper⟩)

/-- A capital form is its own capital form. -/
theorem upper_of_mem_upper {c d : Char} (h : d ∈ upper c) : upper d = [d] := by
  rcases mem_upper_cases h with ⟨hascii, rfl⟩ | ⟨n, hn, rfl⟩ | ⟨rfl, hself⟩
  · rw [← Char.ofNat_toNat c]
    exact upper_toUpper_ascii c.toNat hascii
  · exact upper_of_not_mem_letters (not_mem_letters_of_mem_capitals hn)
  · exact hself

theorem upper_of_mem_upperCase {cs : List Char} {c : Char} (h : c ∈ upperCase cs) :
    upper c = [c] := by
  obtain ⟨d, -, hd⟩ := List.mem_flatMap.mp h
  exact upper_of_mem_upper hd

/-- A text of capitals is in upper case. -/
theorem upperCase_eq_self {cs : List Char} (h : ∀ c ∈ cs, upper c = [c]) : upperCase cs = cs := by
  induction cs with
  | nil => rfl
  | cons c cs ih =>
    rw [List.forall_mem_cons] at h
    rw [upperCase_cons, h.1, ih h.2, List.singleton_append]

theorem upperCase_upperCase (cs : List Char) : upperCase (upperCase cs) = upperCase cs :=
  upperCase_eq_self fun _ => upper_of_mem_upperCase

/-- The capital form of a text has no small letter of ASCII. -/
theorem isLower_of_mem_upperCase {cs : List Char} {c : Char} (h : c ∈ upperCase cs) :
    c.isLower = false := by
  cases hlower : c.isLower with
  | false => rfl
  | true =>
    have hascii : c.toNat < 128 := by
      have := (isLower_iff.mp hlower).2
      omega
    -- a small letter is not its own capital form
    have hsame : c.toUpper = c := by
      have := upper_of_mem_upperCase h
      rw [upper_ascii hascii] at this
      exact List.singleton_inj.mp this
    have hcapital := isLower_toUpper_ascii c.toNat hascii
    rw [Char.ofNat_toNat, hsame, hlower] at hcapital
    cases hcapital

end LogicSchematic.Text
