import LogicSchematic.Proofs.Token

/-!
# Canonical texts

Which texts have the same tokens. Upper case changes no token (`tokenize_upperCase`), tokens that
are written with spaces between are read again (`tokenize_textAll`), and the tokens of a text are
its words, once blanks are put around punctuation (`tokenize_eq_map_words`).

The last statement needs that upper case makes and removes no blank and no punctuation character.
Both are their own capitals, and no capital of the tables is one of them (`upper_of_not_joins`,
`joins_of_mem_upper`), so the blanks may be put in before or after.
-/

namespace LogicSchematic

namespace Token

/-! ## Upper case -/

/-- The code points of blanks and punctuation. -/
def separators : List Nat :=
  List.range' 9 5 ++ [0x20, 0x28, 0x29, 0x2C, 0x3D, 0x85, 0xA0, 0x1680] ++ List.range' 0x2000 11 ++
    [0x2028, 0x2029, 0x202F, 0x205F, 0x3000]

theorem mem_separators {c : Char} (h : ¬ Joins c) : c.toNat ∈ separators := by
  by_cases hblank : Text.isBlank c = true
  · simp only [Text.isBlank, Bool.or_eq_true, Bool.and_eq_true, decide_eq_true_eq,
      beq_iff_eq] at hblank
    simp only [separators, List.mem_append, List.mem_range'_1, List.mem_cons, List.not_mem_nil,
      or_false]
    omega
  · have hpunctuation : ofPunctuation? c ≠ none := fun hnone => h ⟨hnone, by simpa using hblank⟩
    unfold ofPunctuation? at hpunctuation
    split at hpunctuation <;> first | decide | exact absurd rfl hpunctuation

theorem testBit_separators :
    separators.all (fun n => !(Text.mask (Text.letters ++ Text.capitals)).testBit n) = true := by
  decide +kernel

/-- No letter and no capital of the tables is a blank or punctuation. -/
theorem not_mem_of_mem_separators {n : Nat} (h : n ∈ separators) :
    n ∉ Text.letters ++ Text.capitals := by
  have hbit := List.all_eq_true.mp testBit_separators n h
  rw [Bool.not_eq_true'] at hbit
  rw [← Text.testBit_mask, hbit]
  exact Bool.false_ne_true

theorem joins_ofNat {n : Nat} (h : n ∉ separators) : Joins (Char.ofNat n) := by
  refine Decidable.byContradiction fun hjoins => ?_
  have hmem := mem_separators hjoins
  by_cases hn : n.isValidChar
  · exact h (Text.toNat_ofNat hn ▸ hmem)
  · rw [Char.ofNat, dif_neg hn] at hjoins
    exact hjoins (by decide)

theorem joins_toUpper_ascii : ∀ n < 128, Joins (Char.ofNat n) → Joins (Char.ofNat n).toUpper := by
  decide

/-- Blanks and punctuation are their own capitals. -/
theorem upper_of_not_joins {c : Char} (h : ¬ Joins c) : Text.upper c = [c] := by
  rw [← Char.ofNat_toNat c]
  refine Text.upper_of_not_mem_letters fun hmem => ?_
  exact not_mem_of_mem_separators (mem_separators h) (List.mem_append_left _ hmem)

/-- The capitals of other characters are neither. -/
theorem joins_of_mem_upper {c d : Char} (hc : Joins c) (h : d ∈ Text.upper c) : Joins d := by
  rcases Text.mem_upper_cases h with ⟨hascii, rfl⟩ | ⟨n, hn, rfl⟩ | ⟨rfl, -⟩
  · have hjoins := joins_toUpper_ascii c.toNat hascii
    rw [Char.ofNat_toNat] at hjoins
    exact hjoins hc
  · exact joins_ofNat fun hmem => not_mem_of_mem_separators hmem (List.mem_append_right _ hn)
  · exact hc

end Token

open Token

theorem tokenize_upperCase (s : String) :
    tokenize (String.ofList (Text.upperCase s.toList)) = tokenize s := by
  rw [tokenize, tokenize, String.toList_ofList, Text.upperCase_upperCase]

/-! ## Written tokens -/

namespace Token

/-- A word is written as it stands, keyword or not. -/
theorem text_ofWord (cs : List Char) : (ofWord cs).text = String.ofList cs := by
  unfold ofWord
  dsimp only
  split
  next g hg =>
    have hname : g.keyword? = some g.name → g.name = String.ofList cs := fun h =>
      Option.some.inj (h.symm.trans (Gate.keyword?_of_ofKeyword? hg))
    have hkeyword := Gate.keyword?_of_ofKeyword? hg
    cases g <;> first | exact hname rfl | cases hkeyword
  next => rfl

/-- A token of a text is read again from what is written for it. -/
theorem OfText.tokenize_text {t : Token} (h : t.OfText fun c => Text.upper c = [c]) :
    tokenize t.text = [t] := by
  cases h with
  | @punctuation c t hc =>
    unfold ofPunctuation? at hc
    split at hc <;> first | (cases hc; decide) | cases hc
  | @word cs hne hcs =>
    have hword : IsWord (String.ofList cs).toList := by
      rw [String.toList_ofList]
      exact ⟨hne, hcs⟩
    rw [text_ofWord, tokenize_word hword, String.toList_ofList]

end Token

/-- Tokens of texts are read again from what is written for them, with spaces between. -/
theorem tokenize_textAll {ts : List Token} (h : ∀ t ∈ ts, t.OfText fun c => Text.upper c = [c]) :
    tokenize (textAll ts) = ts := by
  induction ts with
  | nil => decide
  | cons t ts ih =>
    rw [List.forall_mem_cons] at h
    cases ts with
    | nil =>
      rw [textAll, List.map_singleton, String.intercalate_singleton]
      exact h.1.tokenize_text
    | cons u us =>
      have hcut : textAll (t :: u :: us) = t.text ++ " " ++ textAll (u :: us) := by
        simp only [textAll, List.map_cons, String.intercalate_cons_cons]
      rw [hcut, tokenize_append_space, h.1.tokenize_text, ih h.2, List.singleton_append]

/-! ## The words of a text -/

namespace Token

/-- A text with a blank on both sides of every punctuation character. -/
def spaced (cs : List Char) : List Char :=
  cs.flatMap fun c => if (ofPunctuation? c).isSome then [' ', c, ' '] else [c]

/-- What stands between blanks. -/
def words (cs : List Char) : List (List Char) :=
  (cs.splitOnP Text.isBlank).filter (· ≠ [])

/-- The token of a word that may be a punctuation character. -/
def ofSpacedWord : List Char → Token
  | [c] => (ofPunctuation? c).getD (ofWord [c])
  | cs => ofWord cs

theorem ofSpacedWord_of_joins {cs : List Char} (h : ∀ c ∈ cs, Joins c) :
    ofSpacedWord cs = ofWord cs := by
  unfold ofSpacedWord
  split
  next c =>
    rw [(h c (List.mem_singleton.mpr rfl)).1]
    rfl
  next => rfl

theorem isBlank_of_ofPunctuation? {c : Char} {t : Token} (h : ofPunctuation? c = some t) :
    Text.isBlank c = false := by
  unfold ofPunctuation? at h
  split at h <;> first | decide | cases h

/-- A word in front of other pieces is finished before them. -/
theorem map_filter_cons {word : List Char} (hword : ∀ c ∈ word, Joins c)
    (pieces : List (List Char)) :
    ((word :: pieces).filter (· ≠ [])).map ofSpacedWord =
      finishWord word ((pieces.filter (· ≠ [])).map ofSpacedWord) := by
  unfold finishWord
  split
  next hempty => rw [hempty, List.filter_cons_of_neg (by simp)]
  next hne =>
    rw [List.filter_cons_of_pos (by simpa using hne), List.map_cons, ofSpacedWord_of_joins hword]

/-- The unfinished word of a scan has no blank and no punctuation in it. -/
theorem joins_of_mem_scan (cs : List Char) : ∀ c ∈ (scan cs ([], [])).1, Joins c :=
  fun c hc => ((ofText_scan fun _ _ => trivial).1 c hc).1

/-- Scanning goes along with cutting at blanks: the first piece is the unfinished word. -/
theorem splitOnP_spaced (cs : List Char) :
    ∃ pieces, (spaced cs).splitOnP Text.isBlank = (scan cs ([], [])).1 :: pieces ∧
      (pieces.filter (· ≠ [])).map ofSpacedWord = (scan cs ([], [])).2 := by
  induction cs with
  | nil => exact ⟨[], rfl, rfl⟩
  | cons c cs ih =>
    obtain ⟨pieces, hsplit, htokens⟩ := ih
    have hjoins := joins_of_mem_scan cs
    have hscan : scan (c :: cs) ([], []) = readChar c (scan cs ([], [])) := rfl
    have hspaced : spaced (c :: cs) =
        (if (ofPunctuation? c).isSome then [' ', c, ' '] else [c]) ++ spaced cs := rfl
    generalize scan cs ([], []) = s at hsplit htokens hjoins hscan
    obtain ⟨word, ts⟩ := s
    have hfinish := map_filter_cons hjoins pieces
    rw [htokens] at hfinish
    rw [hscan, hspaced]
    cases hc : ofPunctuation? c with
    | some t =>
      -- the character is a piece of its own
      have hblank := isBlank_of_ofPunctuation? hc
      have hspace : Text.isBlank ' ' = true := by decide
      refine ⟨[c] :: word :: pieces, ?_, ?_⟩
      · simp [readChar, hc, hblank, hspace, hsplit, List.splitOnP_cons_eq_if_modifyHead]
      · rw [List.filter_cons_of_pos (by simp), List.map_cons, hfinish]
        simp [readChar, hc, ofSpacedWord]
    | none =>
      by_cases hblank : Text.isBlank c = true
      · refine ⟨word :: pieces, ?_, ?_⟩
        · simp [readChar, hc, hblank, hsplit, List.splitOnP_cons_eq_if_modifyHead]
        · rw [hfinish]
          simp [readChar, hc, hblank]
      · refine ⟨pieces, ?_, ?_⟩
        · simp [readChar, hc, hblank, hsplit, List.splitOnP_cons_eq_if_modifyHead]
        · rw [htokens]
          simp [readChar, hc, hblank]

theorem ofCapitals_eq_map_words (cs : List Char) :
    ofCapitals cs = (words (spaced cs)).map ofSpacedWord := by
  obtain ⟨pieces, hsplit, htokens⟩ := splitOnP_spaced cs
  rw [words, hsplit, map_filter_cons (joins_of_mem_scan cs), htokens]
  rfl

theorem spaced_append (as bs : List Char) : spaced (as ++ bs) = spaced as ++ spaced bs :=
  List.flatMap_append

theorem spaced_of_joins {cs : List Char} (h : ∀ c ∈ cs, Joins c) : spaced cs = cs := by
  induction cs with
  | nil => rfl
  | cons c cs ih =>
    rw [List.forall_mem_cons] at h
    have hcons : spaced (c :: cs) =
        (if (ofPunctuation? c).isSome then [' ', c, ' '] else [c]) ++ spaced cs := rfl
    rw [hcons, h.1.1, ih h.2]
    rfl

/-- Blanks are put around punctuation before or after a text is upper-cased. -/
theorem spaced_upperCase (cs : List Char) :
    spaced (Text.upperCase cs) = Text.upperCase (spaced cs) := by
  induction cs with
  | nil => rfl
  | cons c cs ih =>
    have hone : spaced (Text.upper c) = Text.upperCase (spaced [c]) := by
      by_cases hc : Joins c
      · rw [spaced_of_joins fun d hd => joins_of_mem_upper hc hd,
          spaced_of_joins (List.forall_mem_singleton.mpr hc), Text.upperCase_cons,
          Text.upperCase_nil, List.append_nil]
      · have hspace : Text.upper ' ' = [' '] := by decide
        have hself := upper_of_not_joins hc
        rw [hself, spaced, List.flatMap_singleton]
        split <;> simp [hself, hspace]
    rw [Text.upperCase_cons, spaced_append, hone, ih, ← Text.upperCase_append, ← spaced_append]
    rfl

end Token

/-- The tokens of a text are the words that stand between blanks, once blanks are put around
punctuation and all is in upper case. -/
theorem tokenize_eq_map_words (text : String) :
    tokenize text =
      (words (Text.upperCase (spaced text.toList))).map ofSpacedWord := by
  rw [tokenize, ofCapitals_eq_map_words, spaced_upperCase]

/-! ## Texts with the same tokens -/

/-- How texts are read. What stands on the two sides of a punctuation character is read on its own,
and the character is its own token. A text in upper case has the tokens of the text, and so have
these tokens when they are written with single spaces between. A name among them is not empty and no
keyword, and has no blank and no punctuation in it. -/
theorem tokenize_canonical (s s' : String) :
    (∀ p ∈ [('(', openParen), (')', closeParen), (',', comma), ('=', equal)],
      tokenize (s ++ String.singleton p.1 ++ s') = tokenize s ++ p.2 :: tokenize s') ∧
    tokenize (String.ofList (Text.upperCase s.toList)) = tokenize s ∧
    tokenize (textAll (tokenize s)) = tokenize s ∧
    ∀ name, ident name ∈ tokenize s →
      name ≠ "" ∧ (∀ g : Gate, g.keyword? ≠ some name) ∧
        ∀ c ∈ name.toList, Text.isBlank c = false ∧ c ∉ ['(', ')', ',', '='] := by
  refine ⟨fun p hp => ?_, tokenize_upperCase s, ?_, fun name hname => ?_⟩
  · refine tokenize_append_punctuation s s' ?_
    simp only [List.mem_cons, List.not_mem_nil, or_false] at hp
    rcases hp with rfl | rfl | rfl | rfl <;> rfl
  · exact tokenize_textAll fun t => ofText_of_mem_tokenize
  · obtain ⟨⟨hne, hword⟩, hkeyword⟩ := isWord_of_mem_tokenize hname
    refine ⟨?_, fun g hg => ?_, fun c hc => ⟨(hword c hc).1.2, fun hmark => ?_⟩⟩
    · rintro rfl
      exact hne rfl
    · rw [Gate.ofKeyword?_keyword hg] at hkeyword
      cases hkeyword
    · have hnone := (hword c hc).1.1
      simp only [List.mem_cons, List.not_mem_nil, or_false] at hmark
      rcases hmark with rfl | rfl | rfl | rfl <;> cases hnone

/-- Letters with more than one capital, blanks beyond ASCII, and a keyword in lower case. -/
theorem tokenize_canonical_letters :
    let ts : List Token := [ident "STRASSE", keyword .xnor, ident "FI"]
    tokenize "\u3000straße\u00a0xnor ﬁ" = ts ∧
      (',', comma) ∈ [('(', openParen), (')', closeParen), (',', comma), ('=', equal)] ∧
      tokenize ("\u3000straße\u00a0xnor ﬁ" ++ String.singleton ',' ++ "b") =
        ts ++ [comma, ident "B"] ∧
      tokenize "STRASSE XNOR FI" = ts ∧ ident "FI" ∈ tokenize "\u3000straße\u00a0xnor ﬁ" := by
  intro ts
  have hread : tokenize "\u3000straße\u00a0xnor ﬁ" = ts := by decide
  have hmem : (',', comma) ∈ [('(', openParen), (')', closeParen), (',', comma), ('=', equal)] := by
    decide
  obtain ⟨hcut, -, hagain, -⟩ := tokenize_canonical "\u3000straße\u00a0xnor ﬁ" "b"
  refine ⟨hread, hmem, ?_, ?_, ?_⟩
  · rw [hcut _ hmem, hread]
    exact congrArg (ts ++ [comma] ++ ·) (show tokenize "b" = [ident "B"] by decide)
  · rw [hread] at hagain
    exact hagain
  · rw [hread]
    decide

end LogicSchematic
