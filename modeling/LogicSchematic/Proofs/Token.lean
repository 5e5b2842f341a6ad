import LogicSchematic.Proofs.Text.UpperCase
import LogicSchematic.Token

/-!
# Words and names

What stands between blanks and punctuation in a text is a word: some characters in upper case that
all join (`IsWord`). Every token of a text is punctuation or the token of a word
(`ofText_of_mem_tokenize`), a word alone is read as its one token (`tokenize_word`), and texts on
the two sides of a punctuation character are read independently (`tokenize_append_punctuation`).

A word that is read as a name is no keyword, and one that stands for a gate is the gate's name
itself, letter by letter (`eq_name_of_ofName?`), so only a gate without a keyword can be named.
-/

namespace LogicSchematic

namespace Token

/-- Whether a character is part of the word around it. -/
def Joins (c : Char) : Prop := ofPunctuation? c = none ∧ Text.isBlank c = false

instance (c : Char) : Decidable (Joins c) := inferInstanceAs (Decidable (_ ∧ _))

theorem readChar_of_joins {c : Char} (h : Joins c) (word : List Char) (ts : List Token) :
    readChar c (word, ts) = (c :: word, ts) := by
  simp [readChar, h.1, h.2]

section

variable {P : Char → Prop}

/-- What a token can be in a text of characters with `P`: punctuation, or the token of some of the
characters that join. -/
inductive OfText (P : Char → Prop) : Token → Prop
  | punctuation {c : Char} {t : Token} : ofPunctuation? c = some t → OfText P t
  | word {cs : List Char} : cs ≠ [] → (∀ c ∈ cs, Joins c ∧ P c) → OfText P (ofWord cs)

theorem ofText_finishWord {word : List Char} {ts : List Token} (hword : ∀ c ∈ word, Joins c ∧ P c)
    (hts : ∀ t ∈ ts, t.OfText P) : ∀ t ∈ finishWord word ts, t.OfText P := by
  unfold finishWord
  split
  next => exact hts
  next hne => exact List.forall_mem_cons.mpr ⟨.word hne hword, hts⟩

/-- One more character: it joins the unfinished word, or it ends it. -/
theorem ofText_readChar {c : Char} (hc : P c) {word : List Char} {ts : List Token}
    (hword : ∀ d ∈ word, Joins d ∧ P d) (hts : ∀ t ∈ ts, t.OfText P) :
    (∀ d ∈ (readChar c (word, ts)).1, Joins d ∧ P d) ∧
      ∀ t ∈ (readChar c (word, ts)).2, t.OfText P := by
  have hfinish := ofText_finishWord hword hts
  simp only [readChar]
  split
  next t ht => exact ⟨by simp, List.forall_mem_cons.mpr ⟨.punctuation ht, hfinish⟩⟩
  next hpunctuation =>
    split
    next => exact ⟨by simp, hfinish⟩
    next hblank =>
      have hjoins : Joins c := ⟨hpunctuation, by simpa using hblank⟩
      exact ⟨List.forall_mem_cons.mpr ⟨⟨hjoins, hc⟩, hword⟩, hts⟩

theorem ofText_scan {cs : List Char} (hcs : ∀ c ∈ cs, P c) :
    (∀ d ∈ (scan cs ([], [])).1, Joins d ∧ P d) ∧ ∀ t ∈ (scan cs ([], [])).2, t.OfText P := by
  induction cs with
  | nil => simp [scan]
  | cons c cs ih =>
    rw [List.forall_mem_cons] at hcs
    obtain ⟨hword, hts⟩ := ih hcs.2
    exact ofText_readChar hcs.1 hword hts

theorem ofText_of_mem_ofCapitals {cs : List Char} (hcs : ∀ c ∈ cs, P c) :
    ∀ t ∈ ofCapitals cs, t.OfText P := by
  obtain ⟨hword, hts⟩ := ofText_scan hcs
  exact ofText_finishWord hword hts

end

/-! ## Words -/

/-- Whether some characters are a word of a text in upper case. -/
def IsWord (cs : List Char) : Prop := cs ≠ [] ∧ ∀ c ∈ cs, Joins c ∧ Text.upper c = [c]

instance (cs : List Char) : Decidable (IsWord cs) :=
  @instDecidableAnd _ _ _ (List.decidableBAll _ cs)

theorem isWord_name (g : Gate) : IsWord g.name.toList := by
  cases g <;> decide

theorem IsWord.upperCase {cs : List Char} (h : IsWord cs) : Text.upperCase cs = cs :=
  Text.upperCase_eq_self fun c hc => (h.2 c hc).2

theorem ofCapitals_of_joins {cs : List Char} (hne : cs ≠ []) (h : ∀ c ∈ cs, Joins c) :
    ofCapitals cs = [ofWord cs] := by
  have hscan : scan cs ([], []) = (cs, []) := by
    clear hne
    induction cs with
    | nil => rfl
    | cons c cs ih =>
      rw [List.forall_mem_cons] at h
      rw [← readChar_of_joins h.1, ← ih h.2]
      rfl
  rw [ofCapitals, hscan]
  exact if_neg hne

theorem ofWord_eq_ident_iff {word : List Char} {name : String} :
    ofWord word = .ident name ↔ word = name.toList ∧ Gate.ofKeyword? name = none := by
  unfold ofWord
  dsimp only
  split
  next g hg =>
    constructor
    · intro h
      cases h
    · rintro ⟨rfl, hnone⟩
      rw [String.ofList_toList, hnone] at hg
      cases hg
  next hnone =>
    constructor
    · intro h
      cases h
      exact ⟨String.toList_ofList.symm, hnone⟩
    · rintro ⟨rfl, -⟩
      rw [String.ofList_toList]

end Token

open Token

theorem tokenize_word {word : String} (h : IsWord word.toList) :
    tokenize word = [ofWord word.toList] := by
  rw [tokenize, h.upperCase, ofCapitals_of_joins h.1 fun c hc => (h.2 c hc).1]

/-- Texts on the two sides of a punctuation character are read independently. -/
theorem tokenize_append_punctuation (s s' : String) {c : Char} {t : Token}
    (h : ofPunctuation? c = some t) :
    tokenize (s ++ String.singleton c ++ s') = tokenize s ++ t :: tokenize s' := by
  have hcapital : Text.upper c = [c] := by
    unfold ofPunctuation? at h
    split at h <;> first | decide | cases h
  simp only [tokenize, String.toList_append, String.toList_singleton, Text.upperCase_append,
    Text.upperCase_cons, hcapital, List.append_assoc, List.singleton_append]
  exact ofCapitals_append_punctuation _ _ h

/-- Texts on the two sides of a space are read independently. -/
theorem tokenize_append_space (s s' : String) :
    tokenize (s ++ " " ++ s') = tokenize s ++ tokenize s' := by
  have hcapital : Text.upperCase " ".toList = [' '] := by decide
  simp only [tokenize, String.toList_append, Text.upperCase_append, hcapital, List.append_assoc,
    List.singleton_append]
  exact ofCapitals_append_blank _ _ rfl (by decide)

/-- A space in front of a text is not read. -/
theorem tokenize_space (s : String) : tokenize (" " ++ s) = tokenize s := by
  have h := tokenize_append_space "" s
  rwa [String.empty_append] at h

/-- Every token of a text is punctuation or the token of a word. -/
theorem ofText_of_mem_tokenize {text : String} {t : Token} (h : t ∈ tokenize text) :
    t.OfText fun c => Text.upper c = [c] :=
  ofText_of_mem_ofCapitals (fun _ hc => Text.upper_of_mem_upperCase hc) t h

/-- A name in a text is a word and no keyword. -/
theorem isWord_of_mem_tokenize {text name : String} (h : Token.ident name ∈ tokenize text) :
    IsWord name.toList ∧ Gate.ofKeyword? name = none := by
  generalize ht : Token.ident name = t at h
  cases ofText_of_mem_tokenize h with
  | @punctuation c _ hc =>
    subst ht
    unfold ofPunctuation? at hc
    split at hc <;> cases hc
  | @word cs hne hcs =>
    obtain ⟨rfl, hkeyword⟩ := ofWord_eq_ident_iff.mp ht.symm
    exact ⟨⟨hne, hcs⟩, hkeyword⟩

/-- A name without small letters that stands for a gate is the name of the gate. -/
theorem Gate.eq_name_of_ofName? {name : String} (hname : ∀ c ∈ name.toList, c.isLower = false)
    {g : Gate} (h : Gate.ofName? name = some g) : name = g.name := by
  have hsame := List.find?_some h
  have hcapitals : name.toList.map Char.toUpper = name.toList := by
    refine (List.map_congr_left fun c hc => ?_).trans (List.map_id _)
    exact Text.toUpper_of_isLower_eq_false (hname c hc)
  rw [hcapitals, beq_iff_eq] at hsame
  exact (String.toList_inj.mp hsame).symm

theorem Token.IsWord.isLower {cs : List Char} (h : IsWord cs) : ∀ c ∈ cs, c.isLower = false := by
  rw [← h.upperCase]
  exact fun c hc => Text.isLower_of_mem_upperCase hc

/-- A name in a text stands for no gate that has a keyword. -/
theorem keyword?_of_mem_tokenize {text name : String} (h : Token.ident name ∈ tokenize text)
    {g : Gate} (hg : Gate.ofName? name = some g) : g.keyword? = none := by
  obtain ⟨hword, hkeyword⟩ := isWord_of_mem_tokenize h
  have hname := Gate.eq_name_of_ofName? hword.isLower hg
  cases hk : g.keyword? with
  | none => rfl
  | some word =>
    have hword : word = g.name := by
      cases g <;> cases hk <;> rfl
    rw [hname, ← hword, Gate.ofKeyword?_keyword hk] at hkeyword
    cases hkeyword

end LogicSchematic
