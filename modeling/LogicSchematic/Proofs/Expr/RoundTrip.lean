import LogicSchematic.Proofs.Expr.Parsed
import Mathlib

/-!
# Writing and reading again

The text of an expression writes every operator as a call. Its tokens are those of the tree
(`tokenize_text`), and reading them in front of anything but an opening parenthesis gives the tree
back (`readFactor_tokens`), provided that the tree is writable: its names are words that are read as
names, its operators words that are called as the operator (`Writable`). The inverter is read as a
prefix operator before a group instead, which comes to the same for one operand.

A lenient reading takes keywords for names. Written out, such a name is a keyword again, and is
taken for a name again because no parenthesis follows it.

What is parsed is writable (`writable_of_parse`) and stays so when it is flattened
(`Writable.flatten`), so both are read back from their texts (`parse_text_of_parse`).
-/

namespace LogicSchematic.Expr

open Token Reading

variable {strict : Bool} {e : Expr} {ts rest : List Token}

/-! ## The tokens of a tree -/

mutual

/-- The tokens of an expression, every operator written as a call. -/
def tokens : Expr → List Token
  | .var name => [ofWord name.toList]
  | .op o es => ofWord o.text.toList :: .openParen :: [.comma].intercalate (tokensAll es) ++
      [.closeParen]

/-- The tokens of several expressions. -/
def tokensAll : List Expr → List (List Token)
  | [] => []
  | e :: es => tokens e :: tokensAll es

end

@[simp] theorem tokensAll_eq_map (es : List Expr) : tokensAll es = es.map tokens := by
  induction es <;> simp_all [tokensAll]

theorem tokens_op_append (o : Op) (es : List Expr) (rest : List Token) :
    (Expr.op o es).tokens ++ rest = ofWord o.text.toList :: .openParen ::
      ([.comma].intercalate (es.map tokens) ++ .closeParen :: rest) := by
  simp [tokens]

theorem intercalate_tokens_append (e f : Expr) (es : List Expr) (rest : List Token) :
    [.comma].intercalate ((e :: f :: es).map tokens) ++ rest =
      e.tokens ++ .comma :: ([.comma].intercalate ((f :: es).map tokens) ++ rest) := by
  simp [List.intercalate_cons_cons]

/-- Whether the words of an expression are read as what they stand for. -/
structure Writable (strict : Bool) (e : Expr) : Prop where
  names : ∀ name ∈ e.occurrences, IsWord name.toList ∧ (ofWord name.toList = .ident name ∨
    strict = false ∧ ∃ g : Gate, g ≠ .not ∧ ofWord name.toList = .keyword g ∧ name = g.name)
  operators : e.Everywhere fun o n => 0 < n ∧ IsWord o.text.toList ∧
    (ofWord o.text.toList = .keyword .not ∧ o = .gate .not ∧ n = 1 ∨
      Called (ofWord o.text.toList) o)

theorem Writable.operand {o : Op} {es : List Expr} (h : (Expr.op o es).Writable strict)
    (he : e ∈ es) : e.Writable strict := by
  constructor
  · intro name hname
    apply h.names
    rw [occurrences, occurrencesAll_eq_flatMap]
    exact List.mem_flatMap.mpr ⟨e, he, hname⟩
  · exact (everywhere_op.mp h.operators).2 e he

theorem tokenize_intercalate (texts : List String) :
    tokenize (", ".intercalate texts) = [.comma].intercalate (texts.map tokenize) := by
  induction texts with
  | nil => decide
  | cons s texts ih =>
    cases texts with
    | nil => simp
    | cons s' texts =>
      have hcomma : ", " = String.singleton ',' ++ " " := rfl
      have hcut : s ++ ", " ++ ", ".intercalate (s' :: texts) =
          s ++ String.singleton ',' ++ (" " ++ ", ".intercalate (s' :: texts)) := by
        simp only [hcomma, String.append_assoc]
      rw [String.intercalate_cons_cons, hcut, tokenize_append_punctuation s _ rfl,
        tokenize_space, ih]
      simp [List.intercalate_cons_cons]

/-- The text of a tree has the tokens of the tree. -/
theorem tokenize_text (h : e.Writable strict) : tokenize e.text = e.tokens := by
  induction e with
  | var name =>
    rw [text, tokens]
    exact tokenize_word (h.names name (by simp [occurrences])).1
  | op o es ih =>
    have hoperands : (es.map text).map tokenize = es.map tokens := by
      rw [List.map_map]
      exact List.map_congr_left fun e he => ih e he (h.operand he)
    have hword : tokenize o.text = [ofWord o.text.toList] :=
      tokenize_word (everywhere_op.mp h.operators).1.2.1
    have hparens : (Expr.op o es).text = o.text ++ String.singleton '(' ++
        (", ".intercalate (es.map text) ++ String.singleton ')' ++ "") := by
      rw [text, textAll_eq_map, String.append_empty, ← String.append_assoc]
      rfl
    rw [hparens, tokenize_append_punctuation _ _ rfl, tokenize_append_punctuation _ _ rfl, hword,
      tokenize_intercalate, hoperands, tokens, tokensAll_eq_map]
    rfl

/-! ## Reading the tokens of a tree -/

/-- A factor is a whole expression where no operator follows. -/
theorem readExpr_gives_of_factor (h : (readFactor strict ts).Gives e rest)
    (hloose : Stops isLoose rest) (htight : Stops isTight rest) :
    (readExpr strict ts).Gives e rest := by
  have hterm : (readTerm strict ts).Gives e rest :=
    readTerm_gives.mpr ⟨e, rest, h, (readFactors_gives_of_stops htight).mpr ⟨rfl, rfl⟩⟩
  exact readExpr_gives.mpr ⟨e, rest, hterm, (readTerms_gives_of_stops hloose).mpr ⟨rfl, rfl⟩⟩

/-- Operands with commas between, if each of them is read in front of anything that can follow. -/
theorem readArguments_tokens {es : List Expr} (hne : es ≠ [])
    (h : ∀ e ∈ es, ∀ rest : List Token, rest.head? ≠ some .openParen →
      (readFactor strict (e.tokens ++ rest)).Gives e rest) :
    (readArguments strict ([.comma].intercalate (es.map tokens) ++ .closeParen :: rest)).Gives es
      (.closeParen :: rest) := by
  induction es with
  | nil => exact absurd rfl hne
  | cons e es ih =>
    rw [List.forall_mem_cons] at h
    obtain ⟨he, hes⟩ := h
    rw [readArguments_gives]
    cases es with
    | nil =>
      rw [List.map_singleton, List.intercalate_singleton]
      have hread := readExpr_gives_of_factor (he (.closeParen :: rest) (by simp)) trivial trivial
      exact ⟨e, _, hread, .inr ⟨by simp, rfl, rfl⟩⟩
    | cons f fs =>
      rw [intercalate_tokens_append]
      have hread := readExpr_gives_of_factor (he (.comma :: ([.comma].intercalate
        ((f :: fs).map tokens) ++ .closeParen :: rest)) (by simp)) trivial trivial
      exact ⟨e, _, hread, .inl ⟨_, f :: fs, rfl, ih (List.cons_ne_nil f fs) hes, rfl⟩⟩

/-- The tokens of a tree are read as one factor. -/
theorem readFactor_tokens (h : e.Writable strict) (hrest : rest.head? ≠ some .openParen) :
    (readFactor strict (e.tokens ++ rest)).Gives e rest := by
  induction e generalizing rest with
  | var name =>
    rw [tokens, List.singleton_append]
    obtain ⟨-, hident | ⟨hstrict, g, hg, hkeyword, hname⟩⟩ :=
      h.names name (by simp [occurrences])
    · rw [hident]
      exact (readFactor_gives_name hrest).mpr ⟨rfl, rfl⟩
    · rw [hkeyword]
      exact (readFactor_gives_keywordName hg hrest).mpr ⟨hstrict, congrArg _ hname.symm, rfl⟩
  | op o es ih =>
    have hes : ∀ e ∈ es, ∀ rest : List Token, rest.head? ≠ some .openParen →
        (readFactor strict (e.tokens ++ rest)).Gives e rest :=
      fun e he _ hhead => ih e he (h.operand he) hhead
    rw [tokens_op_append]
    obtain ⟨hpos, -, ⟨hnot, rfl, hlen⟩ | hcalled⟩ := (everywhere_op.mp h.operators).1
    · obtain ⟨f, rfl⟩ := List.length_eq_one_iff.mp hlen
      have hgroup : (readFactor strict (.openParen :: (f.tokens ++ .closeParen :: rest))).Gives f
          rest := by
        have hf := hes f (by simp) (.closeParen :: rest) (by simp)
        exact readFactor_gives_group.mpr ⟨_, readExpr_gives_of_factor hf trivial trivial,
          readClose_gives.mpr (.inl rfl)⟩
      rw [hnot, List.map_singleton, List.intercalate_singleton]
      exact readFactor_gives_inverter.mpr ⟨f, hgroup, rfl⟩
    · have hne := List.length_pos_iff.mp hpos
      exact (readFactor_gives_call hcalled).mpr
        ⟨es, _, readArguments_tokens hne hes, readClose_gives.mpr (.inl rfl), rfl⟩

/-- What is writable is read back from its text. -/
theorem Writable.parse_text (h : e.Writable strict) : (parse strict e.text).result = .ok e := by
  rw [parse, tokenize_text h, ofTokens_eq_ok_iff]
  have hread : (readFactor strict (e.tokens ++ [])).Gives e [] := readFactor_tokens h (by simp)
  rw [List.append_nil] at hread
  exact ⟨[], readExpr_gives_of_factor hread trivial trivial, fun _ => rfl⟩

/-! ## What is parsed is writable -/

theorem ofWord_name (g : Gate) :
    ofWord g.name.toList = .keyword g ∨ ofWord g.name.toList = .ident g.name := by
  cases g <;> decide

/-- Gates other than the inverter are called by their names. -/
theorem called_ofWord_name {g : Gate} (hg : g ≠ .not) :
    Called (ofWord g.name.toList) (.gate g) := by
  rcases ofWord_name g with h | h
  · rw [h]
    exact .keyword hg
  · rw [h]
    exact .gateName (Gate.ofName?_name g)

theorem writable_of_parse {text : String} (h : (parse strict text).result = .ok e) :
    e.Writable strict := by
  have hmade := madeOf_of_ofTokens h
  have hshaped := wellShaped_of_parse h
  constructor
  · intro name hname
    refine ⟨isWord_of_parse h name hname, ?_⟩
    rcases hmade.names name hname with hident | ⟨hstrict, g, hg, rfl⟩
    · exact .inl (ofWord_eq_ident_iff.mpr ⟨rfl, (isWord_of_mem_tokenize hident).2⟩)
    · rcases ofWord_name g with hkeyword | hident
      · exact .inr ⟨hstrict, g, hg, hkeyword, rfl⟩
      · exact .inl hident
  · refine (hmade.operators.and hshaped).mono ?_
    rintro o n ⟨⟨hpos, hcalled⟩, -, hnot⟩
    refine ⟨hpos, ?_⟩
    cases o with
    | gate g =>
      refine ⟨isWord_name g, ?_⟩
      by_cases hg : g = .not
      · subst hg
        exact .inl ⟨by decide, rfl, hnot rfl⟩
      · exact .inr (called_ofWord_name hg)
    | call name =>
      obtain ⟨⟨⟩, -⟩ | ⟨t, ht, hcalled⟩ := hcalled
      cases hcalled with
      | otherName hother =>
        obtain ⟨hword, hkeyword⟩ := isWord_of_mem_tokenize ht
        refine ⟨hword, .inr ?_⟩
        have hident : ofWord name.toList = .ident name := ofWord_eq_ident_iff.mpr ⟨rfl, hkeyword⟩
        show Called (ofWord name.toList) _
        rw [hident]
        exact .otherName hother

theorem Writable.flatten (h : e.Writable strict) : e.flatten.Writable strict := by
  constructor
  · rw [occurrences_flatten]
    exact h.names
  · refine flatten_everywhere (fun _ _ hp => hp.1) ?_ h.operators
    intro g n hmerged hpos
    refine ⟨hpos, isWord_name g, .inr (called_ofWord_name ?_)⟩
    rintro rfl
    cases hmerged

/-- What is parsed from a text is parsed again from its own text, and so is its flattening. -/
theorem parse_text_of_parse {strict : Bool} {text : String} {e : Expr}
    (h : (parse strict text).result = .ok e) :
    (parse strict e.text).result = .ok e ∧
      (parse strict e.flatten.text).result = .ok e.flatten :=
  ⟨(writable_of_parse h).parse_text, (writable_of_parse h).flatten.parse_text⟩

/-- A lenient reading with keywords for names, a letter with two capitals, and a rest that is left:
the text that is written has the keywords in the places of names. -/
theorem parse_text_of_parse_keyword :
    let e : Expr := .gate .not [.gate .nand4 [.var "A", .var "OR",
      .op (.call "MUX") [.var "XOR", .gate .and [.var "SS", .gate .and [.var "B", .var "C"]]]]]
    (parse false "not nand4(a, or, mux(xor, ß and (b and c))) = d").result = .ok e ∧
      e.text = "NOT(NAND4(A, OR, MUX(XOR, AND(SS, AND(B, C)))))" ∧
      (parse false "NOT(NAND4(A, OR, MUX(XOR, AND(SS, AND(B, C)))))").result = .ok e ∧
      (parse false "NOT(NAND4(A, OR, MUX(XOR, AND(SS, B, C))))").result = .ok e.flatten := by
  intro e
  have hread : (parse false "not nand4(a, or, mux(xor, ß and (b and c))) = d").result = .ok e := by
    cbv
  have htext : e.text = "NOT(NAND4(A, OR, MUX(XOR, AND(SS, AND(B, C)))))" := by decide
  have hflat : e.flatten.text = "NOT(NAND4(A, OR, MUX(XOR, AND(SS, B, C))))" := by decide
  have hagain := parse_text_of_parse hread
  rw [htext, hflat] at hagain
  exact ⟨hread, htext, hagain⟩

end LogicSchematic.Expr
