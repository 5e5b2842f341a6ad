import LogicSchematic.Equation
import LogicSchematic.Proofs.Expr.Readers
import LogicSchematic.Proofs.Expr.Shape
import LogicSchematic.Proofs.Token

/-!
# The shape of expressions that are read

What is read is made of the tokens (`MadeOf`): every variable is named after one of them, and every
operator is one that a token stands for, over at least one operand. An inverter is the exception,
its keyword stands before the one factor it takes. One lemma for each reader leads to this
(`readExpr_madeOf`).

An inverter over other numbers of operands could only come from the call of a name for it, but in a
text this name is a keyword (`noInverterCalls_tokenize`). So every expression that is parsed is well
shaped (`wellShaped_of_parse`), and its variables are words in upper case (`isWord_of_parse`). The
expressions of equations are parsed from parts of their lines (`exists_of_mem_parseAll`).
-/

namespace LogicSchematic

namespace Expr

/-- Whether every operator has operands, and every inverter exactly one. -/
def WellShaped (e : Expr) : Prop := e.Everywhere fun o n => 0 < n ∧ (o = .gate .not → n = 1)

instance (e : Expr) : Decidable e.WellShaped := inferInstanceAs (Decidable (e.Everywhere _))

theorem WellShaped.proper {e : Expr} (h : e.WellShaped) : e.Proper := h.mono fun _ _ hp => hp.1

theorem WellShaped.unaryNot {e : Expr} (h : e.WellShaped) : e.UnaryNot := h.mono fun _ _ hp => hp.2

theorem ne_not_of_isLoose {g : Gate} (h : isLoose g = true) : g ≠ .not := by
  rintro rfl
  cases h

theorem ne_not_of_isTight {g : Gate} (h : isTight g = true) : g ≠ .not := by
  rintro rfl
  cases h

/-- Whether an expression is made of tokens among `ts`. A lenient reading takes keywords for
variables too. -/
structure MadeOf (strict : Bool) (ts : List Token) (e : Expr) : Prop where
  names : ∀ name ∈ e.occurrences,
    Token.ident name ∈ ts ∨ strict = false ∧ ∃ g : Gate, g ≠ .not ∧ name = g.name
  operators : e.Everywhere fun o n =>
    0 < n ∧ (o = .gate .not ∧ n = 1 ∨ ∃ t ∈ ts, Called t o)

section

variable {strict : Bool} {all ts rest : List Token} {e f : Expr}

theorem madeOf_op {o : Op} {es : List Expr} (hne : es ≠ [])
    (ho : o = .gate .not ∧ es.length = 1 ∨ ∃ t ∈ all, Called t o)
    (hes : ∀ e ∈ es, MadeOf strict all e) : MadeOf strict all (.op o es) := by
  constructor
  · intro name hname
    rw [occurrences, occurrencesAll_eq_flatMap] at hname
    obtain ⟨e, he, hname⟩ := List.mem_flatMap.mp hname
    exact (hes e he).names name hname
  · exact everywhere_op.mpr ⟨⟨List.length_pos_iff.mpr hne, ho⟩, fun e he => (hes e he).operators⟩

theorem madeOf_binary {g : Gate} (hg : g ≠ .not) (hmem : Token.keyword g ∈ all)
    (he : MadeOf strict all e) (hf : MadeOf strict all f) :
    MadeOf strict all (.gate g [e, f]) := by
  refine madeOf_op (List.cons_ne_nil e [f]) (.inr ⟨_, hmem, .keyword hg⟩) ?_
  simp [he, hf]

theorem madeOf_var {name : String}
    (h : Token.ident name ∈ all ∨ strict = false ∧ ∃ g : Gate, g ≠ .not ∧ name = g.name) :
    MadeOf strict all (.var name) := by
  constructor
  · simpa [occurrences] using h
  · exact everywhere_var _ name

theorem readClose_subset (hts : ts ⊆ all) (h : (readClose strict ts).Gives () rest) :
    rest ⊆ all := by
  rcases readClose_gives.mp h with rfl | ⟨-, -, rfl⟩
  · exact List.subset_of_cons_subset hts
  · exact hts

end

variable {strict : Bool} {all : List Token}

mutual

theorem readExpr_madeOf {ts rest : List Token} {e : Expr} (hts : ts ⊆ all)
    (h : (readExpr strict ts).Gives e rest) : MadeOf strict all e ∧ rest ⊆ all := by
  obtain ⟨left, mid, hleft, hmore⟩ := readExpr_gives.mp h
  obtain ⟨hl, hmid⟩ := readTerm_madeOf hts hleft
  exact readTerms_madeOf hmid hl hmore
termination_by (ts.length, 2)
decreasing_by
  · exact Prod.Lex.right _ (by decide)
  · exact Prod.Lex.left _ _ hleft.bound

theorem readTerms_madeOf {ts rest : List Token} {left e : Expr} (hts : ts ⊆ all)
    (hl : MadeOf strict all left) (h : (readTerms strict left ts).Gives e rest) :
    MadeOf strict all e ∧ rest ⊆ all := by
  rcases stops_or_keyword isLoose ts with hstop | ⟨g, us, rfl, hg⟩
  · obtain ⟨rfl, rfl⟩ := (readTerms_gives_of_stops hstop).mp h
    exact ⟨hl, hts⟩
  · obtain ⟨right, mid, hright, hmore⟩ := (readTerms_gives_keyword hg).mp h
    obtain ⟨hr, hmid⟩ := readTerm_madeOf (List.subset_of_cons_subset hts) hright
    have hop := madeOf_binary (ne_not_of_isLoose hg) (hts List.mem_cons_self) hl hr
    exact readTerms_madeOf hmid hop hmore
termination_by (ts.length, 3)
decreasing_by
  · subst_vars
    exact Prod.Lex.left _ _ (Nat.lt_succ_self _)
  · subst_vars
    exact Prod.Lex.left _ _ (Nat.lt_succ_of_lt hright.bound)

theorem readTerm_madeOf {ts rest : List Token} {e : Expr} (hts : ts ⊆ all)
    (h : (readTerm strict ts).Gives e rest) : MadeOf strict all e ∧ rest ⊆ all := by
  obtain ⟨left, mid, hleft, hmore⟩ := readTerm_gives.mp h
  obtain ⟨hl, hmid⟩ := readFactor_madeOf hts hleft
  exact readFactors_madeOf hmid hl hmore
termination_by (ts.length, 1)
decreasing_by
  · exact Prod.Lex.right _ (by decide)
  · exact Prod.Lex.left _ _ hleft.bound

theorem readFactors_madeOf {ts rest : List Token} {left e : Expr} (hts : ts ⊆ all)
    (hl : MadeOf strict all left) (h : (readFactors strict left ts).Gives e rest) :
    MadeOf strict all e ∧ rest ⊆ all := by
  rcases stops_or_keyword isTight ts with hstop | ⟨g, us, rfl, hg⟩
  · obtain ⟨rfl, rfl⟩ := (readFactors_gives_of_stops hstop).mp h
    exact ⟨hl, hts⟩
  · obtain ⟨right, mid, hright, hmore⟩ := (readFactors_gives_keyword hg).mp h
    obtain ⟨hr, hmid⟩ := readFactor_madeOf (List.subset_of_cons_subset hts) hright
    have hop := madeOf_binary (ne_not_of_isTight hg) (hts List.mem_cons_self) hl hr
    exact readFactors_madeOf hmid hop hmore
termination_by (ts.length, 3)
decreasing_by
  · subst_vars
    exact Prod.Lex.left _ _ (Nat.lt_succ_self _)
  · subst_vars
    exact Prod.Lex.left _ _ (Nat.lt_succ_of_lt hright.bound)

theorem readFactor_madeOf {ts rest : List Token} {e : Expr} (hts : ts ⊆ all)
    (h : (readFactor strict ts).Gives e rest) : MadeOf strict all e ∧ rest ⊆ all := by
  cases factorForm_of_gives h with
  | inverter us =>
    obtain ⟨f, hf, rfl⟩ := readFactor_gives_inverter.mp h
    obtain ⟨hf, hrest⟩ := readFactor_madeOf (List.subset_of_cons_subset hts) hf
    exact ⟨madeOf_op (List.cons_ne_nil f []) (.inl ⟨rfl, rfl⟩) (by simpa using hf), hrest⟩
  | group us =>
    obtain ⟨mid, he, hclose⟩ := readFactor_gives_group.mp h
    obtain ⟨he, hmid⟩ := readExpr_madeOf (List.subset_of_cons_subset hts) he
    exact ⟨he, readClose_subset hmid hclose⟩
  | call t o us ho =>
    obtain ⟨es, mid, hes, hclose, rfl⟩ := (readFactor_gives_call ho).mp h
    have hus := List.subset_of_cons_subset (List.subset_of_cons_subset hts)
    obtain ⟨hne, hes, hmid⟩ := readArguments_madeOf hus hes
    have hcalled : ∃ t ∈ all, Called t o := ⟨t, hts List.mem_cons_self, ho⟩
    exact ⟨madeOf_op hne (.inr hcalled) hes, readClose_subset hmid hclose⟩
  | name name us hus =>
    obtain ⟨rfl, rfl⟩ := (readFactor_gives_name hus).mp h
    exact ⟨madeOf_var (.inl (hts List.mem_cons_self)), List.subset_of_cons_subset hts⟩
  | keywordName g us hg hus =>
    obtain ⟨hstrict, rfl, rfl⟩ := (readFactor_gives_keywordName hg hus).mp h
    exact ⟨madeOf_var (.inr ⟨hstrict, g, hg, rfl⟩), List.subset_of_cons_subset hts⟩
termination_by (ts.length, 0)
decreasing_by
  · subst_vars
    exact Prod.Lex.left _ _ (Nat.lt_succ_self _)
  · subst_vars
    exact Prod.Lex.left _ _ (Nat.lt_succ_self _)
  · subst_vars
    exact Prod.Lex.left _ _ (Nat.lt_succ_of_lt (Nat.lt_succ_self _))

theorem readArguments_madeOf {ts rest : List Token} {es : List Expr} (hts : ts ⊆ all)
    (h : (readArguments strict ts).Gives es rest) :
    es ≠ [] ∧ (∀ e ∈ es, MadeOf strict all e) ∧ rest ⊆ all := by
  obtain ⟨e, mid, he, hmore⟩ := readArguments_gives.mp h
  obtain ⟨hmade, hmid⟩ := readExpr_madeOf hts he
  rcases hmore with ⟨us, fs, rfl, hfs, rfl⟩ | ⟨-, rfl, rfl⟩
  · obtain ⟨-, hfs, hrest⟩ := readArguments_madeOf (List.subset_of_cons_subset hmid) hfs
    exact ⟨List.cons_ne_nil e fs, List.forall_mem_cons.mpr ⟨hmade, hfs⟩, hrest⟩
  · exact ⟨List.cons_ne_nil e [], by simpa using hmade, hmid⟩
termination_by (ts.length, 3)
decreasing_by
  · exact Prod.Lex.right _ (by decide)
  · subst_vars
    exact Prod.Lex.left _ _ (Nat.lt_of_succ_lt he.bound)

end

theorem madeOf_of_ofTokens {ts : List Token} {e : Expr} (h : (ofTokens strict ts).result = .ok e) :
    MadeOf strict ts e := by
  obtain ⟨rest, hread, -⟩ := ofTokens_eq_ok_iff.mp h
  exact (readExpr_madeOf (List.Subset.refl ts) hread).1

/-- Whether no name among the tokens would be called as an inverter. -/
def NoInverterCalls (ts : List Token) : Prop :=
  ∀ name, Token.ident name ∈ ts → calledOp name ≠ .gate .not

theorem MadeOf.wellShaped {e : Expr} (h : MadeOf strict all e) (hall : NoInverterCalls all) :
    e.WellShaped := by
  refine h.operators.mono ?_
  rintro o n ⟨hpos, ⟨-, hn⟩ | ⟨t, ht, hcalled⟩⟩
  · exact ⟨hpos, fun _ => hn⟩
  · refine ⟨hpos, fun hnot => ?_⟩
    subst hnot
    cases t with
    | ident name => exact absurd (called_ident_iff.mp hcalled).symm (hall name ht)
    | keyword g =>
      cases hcalled with
      | keyword hg => exact absurd rfl hg
    | _ => cases hcalled

/-! ## Texts -/

theorem noInverterCalls_tokenize (text : String) : NoInverterCalls (tokenize text) := by
  intro name hname hcalled
  unfold calledOp at hcalled
  split at hcalled
  next g hg =>
    cases hcalled
    cases keyword?_of_mem_tokenize hname hg
  next => cases hcalled

/-- An expression that is parsed has operands everywhere, and one under every inverter. -/
theorem wellShaped_of_parse {text : String} {e : Expr} (h : (parse strict text).result = .ok e) :
    e.WellShaped :=
  (madeOf_of_ofTokens h).wellShaped (noInverterCalls_tokenize text)

/-- The variables of an expression that is parsed are words in upper case. -/
theorem isWord_of_parse {text : String} {e : Expr} (h : (parse strict text).result = .ok e) :
    ∀ name ∈ e.occurrences, Token.IsWord name.toList := by
  intro name hname
  rcases (madeOf_of_ofTokens h).names name hname with hident | ⟨-, g, -, rfl⟩
  · exact (isWord_of_mem_tokenize hident).1
  · exact Token.isWord_name g

end Expr

namespace Equation

theorem exists_of_mem_parseLines {strict : Bool} {index : Nat} {lines : List (Nat × String)}
    {equations : List (Nat × Equation)}
    (h : (parseLines strict index lines).result = .ok equations) :
    ∀ p ∈ equations, ∃ text, (Expr.parse strict text).result = .ok p.2.expr := by
  induction lines generalizing index equations with
  | nil =>
    cases h
    simp
  | cons line lines ih =>
    obtain ⟨e, he, h⟩ := Reading.bind_result_eq_ok_iff.mp h
    obtain ⟨es, hes, h⟩ := Reading.bind_result_eq_ok_iff.mp h
    cases h
    refine List.forall_mem_cons.mpr ⟨?_, ih hes⟩
    rw [Reading.mapError_result_eq_ok_iff] at he
    obtain ⟨expr, hexpr, he⟩ := Reading.bind_result_eq_ok_iff.mp he
    cases he
    exact ⟨_, hexpr⟩

/-- The expression of every equation is parsed from a part of its line. -/
theorem exists_of_mem_parseAll {strict : Bool} {text : String} {equations : List (Nat × Equation)}
    (h : (parseAll strict text).result = .ok equations) :
    ∀ p ∈ equations, ∃ text, (Expr.parse strict text).result = .ok p.2.expr :=
  exists_of_mem_parseLines h

end Equation

end LogicSchematic
