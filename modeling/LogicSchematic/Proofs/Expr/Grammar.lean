import LogicSchematic.Proofs.Expr.Readers
import Mathlib

/-!
# The grammar of expressions

`Derives ts p rest` says that some tokens in front of `ts` are the phrase `p` and that `rest`
follows them. The rules are those of the grammar

* `Expression := Term ((OR | NOR | XOR | XNOR) Term)*`
* `Term := Factor ((AND | NAND) Factor)*`
* `Factor := NOT Factor | ( Expression ) | Name | Called ( Expression (, Expression)* )`

and each phrase carries its tree. They say nothing of how far a repetition goes: a chain of
operators may be left at any of them. A reader is greedy instead, and this loses nothing, because
what follows a phrase in a derivation of a whole text never goes on with it (`read_of_derives`,
whose hypotheses are what has to stop in front of the rest). Together with the other direction, one
lemma for each reader, a strict reading accepts exactly the grammar (`ofTokens_strict_iff`).
-/

namespace LogicSchematic.Expr

/-- What some tokens can be, with its tree. -/
inductive Phrase where
  | expression (e : Expr)
  /-- Operators between terms, each with the term after it. -/
  | terms (more : List (Gate × Expr))
  | term (e : Expr)
  /-- Operators between factors, each with the factor after it. -/
  | factors (more : List (Gate × Expr))
  | factor (e : Expr)
  /-- Expressions with commas between. -/
  | arguments (es : List Expr)

/-- The tree of a chain of operators, grouped from the left. -/
def chain (first : Expr) (more : List (Gate × Expr)) : Expr :=
  more.foldl (fun left (g, right) => .gate g [left, right]) first

/-- Whether some tokens in front of the first list are a phrase, and the second list follows. -/
inductive Derives : List Token → Phrase → List Token → Prop
  | expression {ts us vs : List Token} {e : Expr} {more : List (Gate × Expr)} :
      Derives ts (.term e) us → Derives us (.terms more) vs →
      Derives ts (.expression (chain e more)) vs
  | noTerms {ts : List Token} : Derives ts (.terms []) ts
  | moreTerms {ts us vs : List Token} {g : Gate} {e : Expr} {more : List (Gate × Expr)} :
      g ∈ [Gate.or, .nor, .xor, .xnor] → Derives ts (.term e) us → Derives us (.terms more) vs →
      Derives (.keyword g :: ts) (.terms ((g, e) :: more)) vs
  | term {ts us vs : List Token} {e : Expr} {more : List (Gate × Expr)} :
      Derives ts (.factor e) us → Derives us (.factors more) vs →
      Derives ts (.term (chain e more)) vs
  | noFactors {ts : List Token} : Derives ts (.factors []) ts
  | moreFactors {ts us vs : List Token} {g : Gate} {e : Expr} {more : List (Gate × Expr)} :
      g ∈ [Gate.and, .nand] → Derives ts (.factor e) us → Derives us (.factors more) vs →
      Derives (.keyword g :: ts) (.factors ((g, e) :: more)) vs
  | inverter {ts us : List Token} {e : Expr} :
      Derives ts (.factor e) us → Derives (.keyword .not :: ts) (.factor (.gate .not [e])) us
  | group {ts us : List Token} {e : Expr} :
      Derives ts (.expression e) (.closeParen :: us) → Derives (.openParen :: ts) (.factor e) us
  | name {ts : List Token} {name : String} :
      ts.head? ≠ some .openParen → Derives (.ident name :: ts) (.factor (.var name)) ts
  | call {ts us : List Token} {t : Token} {o : Op} {es : List Expr} :
      Called t o → Derives ts (.arguments es) (.closeParen :: us) →
      Derives (t :: .openParen :: ts) (.factor (.op o es)) us
  | lastArgument {ts us : List Token} {e : Expr} :
      Derives ts (.expression e) us → Derives ts (.arguments [e]) us
  | moreArguments {ts us vs : List Token} {e : Expr} {es : List Expr} :
      Derives ts (.expression e) (.comma :: us) → Derives us (.arguments es) vs →
      Derives ts (.arguments (e :: es)) vs

variable {ts rest : List Token}

theorem isLoose_iff_mem {g : Gate} : isLoose g = true ↔ g ∈ [Gate.or, .nor, .xor, .xnor] := by
  cases g <;> decide

theorem isTight_iff_mem {g : Gate} : isTight g = true ↔ g ∈ [Gate.and, .nand] := by
  cases g <;> decide

/-! ## What is read is derived -/

theorem closes_of_gives (h : (readClose true ts).Gives () rest) : ts = .closeParen :: rest := by
  rcases readClose_gives.mp h with h | ⟨h, -⟩
  · exact h
  · cases h

mutual

theorem readExpr_derives {ts rest : List Token} {e : Expr} (h : (readExpr true ts).Gives e rest) :
    Derives ts (.expression e) rest := by
  obtain ⟨left, mid, hleft, hmore⟩ := readExpr_gives.mp h
  obtain ⟨more, hterms, rfl⟩ := readTerms_derives hmore
  exact .expression (readTerm_derives hleft) hterms
termination_by (ts.length, 2)
decreasing_by
  · exact Prod.Lex.left _ _ hleft.bound
  · exact Prod.Lex.right _ (by decide)

theorem readTerms_derives {ts rest : List Token} {left e : Expr}
    (h : (readTerms true left ts).Gives e rest) :
    ∃ more, Derives ts (.terms more) rest ∧ chain left more = e := by
  rcases stops_or_keyword isLoose ts with hstop | ⟨g, us, rfl, hg⟩
  · obtain ⟨rfl, rfl⟩ := (readTerms_gives_of_stops hstop).mp h
    exact ⟨[], .noTerms, rfl⟩
  · obtain ⟨right, mid, hright, hmore⟩ := (readTerms_gives_keyword hg).mp h
    obtain ⟨more, hterms, rfl⟩ := readTerms_derives hmore
    have hterm := readTerm_derives hright
    exact ⟨(g, right) :: more, .moreTerms (isLoose_iff_mem.mp hg) hterm hterms, rfl⟩
termination_by (ts.length, 3)
decreasing_by
  · subst_vars
    exact Prod.Lex.left _ _ (Nat.lt_succ_of_lt hright.bound)
  · subst_vars
    exact Prod.Lex.left _ _ (Nat.lt_succ_self _)

theorem readTerm_derives {ts rest : List Token} {e : Expr} (h : (readTerm true ts).Gives e rest) :
    Derives ts (.term e) rest := by
  obtain ⟨left, mid, hleft, hmore⟩ := readTerm_gives.mp h
  obtain ⟨more, hfactors, rfl⟩ := readFactors_derives hmore
  exact .term (readFactor_derives hleft) hfactors
termination_by (ts.length, 1)
decreasing_by
  · exact Prod.Lex.left _ _ hleft.bound
  · exact Prod.Lex.right _ (by decide)

theorem readFactors_derives {ts rest : List Token} {left e : Expr}
    (h : (readFactors true left ts).Gives e rest) :
    ∃ more, Derives ts (.factors more) rest ∧ chain left more = e := by
  rcases stops_or_keyword isTight ts with hstop | ⟨g, us, rfl, hg⟩
  · obtain ⟨rfl, rfl⟩ := (readFactors_gives_of_stops hstop).mp h
    exact ⟨[], .noFactors, rfl⟩
  · obtain ⟨right, mid, hright, hmore⟩ := (readFactors_gives_keyword hg).mp h
    obtain ⟨more, hfactors, rfl⟩ := readFactors_derives hmore
    have hfactor := readFactor_derives hright
    exact ⟨(g, right) :: more, .moreFactors (isTight_iff_mem.mp hg) hfactor hfactors, rfl⟩
termination_by (ts.length, 3)
decreasing_by
  · subst_vars
    exact Prod.Lex.left _ _ (Nat.lt_succ_of_lt hright.bound)
  · subst_vars
    exact Prod.Lex.left _ _ (Nat.lt_succ_self _)

theorem readFactor_derives {ts rest : List Token} {e : Expr}
    (h : (readFactor true ts).Gives e rest) : Derives ts (.factor e) rest := by
  cases factorForm_of_gives h with
  | inverter us =>
    obtain ⟨f, hf, rfl⟩ := readFactor_gives_inverter.mp h
    exact .inverter (readFactor_derives hf)
  | group us =>
    obtain ⟨mid, he, hclose⟩ := readFactor_gives_group.mp h
    obtain rfl := closes_of_gives hclose
    exact .group (readExpr_derives he)
  | call t o us ho =>
    obtain ⟨es, mid, hes, hclose, rfl⟩ := (readFactor_gives_call ho).mp h
    obtain rfl := closes_of_gives hclose
    exact .call ho (readArguments_derives hes)
  | name name us hus =>
    obtain ⟨rfl, rfl⟩ := (readFactor_gives_name hus).mp h
    exact .name hus
  | keywordName g us hg hus =>
    obtain ⟨hstrict, -⟩ := (readFactor_gives_keywordName hg hus).mp h
    cases hstrict
termination_by (ts.length, 0)
decreasing_by
  · subst_vars
    exact Prod.Lex.left _ _ (Nat.lt_succ_self _)
  · subst_vars
    exact Prod.Lex.left _ _ (Nat.lt_succ_self _)
  · subst_vars
    exact Prod.Lex.left _ _ (Nat.lt_succ_of_lt (Nat.lt_succ_self _))

theorem readArguments_derives {ts rest : List Token} {es : List Expr}
    (h : (readArguments true ts).Gives es rest) : Derives ts (.arguments es) rest := by
  obtain ⟨e, mid, he, hmore⟩ := readArguments_gives.mp h
  rcases hmore with ⟨us, fs, rfl, hfs, rfl⟩ | ⟨-, rfl, rfl⟩
  · exact .moreArguments (readExpr_derives he) (readArguments_derives hfs)
  · exact .lastArgument (readExpr_derives he)
termination_by (ts.length, 3)
decreasing_by
  · exact Prod.Lex.right _ (by decide)
  · exact Prod.Lex.left _ _ (Nat.lt_of_succ_lt he.bound)
  · exact Prod.Lex.right _ (by decide)

end

/-! ## What is derived is read -/

/-- What has to stop in front of the rest for a phrase to be read to its end. -/
def Phrase.EndsAt (rest : List Token) : Phrase → Prop
  | .expression _ | .terms _ => Stops isLoose rest ∧ Stops isTight rest
  | .term _ | .factors _ => Stops isTight rest
  | .factor _ => True
  | .arguments _ => Stops isLoose rest ∧ Stops isTight rest ∧ rest.head? ≠ some .comma

/-- Whether the reader of a phrase gives it. -/
def Phrase.IsRead (strict : Bool) (ts rest : List Token) : Phrase → Prop
  | .expression e => (readExpr strict ts).Gives e rest
  | .terms more => ∀ left, (readTerms strict left ts).Gives (chain left more) rest
  | .term e => (readTerm strict ts).Gives e rest
  | .factors more => ∀ left, (readFactors strict left ts).Gives (chain left more) rest
  | .factor e => (readFactor strict ts).Gives e rest
  | .arguments es => (readArguments strict ts).Gives es rest

/-- A term ends where operators between terms go on. -/
theorem stops_of_derives_terms {more : List (Gate × Expr)} (h : Derives ts (.terms more) rest)
    (hrest : Stops isTight rest) : Stops isTight ts := by
  cases h with
  | noTerms => exact hrest
  | @moreTerms _ _ _ g _ _ hg =>
    show isTight g = false
    rw [← isLoose_iff_mem] at hg
    cases g <;> first | rfl | cases hg

/-- Every derivation is found, in a strict and in a lenient reading, if its end is one. -/
theorem read_of_derives {strict : Bool} {p : Phrase} (h : Derives ts p rest)
    (hend : p.EndsAt rest) : p.IsRead strict ts rest := by
  induction h with
  | expression _ hmore ihterm ihmore =>
    have hterm := ihterm (stops_of_derives_terms hmore hend.2)
    exact readExpr_gives.mpr ⟨_, _, hterm, ihmore hend _⟩
  | noTerms => exact fun left => (readTerms_gives_of_stops hend.1).mpr ⟨rfl, rfl⟩
  | moreTerms hg _ hmore ihterm ihmore =>
    intro left
    have hterm := ihterm (stops_of_derives_terms hmore hend.2)
    exact (readTerms_gives_keyword (isLoose_iff_mem.mpr hg)).mpr ⟨_, _, hterm, ihmore hend _⟩
  | term _ _ ihfactor ihmore =>
    exact readTerm_gives.mpr ⟨_, _, ihfactor trivial, ihmore hend _⟩
  | noFactors => exact fun left => (readFactors_gives_of_stops hend).mpr ⟨rfl, rfl⟩
  | moreFactors hg _ _ ihfactor ihmore =>
    intro left
    exact (readFactors_gives_keyword (isTight_iff_mem.mpr hg)).mpr
      ⟨_, _, ihfactor trivial, ihmore hend _⟩
  | inverter _ ih => exact readFactor_gives_inverter.mpr ⟨_, ih trivial, rfl⟩
  | group _ ih =>
    exact readFactor_gives_group.mpr ⟨_, ih ⟨trivial, trivial⟩, readClose_gives.mpr (.inl rfl)⟩
  | name hrest => exact (readFactor_gives_name hrest).mpr ⟨rfl, rfl⟩
  | call ho _ ih =>
    have harguments := ih ⟨trivial, trivial, by simp⟩
    exact (readFactor_gives_call ho).mpr
      ⟨_, _, harguments, readClose_gives.mpr (.inl rfl), rfl⟩
  | lastArgument _ ih =>
    exact readArguments_gives.mpr ⟨_, _, ih ⟨hend.1, hend.2.1⟩, .inr ⟨hend.2.2, rfl, rfl⟩⟩
  | moreArguments _ _ ihe ihes =>
    exact readArguments_gives.mpr ⟨_, _, ihe ⟨trivial, trivial⟩, .inl ⟨_, _, rfl, ihes hend, rfl⟩⟩

/-- A strict reading accepts exactly the texts of the grammar, each with its tree; so a text has at
most one tree. -/
theorem ofTokens_strict_iff (ts : List Token) :
    (∀ e, (ofTokens true ts).result = .ok e ↔ Derives ts (.expression e) []) ∧
      ∀ e f, Derives ts (.expression e) [] → Derives ts (.expression f) [] → e = f := by
  have haccepts : ∀ e, (ofTokens true ts).result = .ok e ↔ Derives ts (.expression e) [] := by
    intro e
    rw [ofTokens_eq_ok_iff]
    constructor
    · rintro ⟨rest, hread, hrest⟩
      obtain rfl := hrest rfl
      exact readExpr_derives hread
    · intro h
      exact ⟨[], read_of_derives h ⟨trivial, trivial⟩, fun _ => rfl⟩
  refine ⟨haccepts, fun e f he hf => ?_⟩
  have hresult := ((haccepts e).mpr he).symm.trans ((haccepts f).mpr hf)
  exact Except.ok.inj hresult

/-- `NOT A NAND (MUX(B, XOR(C)) OR D)`: an inverter goes with the factor after it, and a call has
the arguments it is given. -/
theorem ofTokens_strict_iff_call :
    let ts : List Token := [.keyword .not, .ident "A", .keyword .nand, .openParen, .ident "MUX",
      .openParen, .ident "B", .comma, .keyword .xor, .openParen, .ident "C", .closeParen,
      .closeParen, .keyword .or, .ident "D", .closeParen]
    let e : Expr := .gate .nand [.gate .not [.var "A"],
      .gate .or [.op (.call "MUX") [.var "B", .gate .xor [.var "C"]], .var "D"]]
    (ofTokens true ts).result = .ok e ∧ Derives ts (.expression e) [] ∧
      ∀ f, Derives ts (.expression f) [] → e = f := by
  intro ts e
  have hread : (ofTokens true ts).result = .ok e := by cbv
  have hderives := ((ofTokens_strict_iff ts).1 e).mp hread
  exact ⟨hread, hderives, fun f => (ofTokens_strict_iff ts).2 e f hderives⟩

end LogicSchematic.Expr
