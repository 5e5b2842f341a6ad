import LogicSchematic.Expr.Parser
import LogicSchematic.Proofs.Except

/-!
# What the readers of expressions do

A reader that ends well gives something and leaves a rest: `r.Gives a rest`. Every reader of the
grammar is opened here once, into what the readers it calls give: `readExpr_gives` to
`readArguments_gives` for the ones that read in sequence, and for a factor one lemma for each form
it has (`FactorForm`, `factorForm_of_gives`). What is proved about reading goes by these lemmas and
by the length of the tokens left, and looks into no reader again.

The statements are equivalences: read forwards they say what an expression that was read is made of,
read backwards how to have it read.
-/

namespace LogicSchematic

namespace Reading

variable {ε ε' α β : Type}

theorem bind_result_eq_ok_iff {r : Reading ε α} {f : α → Reading ε β} {b : β} :
    (r >>= f).result = .ok b ↔ ∃ a, r.result = .ok a ∧ (f a).result = .ok b := by
  cases h : r.result with
  | ok a => simp [Reading.bind_of_ok h]
  | error e => simp [Reading.bind_of_error h]

theorem mapError_result_eq_ok_iff {f : ε → ε'} {r : Reading ε α} {a : α} :
    (r.mapError f).result = .ok a ↔ r.result = .ok a :=
  Except.mapError_eq_ok_iff

variable {P : α × List Token → Prop} {Q : β × List Token → Prop} {rest rest' : List Token}

/-- Whether a reader ends well with `a` and leaves `rest`. -/
def Gives (r : Reading ε { p : α × List Token // P p }) (a : α) (rest : List Token) : Prop :=
  ∃ h, r.result = .ok ⟨(a, rest), h⟩

/-- What the type of a reader says of the rest it leaves. -/
theorem Gives.bound {r : Reading ε { p : α × List Token // P p }} {a : α} (h : r.Gives a rest) :
    P (a, rest) := h.1

theorem gives_of_result {r : Reading ε { p : α × List Token // P p }}
    {p : { p : α × List Token // P p }} (h : r.result = .ok p) : r.Gives p.1.1 p.1.2 :=
  ⟨p.2, h⟩

theorem gives_pure {a b : α} {h : P (a, rest)} :
    (pure ⟨(a, rest), h⟩ : Reading ε { p : α × List Token // P p }).Gives b rest' ↔
      a = b ∧ rest = rest' := by
  constructor
  · rintro ⟨_, hr⟩
    cases hr
    exact ⟨rfl, rfl⟩
  · rintro ⟨rfl, rfl⟩
    exact ⟨h, rfl⟩

theorem not_gives_fail {e : ε} {a : α} :
    ¬ (fail e : Reading ε { p : α × List Token // P p }).Gives a rest := by
  rintro ⟨_, hr⟩
  cases hr

theorem gives_bind {r : Reading ε { p : α × List Token // P p }}
    {f : { p : α × List Token // P p } → Reading ε { p : β × List Token // Q p }} {b : β} :
    (r >>= f).Gives b rest ↔
      ∃ a mid, ∃ h : r.Gives a mid, (f ⟨(a, mid), h.bound⟩).Gives b rest := by
  constructor
  · rintro ⟨h, hr⟩
    obtain ⟨⟨⟨a, mid⟩, hmid⟩, hfirst, hr⟩ := bind_result_eq_ok_iff.mp hr
    exact ⟨a, mid, ⟨hmid, hfirst⟩, h, hr⟩
  · rintro ⟨a, mid, ⟨hmid, hfirst⟩, h, hr⟩
    exact ⟨h, bind_result_eq_ok_iff.mpr ⟨_, hfirst, hr⟩⟩

/-- A reader that only rearranges what another one gives. -/
theorem gives_bind_pure {r : Reading ε { p : α × List Token // P p }}
    {g : { p : α × List Token // P p } → { p : β × List Token // Q p }} {b : β} :
    (r >>= fun p => pure (g p)).Gives b rest ↔
      ∃ a mid, ∃ h : r.Gives a mid, (g ⟨(a, mid), h.bound⟩).1 = (b, rest) := by
  rw [gives_bind]
  refine exists_congr fun a => exists_congr fun mid => exists_congr fun h => ?_
  rw [show g ⟨(a, mid), h.bound⟩ = ⟨((g ⟨(a, mid), h.bound⟩).1.1, (g ⟨(a, mid), h.bound⟩).1.2),
    (g ⟨(a, mid), h.bound⟩).2⟩ from rfl, gives_pure, Prod.ext_iff]

/-- Only a lenient reading gets past a defect. -/
theorem gives_tolerate {d : Defect} {strict : Bool} {a : α}
    {f : Unit → Reading ParseError { p : α × List Token // P p }} :
    (tolerate strict d >>= f).Gives a rest ↔ strict = false ∧ (f ()).Gives a rest := by
  cases strict with
  | true =>
    constructor
    · rintro ⟨_, hr⟩
      cases hr
    · rintro ⟨h, -⟩
      cases h
  | false =>
    constructor
    · rintro ⟨h, hr⟩
      obtain ⟨u, -, hr⟩ := bind_result_eq_ok_iff.mp hr
      exact ⟨rfl, h, hr⟩
    · rintro ⟨-, h, hr⟩
      exact ⟨h, bind_result_eq_ok_iff.mpr ⟨(), rfl, hr⟩⟩

end Reading

namespace Expr

open Reading

variable {strict : Bool} {left e : Expr} {ts rest : List Token}

theorem ne_cons_of_head?_ne {t : Token} (h : ts.head? ≠ some t) (us : List Token) :
    ts ≠ t :: us := by
  rintro rfl
  exact h rfl

theorem head?_ne_of_ne_cons {t : Token} (h : ∀ us, ts = t :: us → False) : ts.head? ≠ some t := by
  intro hhead
  obtain ⟨us, hus⟩ := List.head?_eq_some_iff.mp hhead
  exact h us hus

/-! ## Chains of operators -/

/-- Whether no operator with `p` is in front. -/
def Stops (p : Gate → Bool) : List Token → Prop
  | .keyword g :: _ => p g = false
  | _ => True

theorem stops_or_keyword (p : Gate → Bool) (ts : List Token) :
    Stops p ts ∨ ∃ g us, ts = .keyword g :: us ∧ p g = true := by
  rcases ts with _ | ⟨t, us⟩
  · exact .inl trivial
  · cases t with
    | keyword g =>
      cases hg : p g with
      | false => exact .inl hg
      | true => exact .inr ⟨g, us, rfl, hg⟩
    | _ => exact .inl trivial

theorem readExpr_gives : (readExpr strict ts).Gives e rest ↔
    ∃ left mid, (readTerm strict ts).Gives left mid ∧
      (readTerms strict left mid).Gives e rest := by
  rw [readExpr, gives_bind]
  simp only [gives_bind_pure, exists_prop, Prod.mk.injEq, exists_eq_right_right, exists_eq_right]

theorem readTerm_gives : (readTerm strict ts).Gives e rest ↔
    ∃ left mid, (readFactor strict ts).Gives left mid ∧
      (readFactors strict left mid).Gives e rest := by
  rw [readTerm, gives_bind]
  simp only [gives_bind_pure, exists_prop, Prod.mk.injEq, exists_eq_right_right, exists_eq_right]

theorem readTerms_gives_of_stops (h : Stops isLoose ts) :
    (readTerms strict left ts).Gives e rest ↔ left = e ∧ ts = rest := by
  unfold readTerms
  split
  next g us =>
    rw [if_neg (by simpa [Stops] using h)]
    exact gives_pure
  next => exact gives_pure

theorem readFactors_gives_of_stops (h : Stops isTight ts) :
    (readFactors strict left ts).Gives e rest ↔ left = e ∧ ts = rest := by
  unfold readFactors
  split
  next g us =>
    rw [if_neg (by simpa [Stops] using h)]
    exact gives_pure
  next => exact gives_pure

theorem readTerms_gives_keyword {g : Gate} (hg : isLoose g = true) :
    (readTerms strict left (.keyword g :: ts)).Gives e rest ↔ ∃ right mid,
      (readTerm strict ts).Gives right mid ∧
        (readTerms strict (.gate g [left, right]) mid).Gives e rest := by
  rw [readTerms, if_pos hg, gives_bind]
  simp only [gives_bind_pure, exists_prop, Prod.mk.injEq, exists_eq_right_right, exists_eq_right]

theorem readFactors_gives_keyword {g : Gate} (hg : isTight g = true) :
    (readFactors strict left (.keyword g :: ts)).Gives e rest ↔ ∃ right mid,
      (readFactor strict ts).Gives right mid ∧
        (readFactors strict (.gate g [left, right]) mid).Gives e rest := by
  rw [readFactors, if_pos hg, gives_bind]
  simp only [gives_bind_pure, exists_prop, Prod.mk.injEq, exists_eq_right_right, exists_eq_right]

/-! ## Parentheses and arguments -/

theorem readClose_gives : (readClose strict ts).Gives () rest ↔
    ts = .closeParen :: rest ∨ strict = false ∧ ts.head? ≠ some .closeParen ∧ ts = rest := by
  unfold readClose
  split
  next us =>
    rw [gives_pure]
    simp
  next hts =>
    rw [gives_tolerate, gives_pure]
    simp [ne_cons_of_head?_ne (head?_ne_of_ne_cons hts), head?_ne_of_ne_cons hts]

theorem readArguments_gives {es : List Expr} : (readArguments strict ts).Gives es rest ↔
    ∃ e mid, (readExpr strict ts).Gives e mid ∧
      ((∃ us fs, mid = .comma :: us ∧ (readArguments strict us).Gives fs rest ∧ e :: fs = es) ∨
        mid.head? ≠ some .comma ∧ [e] = es ∧ mid = rest) := by
  rw [readArguments, gives_bind]
  refine exists_congr fun e => exists_congr fun mid => ?_
  rw [← exists_prop]
  refine exists_congr fun h => ?_
  dsimp only
  split
  next us _ _ =>
    rw [gives_bind_pure]
    simp [and_comm]
  next hne =>
    have hhead : mid.head? ≠ some .comma := by
      refine head?_ne_of_ne_cons ?_
      rintro us rfl
      exact hne us _ rfl HEq.rfl
    rw [gives_pure]
    simp [hhead, ne_cons_of_head?_ne hhead]

/-! ## Factors -/

/-- The operator that a token stands for in front of arguments: a gate if it is the name of one or
a keyword, but the keyword of the inverter is never called. -/
inductive Called : Token → Op → Prop
  | gateName {name : String} {g : Gate} : Gate.ofName? name = some g →
      Called (.ident name) (.gate g)
  | otherName {name : String} : Gate.ofName? name = none → Called (.ident name) (.call name)
  | keyword {g : Gate} : g ≠ .not → Called (.keyword g) (.gate g)

theorem called_ident_iff {name : String} {o : Op} :
    Called (.ident name) o ↔ o = calledOp name := by
  constructor
  · rintro (h | h) <;> simp [calledOp, h]
  · rintro rfl
    cases h : Gate.ofName? name with
    | some g =>
      rw [calledOp, h]
      exact .gateName h
    | none =>
      rw [calledOp, h]
      exact .otherName h

/-- The tokens a factor can begin with. -/
inductive FactorForm : List Token → Prop
  | inverter (us : List Token) : FactorForm (.keyword .not :: us)
  | group (us : List Token) : FactorForm (.openParen :: us)
  | call (t : Token) (o : Op) (us : List Token) : Called t o → FactorForm (t :: .openParen :: us)
  | name (name : String) (us : List Token) : us.head? ≠ some .openParen →
      FactorForm (.ident name :: us)
  | keywordName (g : Gate) (us : List Token) : g ≠ .not → us.head? ≠ some .openParen →
      FactorForm (.keyword g :: us)

theorem factorForm_of_gives (h : (readFactor strict ts).Gives e rest) : FactorForm ts := by
  unfold readFactor at h
  split at h
  next => exact absurd h not_gives_fail
  next us => exact .inverter us
  next us => exact .group us
  next name us => exact .call _ _ us (called_ident_iff.mpr rfl)
  next name us hus => exact .name name us (head?_ne_of_ne_cons hus)
  next g us hg => exact .call _ _ us (.keyword hg)
  next g us hg hus => exact .keywordName g us hg (head?_ne_of_ne_cons hus)
  next => exact absurd h not_gives_fail

theorem readFactor_gives_inverter : (readFactor strict (.keyword .not :: ts)).Gives e rest ↔
    ∃ f, (readFactor strict ts).Gives f rest ∧ .gate .not [f] = e := by
  rw [readFactor]
  simp only [gives_bind_pure, exists_prop, Prod.mk.injEq]
  constructor
  · rintro ⟨f, mid, hf, rfl, rfl⟩
    exact ⟨f, hf, rfl⟩
  · rintro ⟨f, hf, rfl⟩
    exact ⟨f, rest, hf, rfl, rfl⟩

theorem readFactor_gives_group : (readFactor strict (.openParen :: ts)).Gives e rest ↔
    ∃ mid, (readExpr strict ts).Gives e mid ∧ (readClose strict mid).Gives () rest := by
  rw [readFactor, gives_bind]
  simp only [gives_bind_pure, exists_prop, Prod.mk.injEq]
  constructor
  · rintro ⟨e', mid, he, ⟨⟩, rest', hclose, rfl, rfl⟩
    exact ⟨mid, he, hclose⟩
  · rintro ⟨mid, he, hclose⟩
    exact ⟨e, mid, he, (), rest, hclose, rfl, rfl⟩

theorem readFactor_gives_call {t : Token} {o : Op} (h : Called t o) :
    (readFactor strict (t :: .openParen :: ts)).Gives e rest ↔
      ∃ es mid, (readArguments strict ts).Gives es mid ∧ (readClose strict mid).Gives () rest ∧
        .op o es = e := by
  have hread : readFactor strict (t :: .openParen :: ts) = (readArguments strict ts >>= fun p =>
      readClose strict p.1.2 >>= fun q => pure ⟨(.op o p.1.1, q.1.2), by grind⟩) := by
    cases t with
    | ident name =>
      rw [called_ident_iff.mp h, readFactor]
    | keyword g =>
      cases h with
      | keyword hg =>
        rw [readFactor]
        · rfl
        · exact hg
    | _ => cases h
  rw [hread, gives_bind]
  simp only [gives_bind_pure, exists_prop, Prod.mk.injEq]
  constructor
  · rintro ⟨es, mid, hes, ⟨⟩, rest', hclose, rfl, rfl⟩
    exact ⟨es, mid, hes, hclose, rfl⟩
  · rintro ⟨es, mid, hes, hclose, rfl⟩
    exact ⟨es, mid, hes, (), rest, hclose, rfl, rfl⟩

theorem readFactor_gives_name {name : String} (h : ts.head? ≠ some .openParen) :
    (readFactor strict (.ident name :: ts)).Gives e rest ↔ .var name = e ∧ ts = rest := by
  rw [readFactor, gives_pure]
  exact ne_cons_of_head?_ne h

theorem readFactor_gives_keywordName {g : Gate} (hg : g ≠ .not) (h : ts.head? ≠ some .openParen) :
    (readFactor strict (.keyword g :: ts)).Gives e rest ↔
      strict = false ∧ .var g.name = e ∧ ts = rest := by
  rw [readFactor, gives_tolerate, gives_pure]
  · exact hg
  · exact ne_cons_of_head?_ne h

/-! ## Whole texts -/

/-- A strict reading leaves nothing; a lenient one may. -/
theorem ofTokens_eq_ok_iff : (ofTokens strict ts).result = .ok e ↔
    ∃ rest, (readExpr strict ts).Gives e rest ∧ (strict = true → rest = []) := by
  rw [ofTokens, bind_result_eq_ok_iff]
  constructor
  · rintro ⟨⟨⟨e', rest⟩, hlt⟩, hread, h⟩
    dsimp only at h
    split at h
    next =>
      obtain ⟨u, htolerate, h⟩ := bind_result_eq_ok_iff.mp h
      cases h
      refine ⟨rest, gives_of_result hread, fun hstrict => ?_⟩
      subst hstrict
      cases htolerate
    next hrest =>
      cases h
      exact ⟨rest, gives_of_result hread, fun _ => Decidable.of_not_not hrest⟩
  · rintro ⟨rest, ⟨hlt, hread⟩, hstrict⟩
    refine ⟨_, hread, ?_⟩
    dsimp only
    split
    next hrest =>
      cases strict with
      | true => exact absurd (hstrict rfl) hrest
      | false => rfl
    next => rfl

end Expr

end LogicSchematic
