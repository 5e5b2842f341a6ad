import LogicSchematic.Proofs.Equivalence
import LogicSchematic.Proofs.Simulation.Patterns
import Mathlib.Data.Finset.Card

/-!
# Equivalence of expressions

What the outcome of `Expr.equivalent` says of truth values. The bits at one place of a round are an
assignment, and up to sixteen variables every assignment is met in some round, so expressions that
agree in all rounds have the same value under every assignment
(`value_eq_of_equivalent`). Conversely each bit of two words is a pair of values under one
assignment, so expressions with the same values have the same words (`exists_word_of_value_eq`),
however many variables there are. A word also shows that nothing in an expression is called that is
no gate. `equivalent_iff` puts this together.
-/

namespace LogicSchematic.Expr

variable {a b : Expr}

/-- The names that two expressions are compared over are their variables. -/
theorem mem_comparedNames {name : String} :
    name ∈ (a.variableNames ++ b.variableNames).eraseDups ↔
      name ∈ a.occurrences ++ b.occurrences := by
  simp only [variableNames, List.mem_eraseDups, List.mem_append]

/-- There are as many of them as there are different variables. -/
theorem length_comparedNames (a b : Expr) :
    (a.variableNames ++ b.variableNames).eraseDups.length =
      (a.occurrences ++ b.occurrences).toFinset.card := by
  rw [← List.toFinset_card_of_nodup (nodup_eraseDups _)]
  congr 1
  ext name
  rw [List.mem_toFinset, List.mem_toFinset, mem_comparedNames]

/-- Expressions with the same values have the same words. -/
theorem exists_word_of_value_eq (ha : a.Proper) (hb : b.Proper) (hacalls : a.CallFree)
    (hbcalls : b.CallFree)
    (h : ∀ τ : String → Bool, a.value (some ∘ τ) = b.value (some ∘ τ)) {values : Valuation}
    (hvalues : ∀ name ∈ a.occurrences ++ b.occurrences, ∃ w, values name = some w) :
    ∃ w, a.eval values = .ok w ∧ b.eval values = .ok w := by
  obtain ⟨w, hw⟩ := eval_isOk_of_words ha hacalls fun name hname =>
    hvalues name (List.mem_append_left _ hname)
  obtain ⟨v, hv⟩ := eval_isOk_of_words hb hbcalls fun name hname =>
    hvalues name (List.mem_append_right _ hname)
  refine ⟨w, hw, hv.trans (congrArg Except.ok (eq_of_bitAt fun j hj => ?_))⟩
  -- the bits at this place, as a total assignment
  let τ : String → Bool := fun name => (values.bits j name).getD false
  have hτ : ∀ name ∈ a.occurrences ++ b.occurrences, values.bits j name = some (τ name) := by
    intro name hname
    obtain ⟨u, hu⟩ := hvalues name hname
    simp only [τ, Valuation.bits, hu, Option.map_some, Option.getD_some]
  refine Option.some.inj ?_
  calc some (bitAt v j)
      = b.value (values.bits j) := (eval_eq_ok_iff_value.mp hv j hj).symm
    _ = b.value (some ∘ τ) := value_congr fun name hname => hτ name (List.mem_append_right _ hname)
    _ = a.value (some ∘ τ) := (h τ).symm
    _ = a.value (values.bits j) :=
        (value_congr fun name hname => hτ name (List.mem_append_left _ hname)).symm
    _ = some (bitAt w j) := eval_eq_ok_iff_value.mp hw j hj

/-- Call-free expressions with the same values are found to be equivalent. -/
theorem equivalent_of_value_eq (ha : a.Proper) (hb : b.Proper) (hacalls : a.CallFree)
    (hbcalls : b.CallFree)
    (h : ∀ τ : String → Bool, a.value (some ∘ τ) = b.value (some ∘ τ)) :
    a.equivalent b = .ok true :=
  sameFunction_of_words fun _ hvalues => exists_word_of_value_eq ha hb hacalls hbcalls h
    fun name hname => hvalues name (mem_comparedNames.mpr hname)

/-- Up to sixteen variables, expressions that are found to be equivalent have met every assignment:
at some place of a round, where they have the same word. -/
theorem exists_round_of_equivalent (hsize : (a.occurrences ++ b.occurrences).toFinset.card ≤ 16)
    (h : a.equivalent b = .ok true) (τ : String → Bool) :
    ∃ values w, a.eval values = .ok w ∧ b.eval values = .ok w ∧ ∃ j < 64,
      ∀ name ∈ a.occurrences ++ b.occurrences, values.bits j name = some (τ name) := by
  rw [← length_comparedNames] at hsize
  rw [equivalent, sameFunction_eq_true_iff] at h
  have hnodup := nodup_eraseDups (a.variableNames ++ b.variableNames)
  have hmem : ∀ name ∈ a.occurrences ++ b.occurrences,
      name ∈ (a.variableNames ++ b.variableNames).eraseDups := fun _ => mem_comparedNames.mpr
  generalize (a.variableNames ++ b.variableNames).eraseDups = names at h hsize hnodup hmem
  have hlen : (names.map τ).length = names.length := List.length_map _
  obtain ⟨words, hwords, j, hj, hbits⟩ := exists_mem_patterns (hlen ▸ hsize) 1
  rw [hlen] at hwords
  obtain ⟨w, hw, hv⟩ := h words hwords
  refine ⟨_, w, hw, hv, j, hj, fun name hname => ?_⟩
  have hplace := hmem name hname
  rw [bits_bindWords hnodup (length_of_mem_patterns hwords), hbits, Assignment.ofList,
    lookup_zip hplace, List.getElem?_map,
    List.getElem?_eq_getElem (List.idxOf_lt_length_of_mem hplace), List.getElem_idxOf,
    Option.map_some]

/-- Up to sixteen variables, expressions that are found to be equivalent have the same values. -/
theorem value_eq_of_equivalent (hsize : (a.occurrences ++ b.occurrences).toFinset.card ≤ 16)
    (h : a.equivalent b = .ok true) (τ : String → Bool) :
    a.value (some ∘ τ) = b.value (some ∘ τ) := by
  obtain ⟨values, w, hw, hv, j, hj, hτ⟩ := exists_round_of_equivalent hsize h τ
  calc a.value (some ∘ τ)
      = a.value (values.bits j) :=
        (value_congr fun name hname => hτ name (List.mem_append_left _ hname)).symm
    _ = some (bitAt w j) := eval_eq_ok_iff_value.mp hw j hj
    _ = b.value (values.bits j) := (eval_eq_ok_iff_value.mp hv j hj).symm
    _ = b.value (some ∘ τ) := value_congr fun name hname => hτ name (List.mem_append_right _ hname)

/-- Proper expressions are compared without an error. -/
theorem equivalent_isOk (ha : a.Proper) (hb : b.Proper) : ∃ verdict, a.equivalent b = .ok verdict :=
  agreeOn_isOk (fun values => eval_of_proper values ha) (fun values => eval_of_proper values hb) _

/-- The equivalence check decides equivalence. Expressions whose operators have operands get a
verdict. With at most sixteen different variables in the two, it is positive exactly when nothing is
called that is no gate and both have the same truth value under every assignment; and however many
variables there are, it is positive whenever this is so. -/
theorem equivalent_iff (ha : a.Proper) (hb : b.Proper) :
    (∃ verdict, a.equivalent b = .ok verdict) ∧
    ((a.occurrences ++ b.occurrences).toFinset.card ≤ 16 →
      (a.equivalent b = .ok true ↔ (a.CallFree ∧ b.CallFree) ∧
        ∀ τ : String → Bool, a.value (some ∘ τ) = b.value (some ∘ τ))) ∧
    (a.CallFree → b.CallFree →
      (∀ τ : String → Bool, a.value (some ∘ τ) = b.value (some ∘ τ)) →
      a.equivalent b = .ok true) := by
  refine ⟨equivalent_isOk ha hb, fun hsize => ⟨fun h => ⟨?_, ?_⟩, fun h => ?_⟩,
    equivalent_of_value_eq ha hb⟩
  · obtain ⟨values, w, hw, hv, -⟩ := exists_round_of_equivalent hsize h fun _ => false
    exact ⟨callFree_of_eval hw, callFree_of_eval hv⟩
  · exact value_eq_of_equivalent hsize h
  · exact equivalent_of_value_eq ha hb h.1.1 h.1.2 h.2

/-- One of De Morgan's laws, a law that does not hold, and a call that is not even equivalent to
itself. -/
theorem equivalent_iff_deMorgan :
    let notBoth : Expr := .gate .not [.gate .and [.var "A", .var "B"]]
    let someNot : Expr := .gate .or [.gate .not [.var "A"], .gate .not [.var "B"]]
    let noneOf : Expr := .gate .and [.gate .not [.var "A"], .gate .not [.var "B"]]
    let call : Expr := .op (.call "MUX") [.var "A", .var "B"]
    (notBoth.Proper ∧ someNot.Proper ∧ noneOf.Proper ∧ call.Proper) ∧
      (notBoth.occurrences ++ someNot.occurrences).toFinset.card ≤ 16 ∧
      notBoth.equivalent someNot = .ok true ∧ notBoth.equivalent noneOf ≠ .ok true ∧
      call.equivalent call ≠ .ok true := by
  intro notBoth someNot noneOf call
  have hproper : notBoth.Proper ∧ someNot.Proper ∧ noneOf.Proper ∧ call.Proper := by decide
  obtain ⟨hnotBoth, hsomeNot, hnoneOf, hcall⟩ := hproper
  have hsize : (notBoth.occurrences ++ someNot.occurrences).toFinset.card ≤ 16 := by decide
  have hvalues : ∀ τ : String → Bool, notBoth.value (some ∘ τ) = someNot.value (some ∘ τ) := by
    intro τ
    cases hA : τ "A" <;> cases hB : τ "B" <;>
      simp [notBoth, someNot, gate, value, valueAll, Gate.value?, hA, hB]
  refine ⟨⟨hnotBoth, hsomeNot, hnoneOf, hcall⟩, hsize, ?_, fun h => ?_, fun h => ?_⟩
  · exact ((equivalent_iff hnotBoth hsomeNot).2.1 hsize).mpr ⟨by decide, hvalues⟩
  · -- the two differ where only one variable is true
    have hsame := (((equivalent_iff hnotBoth hnoneOf).2.1 (by decide)).mp h).2 (· == "A")
    exact absurd hsame (by decide)
  · exact absurd (((equivalent_iff hcall hcall).2.1 (by decide)).mp h).1.1 (by decide)

end LogicSchematic.Expr
