import LogicSchematic.Proofs.Simulation.Rounds
import LogicSchematic.Proofs.Synthesis.Circuit

/-!
# Equivalence of an expression and its circuit

Two functions are found to be the same exactly when both have the same word in every round
(`sameFunction_eq_true_iff`). A round binds every name, so this is the case when they have the same
word whenever all names have words (`sameFunction_of_words`), in particular for an expression and
the circuit that synthesis makes of it, however many variables there are (`synthesize_equivalent`).
-/

namespace LogicSchematic

variable {names : List String} {f g : Valuation → Except EvalError UInt64}

theorem sameWord_eq_true_iff {x y : Except EvalError UInt64} :
    sameWord x y = .ok true ↔ ∃ w, x = .ok w ∧ y = .ok w := by
  constructor
  · intro h
    unfold sameWord at h
    split at h
    next w v => exact ⟨w, rfl, congrArg Except.ok (eq_of_beq (Except.ok.inj h)).symm⟩
    next => cases h
    next => cases h
    next => cases h
  · rintro ⟨w, rfl, rfl⟩
    exact congrArg Except.ok (beq_self_eq_true w)

theorem agreeOn_eq_true_iff {rounds : List (List UInt64)} :
    agreeOn names f g rounds = .ok true ↔
      ∀ words ∈ rounds, ∃ w, f (bindWords names words) = .ok w ∧
        g (bindWords names words) = .ok w := by
  induction rounds with
  | nil => simp [agreeOn]
  | cons words rounds ih =>
    rw [List.forall_mem_cons, ← ih, ← sameWord_eq_true_iff, agreeOn, Except.bind_eq_ok_iff]
    constructor
    · rintro ⟨_ | _, hsame, hrest⟩
      · cases hrest
      · exact ⟨hsame, hrest⟩
    · exact fun h => ⟨true, h⟩

/-- Functions are compared without an error when they never lack an operand. -/
theorem agreeOn_isOk
    (hf : ∀ values, (∃ w, f values = .ok w) ∨ f values = .error .undetermined)
    (hg : ∀ values, (∃ w, g values = .ok w) ∨ g values = .error .undetermined)
    (rounds : List (List UInt64)) : ∃ verdict, agreeOn names f g rounds = .ok verdict := by
  induction rounds with
  | nil => exact ⟨true, rfl⟩
  | cons words rounds ih =>
    obtain ⟨same, hsame⟩ : ∃ same, sameWord (f (bindWords names words))
        (g (bindWords names words)) = .ok same := by
      rcases hf (bindWords names words) with ⟨w, hw⟩ | hw <;>
        rcases hg (bindWords names words) with ⟨v, hv⟩ | hv <;> rw [hw, hv] <;> exact ⟨_, rfl⟩
    rw [agreeOn, hsame, Except.ok_bind]
    cases same with
    | false => exact ⟨false, rfl⟩
    | true => exact ih

/-- Functions are found to be the same when they have the same word in every round. -/
theorem sameFunction_eq_true_iff :
    sameFunction names f g = .ok true ↔
      ∀ words ∈ patterns names.length 1, ∃ w, f (bindWords names words) = .ok w ∧
        g (bindWords names words) = .ok w :=
  agreeOn_eq_true_iff

/-- Functions that have the same word whenever all names have words are the same function. -/
theorem sameFunction_of_words
    (h : ∀ values : Valuation, (∀ name ∈ names, ∃ w, values name = some w) →
      ∃ w, f values = .ok w ∧ g values = .ok w) : sameFunction names f g = .ok true := by
  refine sameFunction_eq_true_iff.mpr fun words hwords => h _ fun name hname => ?_
  exact exists_bindWords (length_of_mem_patterns hwords) hname

/-- A circuit with the outcomes of an expression is equivalent to it. -/
theorem Mapping.WellFormed.equivalent {m : Mapping} (hm : m.WellFormed) {e : Expr}
    (h : ∀ values, m.eval values = e.eval values) : m.equivalent e = .ok true := by
  refine sameFunction_of_words fun values hvalues => ?_
  obtain ⟨w, hw⟩ := hm.eval_isOk fun name hname =>
    hvalues name (List.mem_eraseDups.mpr (List.mem_append_right _ hname))
  exact ⟨w, (h values).symm.trans hw, hw⟩

/-- A synthesized circuit has the outcome of the expression under every valuation of its names, the
missing word included, and is found to be equivalent to it. -/
theorem Synthesizer.synthesize_equivalent {s : Synthesizer} {e : Expr} {m : Mapping}
    (he : e.Proper) (h : s.synthesize e = .ok m) :
    (∀ values, m.eval values = e.eval values) ∧ m.equivalent e = .ok true := by
  have heval := eval_of_synthesize he h
  exact ⟨heval, (wellFormed_of_synthesize he h).equivalent heval⟩

/-- A conjunction of three operands, built as an inverted gate with four pins. -/
theorem Synthesizer.synthesize_equivalent_nand4 :
    let e : Expr := .gate .and [.var "A", .var "B", .var "C"]
    let m : Mapping :=
      { gates := [⟨.nand4, [.var "A", .var "B", .var "C", .var "C"]⟩, ⟨.not, [.gate 0]⟩]
        root := .gate 1 }
    Synthesizer.synthesize ⟨.ofList [.nand4, .not], 30⟩ e = .ok m ∧
      (∀ values, m.eval values = e.eval values) ∧ m.equivalent e = .ok true := by
  intro e m
  have h : Synthesizer.synthesize ⟨.ofList [.nand4, .not], 30⟩ e = .ok m := rfl
  exact ⟨h, Synthesizer.synthesize_equivalent (by decide) h⟩

end LogicSchematic
