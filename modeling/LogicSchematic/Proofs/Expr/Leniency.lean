import LogicSchematic.Proofs.Expr.Readers
import Mathlib

/-!
# Strict and lenient readings

A strict reading is the lenient one cut off at its first defect: `strictly` makes it out of the
lenient one. Cutting off goes through every step a reader is made of (`strictly_bind`,
`strictly_tolerate`), and so through every reader (`readExpr_strictly` and the lemmas beside it, by
induction on the tokens left) although the two readings part at the defect.
`parse_strict_of_lenient` says what this means for a text in the four cases: whether the lenient
reading succeeds, and whether it meets a defect.
-/

namespace LogicSchematic

namespace Reading

variable {α β : Type}

/-- The strict reading behind a lenient one: the first defect is its error. -/
def strictly (r : Reading ParseError α) : Reading ParseError α :=
  match r.defects with
  | [] => r
  | d :: _ => fail d.error

theorem strictly_of_defects_nil {r : Reading ParseError α} (h : r.defects = []) :
    r.strictly = r := by
  rw [strictly, h]

theorem strictly_of_defects_cons {r : Reading ParseError α} {d : Defect} {ds : List Defect}
    (h : r.defects = d :: ds) : r.strictly = fail d.error := by
  rw [strictly, h]

theorem strictly_pure (a : α) : (pure a : Reading ParseError α).strictly = pure a := rfl

theorem strictly_tolerate (d : Defect) : (tolerate false d).strictly = tolerate true d := rfl

/-- What comes after a defect does not matter. -/
theorem strictly_bind (r : Reading ParseError α) (f : α → Reading ParseError β) :
    (r >>= f).strictly = r.strictly >>= fun a => (f a).strictly := by
  obtain ⟨result, defects⟩ := r
  cases defects with
  | nil =>
    cases result with
    | error e => rfl
    | ok a =>
      show (pure a >>= f).strictly = (pure a : Reading ParseError α).strictly >>= _
      rw [pure_bind_apply, strictly_pure, pure_bind_apply]
  | cons d ds =>
    cases result with
    | error e => rfl
    | ok a => rfl

theorem bind_eq_strictly {r r' : Reading ParseError α} {f f' : α → Reading ParseError β}
    (hr : r' = r.strictly) (hf : ∀ a, f' a = (f a).strictly) : r' >>= f' = (r >>= f).strictly := by
  rw [strictly_bind, hr]
  exact congrArg _ (funext hf)

end Reading

namespace Expr

open Reading

theorem readClose_strictly (ts : List Token) :
    readClose true ts = (readClose false ts).strictly := by
  unfold readClose
  split
  next => rfl
  next => exact bind_eq_strictly (strictly_tolerate _) fun _ => rfl

mutual

theorem readExpr_strictly (ts : List Token) : readExpr true ts = (readExpr false ts).strictly := by
  rw [readExpr, readExpr]
  refine bind_eq_strictly (readTerm_strictly ts) ?_
  rintro ⟨⟨left, rest⟩, h⟩
  exact bind_eq_strictly (readTerms_strictly left rest) fun _ => rfl
termination_by (ts.length, 2)
decreasing_by
  · exact Prod.Lex.right _ (by decide)
  · exact Prod.Lex.left _ _ h

theorem readTerms_strictly (left : Expr) (ts : List Token) :
    readTerms true left ts = (readTerms false left ts).strictly := by
  unfold readTerms
  split
  next g us =>
    split
    next =>
      refine bind_eq_strictly (readTerm_strictly us) ?_
      rintro ⟨⟨right, rest⟩, h⟩
      exact bind_eq_strictly (readTerms_strictly (.gate g [left, right]) rest) fun _ => rfl
    next => rfl
  next => rfl
termination_by (ts.length, 3)
decreasing_by
  · subst_vars
    exact Prod.Lex.left _ _ (Nat.lt_succ_self _)
  · subst_vars
    exact Prod.Lex.left _ _ (Nat.lt_succ_of_lt h)

theorem readTerm_strictly (ts : List Token) : readTerm true ts = (readTerm false ts).strictly := by
  rw [readTerm, readTerm]
  refine bind_eq_strictly (readFactor_strictly ts) ?_
  rintro ⟨⟨left, rest⟩, h⟩
  exact bind_eq_strictly (readFactors_strictly left rest) fun _ => rfl
termination_by (ts.length, 1)
decreasing_by
  · exact Prod.Lex.right _ (by decide)
  · exact Prod.Lex.left _ _ h

theorem readFactors_strictly (left : Expr) (ts : List Token) :
    readFactors true left ts = (readFactors false left ts).strictly := by
  unfold readFactors
  split
  next g us =>
    split
    next =>
      refine bind_eq_strictly (readFactor_strictly us) ?_
      rintro ⟨⟨right, rest⟩, h⟩
      exact bind_eq_strictly (readFactors_strictly (.gate g [left, right]) rest) fun _ => rfl
    next => rfl
  next => rfl
termination_by (ts.length, 3)
decreasing_by
  · subst_vars
    exact Prod.Lex.left _ _ (Nat.lt_succ_self _)
  · subst_vars
    exact Prod.Lex.left _ _ (Nat.lt_succ_of_lt h)

theorem readFactor_strictly (ts : List Token) :
    readFactor true ts = (readFactor false ts).strictly := by
  unfold readFactor
  split
  next => rfl
  next us => exact bind_eq_strictly (readFactor_strictly us) fun _ => rfl
  next us =>
    refine bind_eq_strictly (readExpr_strictly us) ?_
    rintro ⟨⟨e, rest⟩, -⟩
    exact bind_eq_strictly (readClose_strictly rest) fun _ => rfl
  next name us =>
    refine bind_eq_strictly (readArguments_strictly us) ?_
    rintro ⟨⟨es, rest⟩, -⟩
    exact bind_eq_strictly (readClose_strictly rest) fun _ => rfl
  next => rfl
  next g us _ =>
    refine bind_eq_strictly (readArguments_strictly us) ?_
    rintro ⟨⟨es, rest⟩, -⟩
    exact bind_eq_strictly (readClose_strictly rest) fun _ => rfl
  next g us _ _ => exact bind_eq_strictly (strictly_tolerate _) fun _ => rfl
  next => rfl
termination_by (ts.length, 0)
decreasing_by
  · subst_vars
    exact Prod.Lex.left _ _ (Nat.lt_succ_self _)
  · subst_vars
    exact Prod.Lex.left _ _ (Nat.lt_succ_self _)
  · subst_vars
    exact Prod.Lex.left _ _ (Nat.lt_succ_of_lt (Nat.lt_succ_self _))
  · subst_vars
    exact Prod.Lex.left _ _ (Nat.lt_succ_of_lt (Nat.lt_succ_self _))

theorem readArguments_strictly (ts : List Token) :
    readArguments true ts = (readArguments false ts).strictly := by
  rw [readArguments, readArguments]
  refine bind_eq_strictly (readExpr_strictly ts) ?_
  rintro ⟨⟨e, rest⟩, h⟩
  dsimp only
  split
  next us h => exact bind_eq_strictly (readArguments_strictly us) fun _ => rfl
  next => rfl
termination_by (ts.length, 3)
decreasing_by
  · exact Prod.Lex.right _ (by decide)
  · subst_vars
    exact Prod.Lex.left _ _ (Nat.lt_of_succ_lt h)

end

theorem ofTokens_strictly (ts : List Token) : ofTokens true ts = (ofTokens false ts).strictly := by
  rw [ofTokens, ofTokens]
  refine bind_eq_strictly (readExpr_strictly ts) ?_
  rintro ⟨⟨e, rest⟩, -⟩
  dsimp only
  split
  next => exact bind_eq_strictly (strictly_tolerate _) fun _ => rfl
  next => rfl

theorem parse_strictly (text : String) : parse true text = (parse false text).strictly :=
  ofTokens_strictly (tokenize text)

/-- A strict reading succeeds exactly when the lenient one succeeds and meets no defect, with the
same expression. If the lenient reading meets none and fails, the strict one fails with the same
error; and if it meets some, the error of the strict one is the first of them. -/
theorem parse_strict_of_lenient (text : String) :
    (∀ e, (parse true text).result = .ok e → parse false text = ⟨.ok e, []⟩) ∧
      (∀ e, parse false text = ⟨.ok e, []⟩ → (parse true text).result = .ok e) ∧
      (∀ cause, parse false text = ⟨.error cause, []⟩ →
        (parse true text).result = .error cause) ∧
      ∀ d ds, (parse false text).defects = d :: ds →
        (parse true text).result = .error (match d with
          | .unclosedParen => .unclosedParen
          | .keywordAsName g => .unexpectedToken (.keyword g)
          | .trailingTokens ts => .trailingTokens ts) := by
  rw [parse_strictly]
  refine ⟨fun e he => ?_, fun e he => ?_, fun cause he => ?_, fun d ds hdefects => ?_⟩
  · cases hdefects : (parse false text).defects with
    | nil =>
      rw [strictly_of_defects_nil hdefects] at he
      rw [← he, ← hdefects]
    | cons d ds =>
      rw [strictly_of_defects_cons hdefects] at he
      cases he
  · rw [he]
    rfl
  · rw [he]
    rfl
  · rw [strictly_of_defects_cons hdefects]
    cases d <;> rfl

/-- The four cases: an expression, an expression that breaks off, and defects of all kinds, of which
the first is a keyword in the place of an operand. -/
theorem parse_strict_of_lenient_cases :
    (parse true "a and not b").result = .ok (.gate .and [.var "A", .gate .not [.var "B"]]) ∧
      parse false "a and not b" = ⟨.ok (.gate .and [.var "A", .gate .not [.var "B"]]), []⟩ ∧
      parse false "a and" = ⟨.error .unexpectedEnd, []⟩ ∧
      (parse true "a and").result = .error .unexpectedEnd ∧
      (parse false "f(or, (a) b) nor").defects =
        [.keywordAsName .or, .unclosedParen,
          .trailingTokens [.ident "B", .closeParen, .keyword .nor]] ∧
      (parse true "f(or, (a) b) nor").result = .error (.unexpectedToken (.keyword .or)) := by
  have hread : parse false "a and not b" =
      ⟨.ok (.gate .and [.var "A", .gate .not [.var "B"]]), []⟩ := by cbv
  have hstrict := (parse_strict_of_lenient "a and not b").2.1 _ hread
  have hend : parse false "a and" = ⟨.error .unexpectedEnd, []⟩ := by cbv
  have hdefects : (parse false "f(or, (a) b) nor").defects =
      [.keywordAsName .or, .unclosedParen,
        .trailingTokens [.ident "B", .closeParen, .keyword .nor]] := by cbv
  exact ⟨hstrict, (parse_strict_of_lenient "a and not b").1 _ hstrict, hend,
    (parse_strict_of_lenient "a and").2.2.1 _ hend, hdefects,
    (parse_strict_of_lenient "f(or, (a) b) nor").2.2.2 _ _ hdefects⟩

end Expr

end LogicSchematic
