import LogicSchematic.Token

/-!
# Readings

The outcome of reading an expression: a result or an error, and the defects that were tolerated on
the way, in order, whether the reading succeeds or not. A strict reading tolerates nothing: the
first defect is its error. A lenient one notes the defect and goes on.
-/
namespace LogicSchematic

/-- Why a text is not read as an expression. -/
inductive ParseError where
  /-- An operand was expected, but no token is left. -/
  | unexpectedEnd
  /-- A token that starts no operand. -/
  | unexpectedToken (t : Token)
  /-- A parenthesis that is never closed. -/
  | unclosedParen
  /-- Tokens left after a complete expression. -/
  | trailingTokens (ts : List Token)
  deriving DecidableEq, Repr

/-- The text of a parse error. -/
def ParseError.message : ParseError → String
  | .unexpectedEnd => "unexpected end of expression"
  | .unexpectedToken t => "unexpected token " ++ t.text
  | .unclosedParen => "missing closing parenthesis"
  | .trailingTokens ts => "unexpected trailing tokens: " ++ Token.textAll ts

/-- A fault that a lenient reading tolerates. -/
inductive Defect where
  /-- A parenthesis that is never closed. -/
  | unclosedParen
  /-- An operator keyword where an operand is expected; it is read as a variable. -/
  | keywordAsName (g : Gate)
  /-- Tokens left after a complete expression; they are ignored. -/
  | trailingTokens (ts : List Token)
  deriving DecidableEq, Repr

/-- The error that a defect is in a strict reading. -/
def Defect.error : Defect → ParseError
  | .unclosedParen => .unclosedParen
  | .keywordAsName g => .unexpectedToken (.keyword g)
  | .trailingTokens ts => .trailingTokens ts

/-- The text of the warning about a defect. -/
def Defect.message : Defect → String
  | .unclosedParen => "missing closing parenthesis"
  | .keywordAsName g => "keyword used as a variable name keyword=" ++ g.name
  | .trailingTokens ts => "ignoring trailing tokens ignored=" ++ Token.textAll ts

/-- The outcome of reading something: a result or an error of the kind `ε`, with the defects
tolerated on the way. -/
structure Reading (ε α : Type) where
  result : Except ε α
  defects : List Defect

namespace Reading

variable {ε α β : Type}

/-- A reading that ends in an error. -/
def fail (e : ε) : Reading ε α := ⟨.error e, []⟩

/-- Goes on with a result; the defects of both readings are noted in order. -/
protected def bind (r : Reading ε α) (f : α → Reading ε β) : Reading ε β :=
  match r.result with
  | .ok a => ⟨(f a).result, r.defects ++ (f a).defects⟩
  | .error e => ⟨.error e, r.defects⟩

instance : Monad (Reading ε) where
  pure a := ⟨.ok a, []⟩
  bind := Reading.bind

/-- Restates the error of a reading. -/
def mapError {ε' : Type} (f : ε → ε') (r : Reading ε α) : Reading ε' α :=
  ⟨r.result.mapError f, r.defects⟩

/-- Goes on with a computation that meets no defects. -/
def ofExcept (x : Except ε α) : Reading ε α := ⟨x, []⟩

/-- Meets a defect: the error of a strict reading, a note of a lenient one. -/
def tolerate (strict : Bool) (d : Defect) : Reading ParseError Unit :=
  if strict then fail d.error else ⟨.ok (), [d]⟩

@[simp] theorem result_pure (a : α) : (pure a : Reading ε α).result = .ok a := rfl

@[simp] theorem defects_pure (a : α) : (pure a : Reading ε α).defects = [] := rfl

@[simp] theorem result_fail (e : ε) : (fail e : Reading ε α).result = .error e := rfl

@[simp] theorem defects_fail (e : ε) : (fail e : Reading ε α).defects = [] := rfl

/-- A reading goes on after a success only. -/
theorem bind_of_ok {r : Reading ε α} {a : α} (h : r.result = .ok a) (f : α → Reading ε β) :
    r >>= f = ⟨(f a).result, r.defects ++ (f a).defects⟩ := by
  show Reading.bind r f = _
  simp [Reading.bind, h]

/-- An error ends a reading. -/
theorem bind_of_error {r : Reading ε α} {e : ε} (h : r.result = .error e)
    (f : α → Reading ε β) : r >>= f = ⟨.error e, r.defects⟩ := by
  show Reading.bind r f = _
  simp [Reading.bind, h]

theorem bind_pure_self (r : Reading ε α) : (r >>= pure) = r := by
  show Reading.bind r _ = r
  rcases r with ⟨_ | _, _⟩ <;> simp [Reading.bind]

theorem pure_bind_apply (a : α) (f : α → Reading ε β) : (pure a >>= f) = f a := by
  show Reading.bind _ f = f a
  simp [Reading.bind]

theorem bind_bind {γ : Type} (r : Reading ε α) (f : α → Reading ε β) (g : β → Reading ε γ) :
    (r >>= f >>= g) = (r >>= fun a => f a >>= g) := by
  show Reading.bind (Reading.bind r f) g = Reading.bind r fun a => Reading.bind (f a) g
  rcases r with ⟨_ | a, _⟩
  · simp [Reading.bind]
  · simp only [Reading.bind]
    cases (f a).result <;> simp

instance : LawfulMonad (Reading ε) :=
  LawfulMonad.mk' (Reading ε) bind_pure_self pure_bind_apply bind_bind

end Reading

end LogicSchematic
