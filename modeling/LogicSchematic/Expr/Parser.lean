import LogicSchematic.Expr
import LogicSchematic.Expr.Reading

/-!
# Reading expressions

The grammar, from the loosest operators to the tightest:

* an expression is a chain of terms with `OR`, `NOR`, `XOR` or `XNOR` between;
* a term is a chain of factors with `AND` or `NAND` between;
* a factor is `NOT` before a factor, an expression in parentheses, a name, or a name before a list
  of expressions in parentheses.

A chain is read from left to right into operators with two operands. A call of a gate name is that
gate over the arguments, whatever their number; a call of any other name stays a call.

Every reader takes the tokens that are left and gives back the rest together with the proof that it
is shorter, so that the readers call each other along the token list and need no other bound.
-/
namespace LogicSchematic

namespace Expr

/-- What was read from `ts`, and a rest that is shorter. -/
abbrev Read (α : Type) (ts : List Token) := { p : α × List Token // p.2.length < ts.length }

/-- What was read from `ts`, possibly nothing, and the rest. -/
abbrev ReadMore (α : Type) (ts : List Token) := { p : α × List Token // p.2.length ≤ ts.length }

/-- The operators between terms. -/
def isLoose : Gate → Bool
  | .or | .nor | .xor | .xnor => true
  | _ => false

/-- The operators between factors. -/
def isTight : Gate → Bool
  | .and | .nand => true
  | _ => false

/-- The operator that a called name stands for. -/
def calledOp (name : String) : Op :=
  match Gate.ofName? name with
  | some g => .gate g
  | none => .call name

/-- Reads a closing parenthesis; it may be missing, which is a defect. -/
def readClose (strict : Bool) : (ts : List Token) → Reading ParseError (ReadMore Unit ts)
  | .closeParen :: rest => pure ⟨((), rest), by simp⟩
  | ts => do
    Reading.tolerate strict .unclosedParen
    return ⟨((), ts), Nat.le_refl _⟩

mutual

/-- Reads an expression. -/
def readExpr (strict : Bool) (ts : List Token) : Reading ParseError (Read Expr ts) := do
  let ⟨(left, rest), h⟩ ← readTerm strict ts
  let ⟨(e, rest), h'⟩ ← readTerms strict left rest
  return ⟨(e, rest), by grind⟩
termination_by (ts.length, 2)
decreasing_by all_goals grind

/-- Reads the operators and terms that follow a term. -/
def readTerms (strict : Bool) (left : Expr) :
    (ts : List Token) → Reading ParseError (ReadMore Expr ts)
  | .keyword g :: ts =>
    if isLoose g then do
      let ⟨(right, rest), h⟩ ← readTerm strict ts
      let ⟨(e, rest), h'⟩ ← readTerms strict (.gate g [left, right]) rest
      return ⟨(e, rest), by grind⟩
    else
      return ⟨(left, .keyword g :: ts), Nat.le_refl _⟩
  | ts => return ⟨(left, ts), Nat.le_refl _⟩
termination_by ts => (ts.length, 3)
decreasing_by all_goals grind

/-- Reads a term. -/
def readTerm (strict : Bool) (ts : List Token) : Reading ParseError (Read Expr ts) := do
  let ⟨(left, rest), h⟩ ← readFactor strict ts
  let ⟨(e, rest), h'⟩ ← readFactors strict left rest
  return ⟨(e, rest), by grind⟩
termination_by (ts.length, 1)
decreasing_by all_goals grind

/-- Reads the operators and factors that follow a factor. -/
def readFactors (strict : Bool) (left : Expr) :
    (ts : List Token) → Reading ParseError (ReadMore Expr ts)
  | .keyword g :: ts =>
    if isTight g then do
      let ⟨(right, rest), h⟩ ← readFactor strict ts
      let ⟨(e, rest), h'⟩ ← readFactors strict (.gate g [left, right]) rest
      return ⟨(e, rest), by grind⟩
    else
      return ⟨(left, .keyword g :: ts), Nat.le_refl _⟩
  | ts => return ⟨(left, ts), Nat.le_refl _⟩
termination_by ts => (ts.length, 3)
decreasing_by all_goals grind

/-- Reads a factor. -/
def readFactor (strict : Bool) : (ts : List Token) → Reading ParseError (Read Expr ts)
  | [] => Reading.fail .unexpectedEnd
  | .keyword .not :: ts => do
    let ⟨(e, rest), h⟩ ← readFactor strict ts
    return ⟨(.gate .not [e], rest), by grind⟩
  | .openParen :: ts => do
    let ⟨(e, rest), h⟩ ← readExpr strict ts
    let ⟨((), rest), h'⟩ ← readClose strict rest
    return ⟨(e, rest), by grind⟩
  | .ident name :: .openParen :: ts => do
    let ⟨(es, rest), h⟩ ← readArguments strict ts
    let ⟨((), rest), h'⟩ ← readClose strict rest
    return ⟨(.op (calledOp name) es, rest), by grind⟩
  | .ident name :: ts => return ⟨(.var name, ts), by simp⟩
  | .keyword g :: .openParen :: ts => do
    let ⟨(es, rest), h⟩ ← readArguments strict ts
    let ⟨((), rest), h'⟩ ← readClose strict rest
    return ⟨(.gate g es, rest), by grind⟩
  | .keyword g :: ts => do
    Reading.tolerate strict (.keywordAsName g)
    return ⟨(.var g.name, ts), by simp⟩
  | t :: _ => Reading.fail (.unexpectedToken t)
termination_by ts => (ts.length, 0)
decreasing_by all_goals grind

/-- Reads expressions with commas between, at least one. -/
def readArguments (strict : Bool) (ts : List Token) : Reading ParseError (Read (List Expr) ts) := do
  let ⟨(e, rest), h⟩ ← readExpr strict ts
  match rest, h with
  | .comma :: rest, h =>
    let ⟨(es, rest), h'⟩ ← readArguments strict rest
    return ⟨(e :: es, rest), by grind⟩
  | rest, h => return ⟨([e], rest), h⟩
termination_by (ts.length, 3)
decreasing_by all_goals grind

end

/-- Reads a list of tokens as one expression. Tokens left over are a defect. -/
def ofTokens (strict : Bool) (ts : List Token) : Reading ParseError Expr := do
  let ⟨(e, rest), _⟩ ← readExpr strict ts
  if rest ≠ [] then
    Reading.tolerate strict (.trailingTokens rest)
  return e

/-- Reads a text as one expression. -/
def parse (strict : Bool) (text : String) : Reading ParseError Expr :=
  ofTokens strict (tokenize text)

end Expr

end LogicSchematic
