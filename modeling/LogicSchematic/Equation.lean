import LogicSchematic.Expr.Parser
import LogicSchematic.Text.Split

/-!
# Equations

A text holds one equation a line, `LABEL = EXPRESSION` or just an expression; blank lines count only
for the line numbers. An equation without a label is named after its place among the equations, `Y1`
for the first. `numberedLines_no_blank` says that no blank line is kept.
-/
namespace LogicSchematic

/-- An expression and the name of the output it drives. -/
structure Equation where
  label : String
  expr : Expr
  deriving DecidableEq, Repr

namespace Equation

/-- The label of an equation that gives none, from its index. The numbers in labels are 64-bit
words: after the last one comes 0. -/
def defaultLabel (index : Nat) : String :=
  "Y" ++ Nat.repr ((index + 1) % UInt64.size)

/-- The label and the expression text of a line. The first equality sign divides them; without one,
or with only blanks before it, the label is the default one. -/
def cut (index : Nat) (line : List Char) : String × List Char :=
  let (left, right) := (Text.splitFirst? '=' line).getD ([], line)
  let label := Text.trim left
  (if label = [] then defaultLabel index else String.ofList label, right)

/-- Reads the line with a given index among the equations, counted from zero. -/
def parse (strict : Bool) (index : Nat) (line : String) : Reading ParseError Equation := do
  let (label, text) := cut index line.toList
  let expr ← Expr.parse strict (String.ofList text)
  return ⟨label, expr⟩

/-- The lines of a text that are not blank, with their numbers, counted from one. -/
def numberedLines (text : String) : List (Nat × String) :=
  (Text.lines text.toList).zipIdx.filterMap fun (line, index) =>
    if line.all Text.isBlank then none else some (index + 1, String.ofList line)

/-- A parse error and the number of the line it is in. -/
structure LineError where
  line : Nat
  cause : ParseError
  deriving DecidableEq, Repr

/-- Reads numbered lines as equations, the first of them at index `index`. -/
def parseLines (strict : Bool) :
    (index : Nat) → List (Nat × String) → Reading LineError (List (Nat × Equation))
  | _, [] => return []
  | index, (number, line) :: rest => do
    let equation ← (parse strict index line).mapError (LineError.mk number)
    let equations ← parseLines strict (index + 1) rest
    return (number, equation) :: equations

/-- The equations of a text with the numbers of their lines. -/
def parseAll (strict : Bool) (text : String) : Reading LineError (List (Nat × Equation)) :=
  parseLines strict 0 (numberedLines text)

theorem numberedLines_no_blank {text : String} {number : Nat} {line : String}
    (h : (number, line) ∈ numberedLines text) : line.toList.all Text.isBlank = false := by
  simp only [numberedLines, List.mem_filterMap] at h
  obtain ⟨⟨l, i⟩, -, hl⟩ := h
  dsimp only at hl
  split at hl
  · cases hl
  · cases hl
    simp_all

end Equation

end LogicSchematic
