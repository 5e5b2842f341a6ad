import LogicSchematic.Expr.Eval
import LogicSchematic.GateSet

/-!
# Mapped circuits

The circuit of one expression: a list of gates in which every gate comes after the gates it reads,
and the operand that carries the result. A gate read in several places stands in the list once;
`unfold` writes it out at every use and gives the expression the circuit stands for, and `eval`
computes its word with one pass over the gates.
-/
namespace LogicSchematic

/-- What an input pin of a gate is connected to. -/
inductive Operand where
  /-- A variable. -/
  | var (name : String)
  /-- The output of the gate with this index. -/
  | gate (index : Nat)
  deriving DecidableEq, Repr

/-- A gate of a circuit and what its input pins are connected to, in pin order. -/
structure MappedGate where
  gate : Gate
  operands : List Operand
  deriving DecidableEq, Repr

/-- The circuit of an expression. -/
structure Mapping where
  gates : List MappedGate
  root : Operand
  deriving DecidableEq, Repr

/-- The name of a variable operand. -/
def Operand.name? : Operand → Option String
  | .var name => some name
  | .gate _ => none

/-- The index of a gate operand. -/
def Operand.index? : Operand → Option Nat
  | .var _ => none
  | .gate index => some index

namespace Mapping

/-- Whether all gates are of kinds in the set. -/
def usesOnly (m : Mapping) (allowed : GateSet) : Bool :=
  m.gates.all fun g => allowed.contains g.gate

/-- The names of the distinct variables, in order of first use; the root is used last. -/
def variableNames (m : Mapping) : List String :=
  ((m.gates.flatMap MappedGate.operands ++ [m.root]).filterMap Operand.name?).eraseDups

/-- The word of an operand, when the first gates have the words `words`. -/
def operandWord (values : Valuation) (words : Array UInt64) : Operand → Except EvalError UInt64
  | .var name => values.get name
  | .gate index =>
    match words[index]? with
    | some w => .ok w
    | none => .error .undetermined

/-- The word of a gate, when the gates before it have the words `words`. -/
def gateWord (values : Valuation) (words : Array UInt64) (g : MappedGate) :
    Except EvalError UInt64 := do
  g.gate.eval (← g.operands.mapM (operandWord values words))

/-- The words of all gates, those of the first ones given. -/
def gateWords (values : Valuation) :
    Array UInt64 → List MappedGate → Except EvalError (Array UInt64)
  | words, [] => .ok words
  | words, g :: gs => do
    let w ← gateWord values words g
    gateWords values (words.push w) gs

/-- The word of a circuit. -/
def eval (values : Valuation) (m : Mapping) : Except EvalError UInt64 := do
  let words ← gateWords values #[] m.gates
  operandWord values words m.root

/-- The expression of an operand, when the first gates have the expressions `exprs`. An index that
no gate has reads as a variable without a name. -/
def operandExpr (exprs : Array Expr) : Operand → Expr
  | .var name => .var name
  | .gate index => exprs[index]?.getD (.var "")

/-- The expressions of all gates, those of the first ones given. -/
def gateExprs : Array Expr → List MappedGate → Array Expr
  | exprs, [] => exprs
  | exprs, g :: gs =>
    gateExprs (exprs.push (.gate g.gate (g.operands.map (operandExpr exprs)))) gs

/-- The expression a circuit stands for, with every shared gate written out at each use. -/
def unfold (m : Mapping) : Expr :=
  operandExpr (gateExprs #[] m.gates) m.root

/-- The text of the expression a circuit stands for. -/
def text (m : Mapping) : String :=
  m.unfold.text

end Mapping

end LogicSchematic
