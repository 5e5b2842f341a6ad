import LogicSchematic.Equation
import LogicSchematic.Mapping
import LogicSchematic.Simulation
import LogicSchematic.Simulation.Patterns

/-!
# Equivalence

Whether two expressions, an expression and its circuit, or equations and a netlist compute the same
functions. Both sides are tried on the patterns of `Simulation.Patterns`, so that the answer is
exact up to sixteen variables. What has no word is equivalent to nothing, not even to itself.
-/
namespace LogicSchematic

/-- Whether two outcomes are the same word. An inverter without an operand is an error. -/
def sameWord : Except EvalError UInt64 → Except EvalError UInt64 → Except EvalError Bool
  | .ok x, .ok y => .ok (x == y)
  | .error .missingOperand, _ => .error .missingOperand
  | _, .error .missingOperand => .error .missingOperand
  | _, _ => .ok false

/-- The valuation that gives each name the word at its place. -/
def bindWords (names : List String) (words : List UInt64) : Valuation :=
  Valuation.ofList (names.zip words)

/-- Whether two functions of the named variables agree in every round. -/
def agreeOn (names : List String) (f g : Valuation → Except EvalError UInt64) :
    List (List UInt64) → Except EvalError Bool
  | [] => .ok true
  | words :: rounds => do
    let values := bindWords names words
    if ← sameWord (f values) (g values) then agreeOn names f g rounds else return false

/-- Whether two functions of the named variables agree on all patterns. -/
def sameFunction (names : List String) (f g : Valuation → Except EvalError UInt64) :
    Except EvalError Bool :=
  agreeOn names f g (patterns names.length 1)

/-- Whether two expressions compute the same function of all their variables. -/
def Expr.equivalent (a b : Expr) : Except EvalError Bool :=
  sameFunction (a.variableNames ++ b.variableNames).eraseDups (a.eval ·) (b.eval ·)

/-- Whether a circuit computes the same function as an expression. -/
def Mapping.equivalent (e : Expr) (m : Mapping) : Except EvalError Bool :=
  sameFunction (e.variableNames ++ m.variableNames).eraseDups (e.eval ·) (m.eval ·)

/-- An output that differs from its equation, and the assignment of the inputs where it does. The
assignment is empty when the output has no equation, or the equation no output. -/
structure Counterexample where
  output : String
  assignment : List (String × Bool)
  deriving DecidableEq, Repr

/-- The text of a counterexample. -/
def Counterexample.message (c : Counterexample) : String :=
  let bit (b : Bool) := if b then "1" else "0"
  let values := c.assignment.map fun (name, b) => name ++ "=" ++ bit b
  "output " ++ c.output ++ " differs" ++
    (if values = [] then "" else " for " ++ " ".intercalate values)

/-- The bits of a word, the lowest first. -/
def bitAt (w : UInt64) (j : Nat) : Bool := w.toNat.testBit j

/-- The lowest bit that is set in a word. -/
def lowestBit? (w : UInt64) : Option Nat :=
  (List.range 64).find? (bitAt w)

/-- The first equation whose word differs from the word of its output, with the lowest bit where it
does. An equation without a word differs everywhere. -/
def firstDifference (values : Valuation) :
    List (Equation × UInt64) → Except SimulationError (Option (Equation × Nat))
  | [] => .ok none
  | (e, actual) :: rest => do
    let difference ← match e.expr.eval values with
      | .ok expected => .ok (expected ^^^ actual)
      | .error .undetermined => .ok (~~~0)
      | .error .missingOperand => .error SimulationError.missingOperand
    match lowestBit? difference with
    | some j => return some (e, j)
    | none => firstDifference values rest

namespace Netlist

/-- The labels of the inputs. -/
def inputLabels (net : Netlist) : List String :=
  net.inputs.toList.map fun id => ((net.nodes[id]?).bind Node.label).getD ""

/-- The label of an output by its place among the outputs. -/
def outputLabel (net : Netlist) (i : Nat) : String :=
  ((net.outputs[i]?).bind fun id => (net.nodes[id]?).bind Node.label).getD ""

/-- The first difference between equations and the outputs of a netlist over several rounds. -/
def differenceOn (net : Netlist) (equations : List Equation) :
    List (List UInt64) → Except SimulationError (Option Counterexample)
  | [] => .ok none
  | words :: rounds => do
    let names := net.inputLabels
    let outputs ← net.simulate words
    match ← firstDifference (bindWords names words) (equations.zip outputs) with
    | some (e, j) =>
      return some ⟨e.label, names.zip (words.map (bitAt · j))⟩
    | none => net.differenceOn equations rounds

/-- Checks that every output computes the function of its equation; equations and outputs are
matched by their places. -/
def checkEquivalence (equations : List Equation) (net : Netlist) (seed : UInt64) :
    Except SimulationError (Option Counterexample) :=
  if equations.length = net.outputs.size then
    net.differenceOn equations (patterns net.inputs.size seed)
  else
    match equations[net.outputs.size]? with
    | some e => .ok (some ⟨e.label, []⟩)
    | none => .ok (some ⟨net.outputLabel equations.length, []⟩)

end Netlist

end LogicSchematic
