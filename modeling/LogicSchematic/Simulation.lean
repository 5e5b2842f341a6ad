import LogicSchematic.Expr.Eval
import LogicSchematic.Netlist

/-!
# Simulation of netlists

A netlist is simulated on 64 assignments at a time, one word per input and one word per output. The
order of the nodes is topological, so that one pass computes every node from nodes before it.
`nodeWords_size` says that the pass gives every node a word.
-/
namespace LogicSchematic

/-- Why a simulation gives no words. -/
inductive SimulationError where
  /-- Not one word for every input. -/
  | inputCount (words inputs : Nat)
  /-- An output or an inverter without a driver. -/
  | missingOperand
  /-- A driver that has no word yet. -/
  | unknownNode (id : NodeId)
  deriving DecidableEq, Repr

/-- The text of a simulation error. -/
def SimulationError.message : SimulationError → String
  | .inputCount words inputs =>
    "got " ++ Nat.repr words ++ " words for " ++ Nat.repr inputs ++ " inputs"
  | .missingOperand => "a node has no operand"
  | .unknownNode id => "node " ++ nodeName id ++ " has no value"

namespace Netlist

/-- The words of the drivers of a node. -/
def driverWords (words : Array UInt64) : List NodeId → Except SimulationError (List UInt64)
  | [] => .ok []
  | id :: ids => do
    let w ← match words[id]? with
      | some w => .ok w
      | none => .error (.unknownNode id)
    return w :: (← driverWords words ids)

/-- The word of the next node, when the nodes before it have the words `words` and the inputs have
the words `given`. An input node that is none of these has the word 0. -/
def nodeWord (given : List (NodeId × UInt64)) (words : Array UInt64) (n : Node) :
    Except SimulationError UInt64 := do
  let operands ← driverWords words n.children
  match n.kind, operands with
  | .input, _ => return (given.lookup words.size).getD 0
  | .output, [] => throw .missingOperand
  | .output, w :: _ => return w
  | .gate g, ws =>
    match g.eval? ws with
    | some w => return w
    | none => throw .missingOperand

/-- The words of all nodes, those of the first ones given. -/
def nodeWords (given : List (NodeId × UInt64)) :
    Array UInt64 → List Node → Except SimulationError (Array UInt64)
  | words, [] => .ok words
  | words, n :: ns => do
    let w ← nodeWord given words n
    nodeWords given (words.push w) ns

/-- Simulates a netlist: one word per input, one word per output. -/
def simulate (net : Netlist) (words : List UInt64) : Except SimulationError (List UInt64) := do
  if words.length ≠ net.inputs.size then
    throw (.inputCount words.length net.inputs.size)
  let values ← nodeWords (net.inputs.toList.zip words) #[] net.nodes.toList
  driverWords values net.outputs.toList

/-- The word that is the same bit 64 times. -/
def repeatBit (b : Bool) : UInt64 := if b then ~~~0 else 0

/-- Simulates a netlist on one assignment. -/
def simulateSingle (net : Netlist) (bits : List Bool) : Except SimulationError (List Bool) := do
  let words ← net.simulate (bits.map repeatBit)
  return words.map fun w => w &&& 1 != 0

theorem nodeWords_size {given : List (NodeId × UInt64)} {ns : List Node} :
    ∀ {words result : Array UInt64}, nodeWords given words ns = .ok result →
      result.size = words.size + ns.length := by
  induction ns with
  | nil =>
    intro words result h
    cases h
    simp
  | cons n ns ih =>
    intro words result h
    simp only [nodeWords, bind, Except.bind] at h
    split at h
    · cases h
    · have := ih h
      simp only [Array.size_push, List.length_cons] at this ⊢
      omega

end Netlist

end LogicSchematic
