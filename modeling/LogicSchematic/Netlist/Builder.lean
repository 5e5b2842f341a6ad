import LogicSchematic.Equation
import LogicSchematic.Netlist.Check
import LogicSchematic.Synthesis

/-!
# Building netlists

A netlist is built from equations, one output each. Inputs are shared: a name is one input node,
whichever equations use it. The inputs of the expressions announced at the start come first, in
order of first appearance; each equation then adds one node for every gate of its circuit. Outputs
are added when all equations are in.
-/
namespace LogicSchematic

/-- Why an equation has no netlist. -/
inductive BuildError where
  /-- Its expression has no circuit. -/
  | synthesis (cause : SynthesisError)
  /-- The netlist is not consistent. -/
  | fault (cause : NetlistFault)
  deriving DecidableEq, Repr

/-- An output that is still to be added. -/
structure PendingOutput where
  driver : NodeId
  label : String
  group : Nat
  deriving DecidableEq, Repr

/-- A netlist under construction. -/
structure NetlistBuilder where
  netlist : Netlist
  /-- The input nodes by name. -/
  inputs : List (String × NodeId)
  /-- The outputs to come, in order. -/
  roots : List PendingOutput
  deriving DecidableEq, Repr

namespace NetlistBuilder

/-- The builder without nodes. -/
def empty : NetlistBuilder := ⟨Netlist.empty, [], []⟩

/-- The input node of a name, which is made if it is not there yet. -/
def intern (b : NetlistBuilder) (name : String) : NodeId × NetlistBuilder :=
  match b.inputs.lookup name with
  | some id => (id, b)
  | none =>
    let (id, netlist) := b.netlist.addInput name
    (id, { b with netlist, inputs := b.inputs ++ [(name, id)] })

/-- A builder with an input node for every variable of the expressions. -/
def announce (exprs : List Expr) : NetlistBuilder :=
  ((exprs.flatMap Expr.occurrences).eraseDups).foldl (fun b name => (b.intern name).2) empty

/-- The node of an operand, when the gates of its circuit have the nodes `ids`. -/
def resolve (b : NetlistBuilder) (ids : Array NodeId) :
    Operand → Except NetlistFault (NodeId × NetlistBuilder)
  | .var name => .ok (b.intern name)
  | .gate index =>
    match ids[index]? with
    | some id => .ok (id, b)
    | none => .error (.unknownNode index)

/-- The nodes of several operands, in order. -/
def resolveAll (b : NetlistBuilder) (ids : Array NodeId) :
    List Operand → Except NetlistFault (List NodeId × NetlistBuilder)
  | [] => .ok ([], b)
  | x :: xs => do
    let (id, b) ← b.resolve ids x
    let (rest, b) ← b.resolveAll ids xs
    return (id :: rest, b)

/-- Adds the gates of a circuit, whose first gates have the nodes `ids`. -/
def addGates (b : NetlistBuilder) (group : Nat) (ids : Array NodeId) :
    List MappedGate → Except NetlistFault (Array NodeId × NetlistBuilder)
  | [] => .ok (ids, b)
  | g :: gs => do
    let (children, b) ← b.resolveAll ids g.operands
    let (id, netlist) ← b.netlist.addGate (.gate g.gate) children group
    addGates { b with netlist } group (ids.push id) gs

/-- Adds the gates of a circuit and gives the node of its root. -/
def addMapping (b : NetlistBuilder) (group : Nat) (m : Mapping) :
    Except NetlistFault (NodeId × NetlistBuilder) := do
  let (ids, b) ← b.addGates group #[] m.gates
  b.resolve ids m.root

/-- Adds the circuit of an equation and gives the node that drives its output. -/
def addEquation (s : Synthesizer) (b : NetlistBuilder) (e : Equation) (group : Nat) :
    Except BuildError (NodeId × NetlistBuilder) := do
  let m ← (s.synthesize e.expr.flatten).mapError BuildError.synthesis
  let (root, b) ← (b.addMapping group m).mapError BuildError.fault
  return (root, { b with roots := b.roots ++ [⟨root, e.label, group⟩] })

/-- Adds several equations in turn; the number of the first is `group`. -/
def addEquations (s : Synthesizer) (b : NetlistBuilder) (group : Nat) :
    List Equation → Except BuildError NetlistBuilder
  | [] => .ok b
  | e :: es => do
    let (_, b) ← b.addEquation s e group
    addEquations s b (group + 1) es

/-- Adds outputs in turn. -/
def addOutputs (net : Netlist) : List PendingOutput → Except NetlistFault Netlist
  | [] => .ok net
  | o :: os => do
    let (_, net) ← net.addOutput o.driver o.label o.group
    addOutputs net os

/-- The netlist with its outputs, which share the last level. -/
def finish (b : NetlistBuilder) : Except NetlistFault Netlist := do
  let net := (← addOutputs b.netlist b.roots).alignOutputs
  net.check
  return net

end NetlistBuilder

/-- The netlist of equations, which are numbered from zero. -/
def buildNetlist (s : Synthesizer) (equations : List Equation) : Except BuildError Netlist := do
  let b := NetlistBuilder.announce (equations.map Equation.expr)
  let b ← b.addEquations s 0 equations
  b.finish.mapError BuildError.fault

end LogicSchematic
