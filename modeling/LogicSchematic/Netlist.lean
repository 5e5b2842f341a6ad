import LogicSchematic.Gate

/-!
# Netlists

A circuit with named inputs and outputs. Nodes are known by their position in creation order, and a
node is driven by nodes that were there before it, so the order is topological. Every node has a
level: inputs are at level 0, any other node is one above the highest of its drivers, and
`alignOutputs` moves all outputs to the level after the last gate.

Adding a node fails only when a driver does not exist: `addGate_isOk_iff` and `addOutput_isOk_iff`.
-/
namespace LogicSchematic

/-- The kind of a node. -/
inductive NodeKind where
  | input
  | output
  | gate (g : Gate)
  deriving DecidableEq, Repr

namespace NodeKind

/-- The upper-case name of a kind. -/
def name : NodeKind → String
  | .input => "INPUT"
  | .output => "OUTPUT"
  | .gate g => g.name

/-- The number of input pins. -/
def inputPins : NodeKind → Nat
  | .input => 0
  | .output => 1
  | .gate g => g.inputPins

/-- Whether a node of this kind can drive others. -/
def hasOutput : NodeKind → Bool
  | .output => false
  | _ => true

end NodeKind

/-- The position of a node in its netlist. -/
abbrev NodeId := Nat

/-- The name a node goes by in texts. -/
def nodeName (id : NodeId) : String := "n" ++ Nat.repr id

/-- A node of a netlist. -/
structure Node where
  kind : NodeKind
  /-- The nodes that drive the input pins, in pin order. -/
  children : List NodeId
  level : Nat
  /-- The equation the node was made for. -/
  group : Nat
  /-- The name of an input or an output. -/
  label : Option String
  deriving DecidableEq, Repr

/-- A connection from an output pin to an input pin. -/
structure Wire where
  source : NodeId
  sourcePin : Nat
  target : NodeId
  targetPin : Nat
  deriving DecidableEq, Repr

/-- A circuit with its nodes, its wires, and its inputs and outputs, all in creation order. -/
structure Netlist where
  nodes : Array Node
  wires : Array Wire
  inputs : Array NodeId
  outputs : Array NodeId
  deriving DecidableEq, Repr

/-- What can be wrong with a netlist. -/
inductive NetlistFault where
  /-- There is no node of this number. -/
  | unknownNode (id : NodeId)
  /-- More drivers than pins. -/
  | tooManyInputs (kind : NodeKind) (id : NodeId)
  /-- A driver that comes later. -/
  | notSorted (id : NodeId)
  /-- A driver that drives nothing. -/
  | noOutput (child : NodeId)
  /-- A driver that is not at a lower level. -/
  | invalidLevel (id : NodeId)
  /-- An input that is not at level 0. -/
  | inputLevel (id : NodeId) (level : Nat)
  /-- A node without drivers that is no input. -/
  | noInput (id : NodeId)
  /-- Not as many wires as drivers. -/
  | wireCount (drivers wires : Nat)
  deriving DecidableEq, Repr

/-- The text that says of two numbers that they should be equal. -/
def NetlistFault.unequal (what : String) (left right : Nat) : String :=
  "assertion `left == right` failed: " ++ what ++ "\n  left: " ++ Nat.repr left ++
    "\n right: " ++ Nat.repr right

/-- The text of a fault. -/
def NetlistFault.message : NetlistFault → String
  | .unknownNode id => "Unknown node " ++ nodeName id
  | .tooManyInputs kind id => "Too many inputs for " ++ kind.name ++ " " ++ nodeName id
  | .notSorted id => "Node " ++ nodeName id ++ " is not topologically sorted"
  | .noOutput child => "Node " ++ nodeName child ++ " has no output"
  | .invalidLevel id => "Invalid level for " ++ nodeName id
  | .inputLevel id level => unequal ("Input " ++ nodeName id ++ " is not at level 0") level 0
  | .noInput id => "Node " ++ nodeName id ++ " has no input"
  | .wireCount drivers wires => unequal "Wires do not match the nodes" drivers wires

namespace Netlist

/-- The netlist without nodes. -/
def empty : Netlist := ⟨#[], #[], #[], #[]⟩

/-- The number of gates: the nodes that were not added as inputs or outputs. -/
def gateCount (net : Netlist) : Nat :=
  net.nodes.size - net.inputs.size - net.outputs.size

/-- The node of a number. -/
def node (net : Netlist) (id : NodeId) : Except NetlistFault Node :=
  match net.nodes[id]? with
  | some n => .ok n
  | none => .error (.unknownNode id)

/-- The highest number of a list; 0 for an empty list. -/
def highest (ns : List Nat) : Nat := ns.foldl max 0

/-- The highest level. -/
def maxLevel (net : Netlist) : Nat :=
  highest (net.nodes.toList.map Node.level)

/-- The wires into a new node. -/
def wiresInto (target : NodeId) (children : List NodeId) : List Wire :=
  children.zipIdx.map fun (child, pin) => ⟨child, 0, target, pin⟩

/-- Adds a node and the wires that drive it. -/
def push (net : Netlist) (n : Node) : Netlist :=
  { net with
    nodes := net.nodes.push n
    wires := net.wires ++ wiresInto net.nodes.size n.children }

/-- Adds an input. -/
def addInput (net : Netlist) (label : String) : NodeId × Netlist :=
  let id := net.nodes.size
  (id, { net.push ⟨.input, [], 0, 0, some label⟩ with inputs := net.inputs.push id })

/-- Adds a node one level above its highest driver. -/
def addGate (net : Netlist) (kind : NodeKind) (children : List NodeId) (group : Nat) :
    Except NetlistFault (NodeId × Netlist) := do
  let drivers ← children.mapM net.node
  let level := 1 + highest (drivers.map Node.level)
  return (net.nodes.size, net.push ⟨kind, children, level, group, none⟩)

/-- Adds an output one level above its driver. -/
def addOutput (net : Netlist) (driver : NodeId) (label : String) (group : Nat) :
    Except NetlistFault (NodeId × Netlist) := do
  let n ← net.node driver
  let id := net.nodes.size
  let grown := net.push ⟨.output, [driver], n.level + 1, group, some label⟩
  return (id, { grown with outputs := net.outputs.push id })

/-- The level of the outputs, once aligned: one above all other nodes. -/
def outputLevel (net : Netlist) : Nat :=
  highest ((net.nodes.toList.filter (·.kind != .output)).map Node.level) + 1

/-- Gives all outputs the level after the last gate, however shallow their own logic is. -/
def alignOutputs (net : Netlist) : Netlist :=
  let level := net.outputLevel
  let raise (nodes : Array Node) (id : NodeId) := nodes.modify id ({ · with level })
  { net with nodes := net.outputs.foldl raise net.nodes }

/-- The text of a node with its number. -/
def nodeText (id : NodeId) (n : Node) : String :=
  let label := match n.label with
    | some l => " " ++ l
    | none => ""
  let drivers :=
    if n.children = [] then "" else "(" ++ ", ".intercalate (n.children.map nodeName) ++ ")"
  "\t" ++ nodeName id ++ " = " ++ n.kind.name ++ label ++ drivers ++ " @" ++ Nat.repr n.level ++
    "\n"

/-- The text of a netlist, a node a line. -/
def text (net : Netlist) : String :=
  "Netlist with " ++ Nat.repr net.inputs.size ++ " inputs, " ++ Nat.repr net.outputs.size ++
    " outputs:\n" ++ String.join (net.nodes.toList.zipIdx.map fun (n, id) => nodeText id n)

theorem node_isOk_iff (net : Netlist) (id : NodeId) :
    (∃ n, net.node id = .ok n) ↔ id < net.nodes.size := by
  unfold node
  by_cases h : id < net.nodes.size <;> simp [h]

theorem mapM_node_isOk_iff (net : Netlist) (ids : List NodeId) :
    (∃ ns, ids.mapM net.node = .ok ns) ↔ ∀ id ∈ ids, id < net.nodes.size := by
  induction ids with
  | nil => simp [pure, Except.pure]
  | cons id ids ih =>
    rw [List.forall_mem_cons, ← node_isOk_iff, ← ih, List.mapM_cons]
    cases hn : net.node id with
    | error e => simp [bind, Except.bind]
    | ok n =>
      cases hm : ids.mapM net.node with
      | error e => simp [bind, Except.bind]
      | ok ns => simp [bind, Except.bind, pure, Except.pure]

/-- A gate can be added exactly over nodes that exist. -/
theorem addGate_isOk_iff (net : Netlist) (kind : NodeKind) (children : List NodeId) (group : Nat) :
    (∃ r, net.addGate kind children group = .ok r) ↔ ∀ id ∈ children, id < net.nodes.size := by
  rw [← mapM_node_isOk_iff]
  unfold addGate
  cases h : children.mapM net.node with
  | error e => simp [bind, Except.bind]
  | ok ns => simp [bind, Except.bind, pure, Except.pure]

/-- An output can be added exactly to a node that exists. -/
theorem addOutput_isOk_iff (net : Netlist) (driver : NodeId) (label : String) (group : Nat) :
    (∃ r, net.addOutput driver label group = .ok r) ↔ driver < net.nodes.size := by
  rw [← node_isOk_iff]
  unfold addOutput
  cases h : net.node driver with
  | error e => simp [bind, Except.bind]
  | ok n => simp [bind, Except.bind, pure, Except.pure]

end Netlist

end LogicSchematic
