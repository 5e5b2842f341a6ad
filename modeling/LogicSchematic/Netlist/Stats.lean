import LogicSchematic.Netlist

/-!
# Statistics of netlists

How many inputs, outputs, wires and gates of each kind a netlist has, how deep it is, and how many
input pins the busiest node drives.
-/
namespace LogicSchematic

/-- The figures of a netlist. -/
structure NetlistStats where
  inputs : Nat
  outputs : Nat
  /-- The number of gates of each kind, in listing order. -/
  byKind : List (Gate × Nat)
  wires : Nat
  /-- The number of gate levels before the outputs. -/
  depth : Nat
  /-- The largest number of input pins driven by one node. -/
  maxFanout : Nat
  deriving DecidableEq, Repr

namespace NetlistStats

/-- The number of gates of all kinds. -/
def gates (s : NetlistStats) : Nat := s.byKind.foldl (fun count (_, n) => count + n) 0

/-- A figure on a line of its own. -/
def line (name : String) (value : Nat) : String :=
  "  " ++ name ++ ": " ++ Nat.repr value ++ "\n"

/-- The text of the figures. Kinds that do not occur are left out. -/
def text (s : NetlistStats) : String :=
  let kinds := s.byKind.filter (·.2 ≠ 0)
  "Stats:\n" ++ line "Inputs" s.inputs ++ line "Outputs" s.outputs ++ line "Gates" s.gates ++
    String.join (kinds.map fun (g, count) => line ("    " ++ g.name) count) ++
    line "Wires" s.wires ++ line "Depth" s.depth ++ line "Max fanout" s.maxFanout

end NetlistStats

namespace Netlist

/-- The number of gates of a kind. -/
def countOf (net : Netlist) (g : Gate) : Nat :=
  net.nodes.toList.countP (·.kind == .gate g)

/-- The number of input pins that a node drives. -/
def fanout (net : Netlist) (id : NodeId) : Nat :=
  net.wires.toList.countP (·.source == id)

/-- The levels of the nodes that drive outputs. -/
def driverLevels (net : Netlist) : List Nat :=
  let outputs := net.outputs.toList.filterMap (net.nodes[·]?)
  let drivers := (outputs.flatMap Node.children).filterMap (net.nodes[·]?)
  drivers.map Node.level

/-- The figures of a netlist. -/
def stats (net : Netlist) : NetlistStats where
  inputs := net.inputs.size
  outputs := net.outputs.size
  byKind := Gate.all.map fun g => (g, net.countOf g)
  wires := net.wires.size
  depth := highest net.driverLevels
  maxFanout := highest ((List.range net.nodes.size).map net.fanout)

end Netlist

end LogicSchematic
