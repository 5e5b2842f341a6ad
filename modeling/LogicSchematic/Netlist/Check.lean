import LogicSchematic.Netlist

/-!
# Consistency of netlists

`check` looks at the nodes in order and reports the first thing that is wrong: too many drivers, a
driver that comes later, drives nothing or is not at a lower level, an input above level 0, a node
without a driver. Last, there must be as many wires as drivers.
-/
namespace LogicSchematic.Netlist

/-- Reports a fault when a condition fails. -/
def demand (condition : Bool) (fault : NetlistFault) : Except NetlistFault Unit :=
  if condition then .ok () else .error fault

/-- Checks a driver of a node. -/
def checkDriver (net : Netlist) (id : NodeId) (n : Node) (child : NodeId) :
    Except NetlistFault Unit := do
  demand (child < id) (.notSorted id)
  let driver ← net.node child
  demand driver.kind.hasOutput (.noOutput child)
  demand (driver.level < n.level) (.invalidLevel id)

/-- Checks a node. -/
def checkNode (net : Netlist) (id : NodeId) (n : Node) : Except NetlistFault Unit := do
  demand (n.children.length ≤ n.kind.inputPins) (.tooManyInputs n.kind id)
  n.children.forM (net.checkDriver id n)
  if n.kind = .input then
    demand (n.level = 0) (.inputLevel id n.level)
  else
    demand (n.children ≠ []) (.noInput id)

/-- The number of drivers of all nodes. -/
def driverCount (net : Netlist) : Nat :=
  net.nodes.toList.foldl (fun count n => count + n.children.length) 0

/-- Checks a netlist. -/
def check (net : Netlist) : Except NetlistFault Unit := do
  net.nodes.toList.zipIdx.forM fun (n, id) => net.checkNode id n
  demand (net.driverCount = net.wires.size) (.wireCount net.driverCount net.wires.size)

theorem demand_eq_ok_iff {condition : Bool} {fault : NetlistFault} :
    demand condition fault = .ok () ↔ condition = true := by
  cases condition <;> simp [demand]

end LogicSchematic.Netlist
