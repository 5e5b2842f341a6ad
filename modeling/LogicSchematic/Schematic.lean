import LogicSchematic.Layout.Placement
import LogicSchematic.Layout.Routing

/-!
# Schematics

A netlist with a position for every node and a path for every wire.
-/
namespace LogicSchematic

/-- A node and its position. -/
structure PositionedNode (α : Type) where
  id : NodeId
  kind : NodeKind
  level : Nat
  position : Point α
  label : Option String
  deriving DecidableEq, Repr

/-- A wire, its number, and its path. -/
structure RoutedWire (α : Type) where
  id : Nat
  wire : Wire
  path : WirePath α
  deriving DecidableEq, Repr

/-- The nodes of a netlist with their positions, and its wires with their paths. -/
structure Schematic (α : Type) where
  nodes : List (PositionedNode α)
  wires : List (RoutedWire α)
  deriving DecidableEq, Repr

namespace Schematic

variable {α : Type} [Scalar α]

/-- Where a pin lies. A pin that the table does not have lies at the origin of its node. -/
def pinPosition (net : Netlist) (positions : Placement.Positions α)
    (pin : NodeKind → Option (Point α)) (id : NodeId) : Point α :=
  let offset := (net.nodes[id]?).bind fun n => pin n.kind
  (positions.at id).add (offset.getD Point.origin)

/-- The path of a wire. -/
def routeWire (net : Netlist) (routing : RoutingConstants α) (pins : PinTable α)
    (positions : Placement.Positions α) (index : Nat) (w : Wire) : RoutedWire α :=
  let start := pinPosition net positions (pins.output · w.sourcePin) w.source
  let stop := pinPosition net positions (pins.input · w.targetPin) w.target
  ⟨index, w, Routing.route routing index start stop⟩

/-- Places the nodes of a netlist and routes its wires. -/
def ofNetlist (net : Netlist) (placement : PlacementConstants α) (routing : RoutingConstants α)
    (pins : PinTable α) : Schematic α :=
  let positions := Placement.place net placement
  { nodes := net.nodes.toList.zipIdx.map fun (n, id) =>
      ⟨id, n.kind, n.level, positions.at id, n.label⟩
    wires := net.wires.toList.zipIdx.map fun (w, index) =>
      routeWire net routing pins positions index w }

/-- The bottom right corner of the area that nodes and wires cover, which begins at the origin. -/
def extent (s : Schematic α) : Point α :=
  let corners := s.nodes.map PositionedNode.position ++ s.wires.flatMap (·.path.points)
  corners.foldl Point.max Point.origin

@[simp] theorem length_nodes_ofNetlist (net : Netlist) (placement : PlacementConstants α)
    (routing : RoutingConstants α) (pins : PinTable α) :
    (ofNetlist net placement routing pins).nodes.length = net.nodes.size := by
  simp [ofNetlist]

@[simp] theorem length_wires_ofNetlist (net : Netlist) (placement : PlacementConstants α)
    (routing : RoutingConstants α) (pins : PinTable α) :
    (ofNetlist net placement routing pins).wires.length = net.wires.size := by
  simp [ofNetlist]

end Schematic

end LogicSchematic
