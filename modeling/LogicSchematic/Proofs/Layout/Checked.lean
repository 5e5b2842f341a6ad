import LogicSchematic.Schematic
import LogicSchematic.Proofs.Layout.Columns

/-!
# Layout with checks

Placement and routing look positions and nodes up by number, count lanes, and put a bend between two
bounds. The functions here do the same and give nothing at a number without a position or a node, at
a level without a column, where there are no lanes, or at bounds in the wrong order. On a consistent
netlist they do what those without checks do (`ofNetlist?_eq`): there is a position for every node
at all times, nodes are driven by nodes, wires join nodes, and no bend is bounded without looking at
the bounds (`bend?_eq`).
-/

namespace LogicSchematic

variable {α : Type} [Scalar α]

namespace Placement

/-- Moves a node, if there is a position for it. -/
def Positions.set? (positions : Positions α) (id : NodeId) (p : Point α) :
    Option (Positions α) :=
  if id < positions.size then some (positions.setIfInBounds id p) else none

/-- `placeInputs` with checks. -/
def placeInputs? (net : Netlist) (constants : PlacementConstants α) : Option (Positions α) :=
  net.inputs.toList.zipIdx.foldlM
    (fun positions (id, i) => Positions.set? positions id
      ⟨constants.columnX 0, constants.inputTop + Scalar.ofNat i * constants.inputSpacing⟩)
    (Array.replicate net.nodes.size Point.origin)

/-- `candidates` with checks. -/
def candidates? (net : Netlist) (constants : PlacementConstants α) (positions : Positions α)
    (level : Nat) : Option (List (Candidate α)) :=
  (net.nodes.toList.zipIdx.filter fun (n, _) => n.level = level).mapM fun (n, id) => do
    return ⟨id, idealHeight constants (← n.children.mapM (positions[·]?)), n.group⟩

/-- `placeLevel` with checks. -/
def placeLevel? (net : Netlist) (constants : PlacementConstants α) (positions : Positions α)
    (level : Nat) : Option (Positions α) := do
  let sorted := sortCandidates constants.tieThreshold (← candidates? net constants positions level)
  (stack constants.minGap none sorted).foldlM
    (fun positions (id, y) => Positions.set? positions id ⟨constants.columnX level, y⟩) positions

/-- `place` with checks; every node must stand in one of the columns. -/
def place? (net : Netlist) (constants : PlacementConstants α) : Option (Positions α) := do
  guard (∀ n ∈ net.nodes.toList, n.level < net.maxLevel + 1)
  (List.range net.maxLevel).foldlM
    (fun positions i => placeLevel? net constants positions (i + 1))
    (← placeInputs? net constants)

end Placement

namespace Routing

/-- `Scalar.clamp`, if the bounds are in order. -/
def clamp? (low high x : α) : Option α :=
  if Scalar.le low high then some (Scalar.clamp low high x) else none

/-- `lane`, if there is a lane. -/
def lane? (constants : RoutingConstants α) (index : Nat) : Option α :=
  let count := Nat.max constants.laneCount 1
  if count = 0 then none
  else some (Scalar.ofNat (index % count) - Scalar.ofNat (count - 1) / Scalar.ofNat 2)

/-- `bend` with checks. -/
def bend? (constants : RoutingConstants α) (index : Nat) (start stop : α) : Option α := do
  let low := Scalar.min start stop + constants.clearance
  let high := Scalar.max start stop - constants.clearance
  let lane ← lane? constants index
  if Scalar.le low high then
    clamp? low high (idealBend constants start stop + lane * constants.laneSpacing)
  else some (midpoint start stop)

theorem lane?_eq (constants : RoutingConstants α) (index : Nat) :
    lane? constants index = some (lane constants index) :=
  if_neg (Nat.ne_of_gt (Nat.le_max_right constants.laneCount 1))

/-- A bend is bounded only by bounds that are in order. -/
theorem bend?_eq (constants : RoutingConstants α) (index : Nat) (start stop : α) :
    bend? constants index start stop = some (bend constants index start stop) := by
  rw [bend?, lane?_eq, bend]
  simp only [Option.bind_eq_bind, Option.bind_some]
  split
  next h => exact if_pos h
  next => rfl

end Routing

namespace Schematic

/-- Where a pin lies, if its node has a position. -/
def pinPosition? (net : Netlist) (positions : Placement.Positions α)
    (pin : NodeKind → Option (Point α)) (id : NodeId) : Option (Point α) := do
  let n ← net.nodes[id]?
  let p ← positions[id]?
  return p.add ((pin n.kind).getD Point.origin)

/-- `routeWire` with checks. -/
def routeWire? (net : Netlist) (routing : RoutingConstants α) (pins : PinTable α)
    (positions : Placement.Positions α) (index : Nat) (w : Wire) : Option (RoutedWire α) := do
  let start ← pinPosition? net positions (pins.output · w.sourcePin) w.source
  let stop ← pinPosition? net positions (pins.input · w.targetPin) w.target
  let bend ← Routing.bend? routing index start.x stop.x
  return ⟨index, w, start, bend, stop⟩

/-- `ofNetlist` with checks. -/
def ofNetlist? (net : Netlist) (placement : PlacementConstants α) (routing : RoutingConstants α)
    (pins : PinTable α) : Option (Schematic α) := do
  let positions ← Placement.place? net placement
  let nodes ← net.nodes.toList.zipIdx.mapM fun (n, id) => do
    return ⟨id, n.kind, n.level, ← positions[id]?, n.label⟩
  let wires ← net.wires.toList.zipIdx.mapM fun (w, index) =>
    routeWire? net routing pins positions index w
  return ⟨nodes, wires⟩

end Schematic

variable {net : Netlist} {positions : Placement.Positions α}

/-- Wires join nodes. -/
theorem Netlist.Consistent.lt_size_of_mem_wires (h : net.Consistent) {w : Wire}
    (hw : w ∈ net.wires.toList) : w.source < net.nodes.size ∧ w.target < net.nodes.size := by
  obtain ⟨-, n, hn, hchild⟩ := h.mem_wires_iff.mp (Array.mem_toList_iff.mp hw)
  have htarget := (Array.getElem?_eq_some_iff.mp hn).1
  have hsource := ((h.nodes w.target n hn).drivers w.source (List.mem_of_getElem? hchild)).1
  exact ⟨Nat.lt_trans hsource htarget, htarget⟩

namespace Placement

omit [Scalar α] in
theorem Positions.set?_eq {id : NodeId} (hid : id < positions.size) (p : Point α) :
    Positions.set? positions id p = some (positions.setIfInBounds id p) :=
  if_pos hid

theorem Positions.getElem?_eq_at {id : NodeId} (hid : id < positions.size) :
    positions[id]? = some (positions.at id) := by
  rw [Positions.at, Array.getElem?_eq_getElem hid, Option.getD_some]

omit [Scalar α] in
/-- Nodes that have positions are moved, one after another. -/
theorem foldlM_set?_eq {ι : Type} {xs : List ι} (id : ι → NodeId) {point : ι → Point α} {n : Nat}
    (hids : ∀ x ∈ xs, id x < n) (hsize : positions.size = n) :
    xs.foldlM (fun positions x => Positions.set? positions (id x) (point x)) positions =
        some (xs.foldl (fun positions x => positions.setIfInBounds (id x) (point x)) positions) ∧
      (xs.foldl (fun positions x => positions.setIfInBounds (id x) (point x)) positions).size =
        n := by
  refine Option.foldlM_eq_some_foldl (fun positions : Positions α => positions.size = n) ?_ hsize
  intro positions hsize x hx
  exact ⟨Positions.set?_eq (hsize ▸ hids x hx) _, Array.size_setIfInBounds.trans hsize⟩

theorem placeInputs?_eq (h : net.Listed) (constants : PlacementConstants α) :
    placeInputs? net constants = some (placeInputs net constants) ∧
      (placeInputs net constants).size = net.nodes.size := by
  refine foldlM_set?_eq Prod.fst (fun p hp => ?_) Array.size_replicate
  exact h.lt_size_of_mem_inputs (List.fst_mem_of_mem_zipIdx hp)

theorem candidates?_eq (h : net.Consistent) (constants : PlacementConstants α)
    (hsize : positions.size = net.nodes.size) (level : Nat) :
    candidates? net constants positions level = some (candidates net constants positions level) := by
  rw [candidates_eq_map]
  refine Option.mapM_eq_some_map fun p hp => ?_
  obtain ⟨n, id⟩ := p
  have hn : net.nodes[id]? = some n := (mem_levelNodes.mp hp).1
  have hchildren : n.children.mapM (positions[·]?) =
      some (n.children.map (Positions.at positions)) := by
    refine Option.mapM_eq_some_map fun child hchild => Positions.getElem?_eq_at ?_
    have hlt := ((h.nodes id n hn).drivers child hchild).1
    rw [hsize]
    exact Nat.lt_trans hlt (Array.getElem?_eq_some_iff.mp hn).1
  dsimp only
  rw [hchildren]
  rfl

theorem placeLevel?_eq (h : net.Consistent) (constants : PlacementConstants α)
    (hsize : positions.size = net.nodes.size) (level : Nat) :
    placeLevel? net constants positions level = some (placeLevel net constants positions level) ∧
      (placeLevel net constants positions level).size = net.nodes.size := by
  rw [placeLevel?, candidates?_eq h constants hsize level]
  refine foldlM_set?_eq Prod.fst (fun p hp => ?_) hsize
  -- what is stacked is a node of the level
  obtain ⟨n, hn, -⟩ := mem_map_fst_stack.mp (List.mem_map_of_mem hp)
  exact (Array.getElem?_eq_some_iff.mp hn).1

theorem place?_eq (h : net.Consistent) (constants : PlacementConstants α) :
    place? net constants = some (place net constants) ∧
      (place net constants).size = net.nodes.size := by
  -- there are columns up to the highest level
  have hcolumns : ∀ n ∈ net.nodes.toList, n.level < net.maxLevel + 1 := fun n hn =>
    Nat.lt_succ_of_le (Netlist.le_highest (List.mem_map_of_mem hn))
  obtain ⟨hinputs, hsize⟩ := placeInputs?_eq h.listed constants
  rw [place?, guard, if_pos hcolumns, hinputs]
  refine Option.foldlM_eq_some_foldl
    (fun positions : Positions α => positions.size = net.nodes.size) ?_ hsize
  exact fun positions hsize i _ => placeLevel?_eq h constants hsize (i + 1)

end Placement

namespace Schematic

theorem pinPosition?_eq (hsize : positions.size = net.nodes.size)
    (pin : NodeKind → Option (Point α)) {id : NodeId} (hid : id < net.nodes.size) :
    pinPosition? net positions pin id = some (pinPosition net positions pin id) := by
  rw [pinPosition?, pinPosition, Array.getElem?_eq_getElem hid,
    Placement.Positions.getElem?_eq_at (hsize ▸ hid)]
  rfl

theorem routeWire?_eq (hsize : positions.size = net.nodes.size) (routing : RoutingConstants α)
    (pins : PinTable α) (index : Nat) {w : Wire} (hsource : w.source < net.nodes.size)
    (htarget : w.target < net.nodes.size) :
    routeWire? net routing pins positions index w =
      some (routeWire net routing pins positions index w) := by
  rw [routeWire?, pinPosition?_eq hsize _ hsource, pinPosition?_eq hsize _ htarget]
  simp only [Option.bind_eq_bind, Option.bind_some, Routing.bend?_eq]
  rfl

/-- A consistent netlist is laid out without a failing check. -/
theorem ofNetlist?_eq (h : net.Consistent) (placement : PlacementConstants α)
    (routing : RoutingConstants α) (pins : PinTable α) :
    ofNetlist? net placement routing pins = some (ofNetlist net placement routing pins) := by
  obtain ⟨hplace, hsize⟩ := Placement.place?_eq h placement
  have hnodes : (net.nodes.toList.zipIdx.mapM fun (n, id) => do
      return PositionedNode.mk id n.kind n.level (← (Placement.place net placement)[id]?) n.label) =
      some (net.nodes.toList.zipIdx.map fun (n, id) =>
        ⟨id, n.kind, n.level, (Placement.place net placement).at id, n.label⟩) := by
    refine Option.mapM_eq_some_map fun p hp => ?_
    have hlt := List.snd_lt_of_mem_zipIdx hp
    rw [Array.length_toList, ← hsize, Nat.add_zero] at hlt
    dsimp only
    rw [Placement.Positions.getElem?_eq_at hlt]
    rfl
  have hwires : (net.wires.toList.zipIdx.mapM fun (w, index) =>
      routeWire? net routing pins (Placement.place net placement) index w) =
      some (net.wires.toList.zipIdx.map fun (w, index) =>
        routeWire net routing pins (Placement.place net placement) index w) := by
    refine Option.mapM_eq_some_map fun p hp => ?_
    obtain ⟨hsource, htarget⟩ := h.lt_size_of_mem_wires (List.fst_mem_of_mem_zipIdx hp)
    exact routeWire?_eq hsize routing pins p.2 hsource htarget
  rw [ofNetlist?, hplace]
  simp only [Option.bind_eq_bind, Option.bind_some] at hnodes ⊢
  rw [hnodes, Option.bind_some, hwires]
  rfl

end Schematic

end LogicSchematic
