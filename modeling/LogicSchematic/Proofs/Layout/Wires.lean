import LogicSchematic.Proofs.Layout.Bends
import LogicSchematic.Proofs.Layout.Columns
import LogicSchematic.Proofs.Safety

/-!
# Wires on a schematic

With the usual distances and exact numbers, every wire of a schematic joins two pins and has room to
bend. A wire of a consistent netlist leaves the output pin of a node that drives others and enters
one of the pins of a node at a higher level, so the table of pins has both (`exists_pins`). The
nodes stand in the columns of their levels, a column apart at least, and the symbols take up at most
80 of the 200 between two columns (`output_x_le`, `le_input_x`); 120 is left, which is more than the
clearance at both ends. `generate_draws` says this of every run.
-/

namespace LogicSchematic

/-- Whether a wire joins an output pin and an input pin of two nodes, from a lower level to a higher
one, at least 120 wide, and bends at least 25 away from both pins. -/
def Schematic.Joins (s : Schematic ℚ) (r : RoutedWire ℚ) : Prop :=
  ∃ (source target : PositionedNode ℚ) (output input : Point ℚ),
    s.nodes[r.wire.source]? = some source ∧ s.nodes[r.wire.target]? = some target ∧
    standardPins.output source.kind r.wire.sourcePin = some output ∧
    standardPins.input target.kind r.wire.targetPin = some input ∧
    r.path.start = source.position.add output ∧ r.path.stop = target.position.add input ∧
    source.level < target.level ∧ 120 ≤ r.path.stop.x - r.path.start.x ∧
    r.path.start.x + 25 ≤ r.path.bendX ∧ r.path.bendX ≤ r.path.stop.x - 25

/-- Whether a schematic shows a netlist: its nodes and its wires, in order; no pin is reached by two
wires; and every wire joins two pins. -/
structure Schematic.Draws (s : Schematic ℚ) (net : Netlist) : Prop where
  nodes : (s.nodes.map fun n => (n.id, n.kind, n.level, n.label)) =
    net.nodes.toList.zipIdx.map fun p => (p.2, p.1.kind, p.1.level, p.1.label)
  wires : (s.wires.map fun r => (r.id, r.wire)) = net.wires.toList.zipIdx.map Prod.swap
  ends_nodup : (s.wires.map fun r => (r.wire.target, r.wire.targetPin)).Nodup
  joins : ∀ r ∈ s.wires, s.Joins r

/-! ## Pins -/

section Pins

variable {kind : NodeKind} {pin : Nat} {p : Point ℚ}

/-- An output pin lies 85 to the right of the origin of its symbol at most. -/
theorem output_x_le (h : standardPins.output kind pin = some p) : p.x ≤ 85 := by
  obtain ⟨-, h⟩ := Option.ite_none_right_eq_some.mp h
  obtain ⟨q, hq, rfl⟩ := Option.map_eq_some_iff.mp h
  have hle : q.1 ≤ 85 := by
    rcases kind with _ | _ | g
    · cases hq
      decide
    · cases hq
    · cases g <;> cases hq <;> decide
  show (q.1 : ℚ) ≤ 85
  exact_mod_cast hle

/-- An input pin lies 5 to the right of the origin of its symbol at least. -/
theorem le_input_x (h : standardPins.input kind pin = some p) : 5 ≤ p.x := by
  obtain ⟨q, hq, rfl⟩ := Option.map_eq_some_iff.mp h
  have hle : ∀ q ∈ StandardPins.inputs kind, 5 ≤ q.1 := by
    rcases kind with _ | _ | g
    · decide
    · decide
    · cases g <;> decide
  show (5 : ℚ) ≤ (q.1 : ℚ)
  exact_mod_cast hle q (List.mem_of_getElem? hq)

end Pins

/-! ## Columns and bends -/

/-- Columns are 200 apart. -/
theorem columnX_standard (level : Nat) :
    (PlacementConstants.standard : PlacementConstants ℚ).columnX level = 50 + level * 200 := by
  norm_num [PlacementConstants.columnX, PlacementConstants.standard]

theorem clearance_standard : (RoutingConstants.standard : RoutingConstants ℚ).clearance = 25 := by
  norm_num [RoutingConstants.standard]

/-- A wire that is 50 wide bends 25 away from both ends at least. -/
theorem bend_standard (index : Nat) {start stop : ℚ} (h : 50 ≤ stop - start) :
    start + 25 ≤ Routing.bend .standard index start stop ∧
      Routing.bend .standard index start stop ≤ stop - 25 := by
  have hle : start ≤ stop := by linarith
  have hroom : 2 * (RoutingConstants.standard : RoutingConstants ℚ).clearance ≤
      max start stop - min start stop := by
    rw [min_eq_left hle, max_eq_right hle, clearance_standard]
    linarith
  have hbend := Routing.bend_mem index hroom
  rwa [min_eq_left hle, max_eq_right hle, clearance_standard] at hbend

/-! ## Wires of a netlist -/

variable {α : Type} [Scalar α] {net : Netlist}

/-- No two wires of a netlist reach the same pin. -/
theorem Netlist.Consistent.nodup_ends (h : net.Consistent) :
    (net.wires.toList.map fun w => (w.target, w.targetPin)).Nodup := by
  rw [h.wires_eq, List.map_flatMap, List.nodup_flatMap]
  refine ⟨fun p _ => ?_, ?_⟩
  · -- the pins of one node are counted
    rw [List.map_map]
    refine List.Nodup.of_map Prod.snd ?_
    rw [List.map_map]
    show (p.1.children.zipIdx.map Prod.snd).Nodup
    rw [List.zipIdx_map_snd]
    exact List.nodup_range'
  · have hids : (net.nodes.toList.zipIdx.map Prod.snd).Nodup := by
      rw [List.zipIdx_map_snd]
      exact List.nodup_range'
    refine (List.pairwise_map.mp hids).imp fun {p q} hne => ?_
    -- the pins of two nodes are pins of different nodes
    intro e hp hq
    obtain ⟨v, hv, rfl⟩ := List.mem_map.mp hp
    obtain ⟨w, hw, heq⟩ := List.mem_map.mp hq
    obtain ⟨c, -, rfl⟩ := List.mem_map.mp hv
    obtain ⟨d, -, rfl⟩ := List.mem_map.mp hw
    exact hne (congrArg Prod.fst heq).symm

variable (α) in
/-- A wire of a consistent netlist joins two pins of nodes at different levels. -/
theorem Netlist.Consistent.exists_pins (h : net.Consistent) {w : Wire} (hw : w ∈ net.wires) :
    ∃ (m n : Node) (output input : Point α), net.nodes[w.source]? = some m ∧
      net.nodes[w.target]? = some n ∧ standardPins.output m.kind w.sourcePin = some output ∧
      standardPins.input n.kind w.targetPin = some input ∧ m.level < n.level := by
  obtain ⟨hpin, n, hn, hchild⟩ := h.mem_wires_iff.mp hw
  obtain ⟨hlt, m, hm, hdrives, hlevel⟩ :=
    (h.nodes w.target n hn).drivers w.source (List.mem_of_getElem? hchild)
  have houtput : ((standardPins : PinTable α).output m.kind w.sourcePin).isSome :=
    (standardPins_output_isSome_iff _ _).mpr ⟨hpin, hdrives⟩
  have hinput : ((standardPins : PinTable α).input n.kind w.targetPin).isSome := by
    refine (standardPins_input_isSome_iff _ _).mpr (Nat.lt_of_lt_of_le ?_ (h.nodes _ n hn).pins)
    exact (List.getElem?_eq_some_iff.mp hchild).1
  obtain ⟨output, houtput⟩ := Option.isSome_iff_exists.mp houtput
  obtain ⟨input, hinput⟩ := Option.isSome_iff_exists.mp hinput
  exact ⟨m, n, output, input, hm, hn, houtput, hinput, hlevel⟩

namespace Schematic

theorem getElem?_nodes_ofNetlist (net : Netlist) (placement : PlacementConstants α)
    (routing : RoutingConstants α) (pins : PinTable α) (id : NodeId) :
    (ofNetlist net placement routing pins).nodes[id]? = net.nodes[id]?.map fun n =>
      ⟨id, n.kind, n.level, (Placement.place net placement).at id, n.label⟩ := by
  unfold ofNetlist
  dsimp only
  rw [List.getElem?_map, List.getElem?_zipIdx, Array.getElem?_toList, Option.map_map]
  simp only [Nat.zero_add]
  rfl

theorem pinPosition_eq (positions : Placement.Positions α) (pin : NodeKind → Option (Point α))
    {id : NodeId} {n : Node} {p : Point α} (hn : net.nodes[id]? = some n)
    (hp : pin n.kind = some p) : pinPosition net positions pin id = (positions.at id).add p := by
  unfold pinPosition
  rw [hn, Option.bind_some, hp]
  rfl

/-- Pins of nodes at different levels are 120 apart at least: a column less the symbol. -/
theorem width_le (h : net.Consistent) {source target : NodeId} {m n : Node}
    {output input : Point ℚ} (hm : net.nodes[source]? = some m) (hn : net.nodes[target]? = some n)
    (hlevel : m.level < n.level) (houtput : output.x ≤ 85) (hinput : 5 ≤ input.x) :
    120 ≤ (((Placement.place net .standard).at target).add input).x -
      (((Placement.place net .standard).at source).add output).x := by
  have hsource := Placement.x_place h (PlacementConstants.standard : PlacementConstants ℚ) hm
  have htarget := Placement.x_place h (PlacementConstants.standard : PlacementConstants ℚ) hn
  rw [columnX_standard] at hsource htarget
  show 120 ≤ ((Placement.place net .standard).at target).x + input.x -
    (((Placement.place net .standard).at source).x + output.x)
  rw [hsource, htarget]
  have hcolumn : (m.level : ℚ) + 1 ≤ n.level := by exact_mod_cast hlevel
  linarith

/-- Every wire joins two pins and has room to bend. -/
theorem joins_routeWire (h : net.Consistent) {w : Wire} (hw : w ∈ net.wires) (index : Nat) :
    (ofNetlist net .standard .standard standardPins : Schematic ℚ).Joins
      (routeWire net .standard standardPins (Placement.place net .standard) index w) := by
  obtain ⟨m, n, output, input, hm, hn, houtput, hinput, hlevel⟩ := h.exists_pins ℚ hw
  have hstart := pinPosition_eq (Placement.place net .standard)
    (standardPins.output · w.sourcePin) hm houtput
  have hstop := pinPosition_eq (Placement.place net .standard)
    (standardPins.input · w.targetPin) hn hinput
  have hwidth := width_le h hm hn hlevel (output_x_le houtput) (le_input_x hinput)
  unfold routeWire
  dsimp only at hstart hstop ⊢
  rw [hstart, hstop]
  refine ⟨⟨w.source, m.kind, m.level, (Placement.place net .standard).at w.source, m.label⟩,
    ⟨w.target, n.kind, n.level, (Placement.place net .standard).at w.target, n.label⟩,
    output, input, ?_, ?_, houtput, hinput, rfl, rfl, hlevel, hwidth, ?_⟩
  · rw [getElem?_nodes_ofNetlist, hm]
    rfl
  · rw [getElem?_nodes_ofNetlist, hn]
    rfl
  · have hroom : (50 : ℚ) ≤ 120 := by norm_num
    exact bend_standard index (hroom.trans hwidth)

/-- A schematic of a consistent netlist draws it. -/
theorem draws_ofNetlist (h : net.Consistent) :
    (ofNetlist net .standard .standard standardPins : Schematic ℚ).Draws net where
  nodes := by
    unfold ofNetlist
    dsimp only
    rw [List.map_map]
    rfl
  wires := by
    unfold ofNetlist
    dsimp only
    rw [List.map_map]
    rfl
  ends_nodup := by
    have hends : ((ofNetlist net .standard .standard standardPins : Schematic ℚ).wires.map
        fun r => (r.wire.target, r.wire.targetPin)) =
        (net.wires.toList.zipIdx.map Prod.fst).map fun w => (w.target, w.targetPin) := by
      unfold ofNetlist
      dsimp only
      rw [List.map_map, List.map_map]
      rfl
    rw [hends, List.zipIdx_map_fst]
    exact h.nodup_ends
  joins := by
    intro r hr
    obtain ⟨p, hp, rfl⟩ := List.mem_map.mp hr
    exact joins_routeWire h (Array.mem_toList_iff.mp (List.fst_mem_of_mem_zipIdx hp)) p.2

end Schematic

/-- With the usual distances and exact numbers, the schematic of every run draws its netlist. -/
theorem generate_draws {config : Config ℚ} (hplacement : config.placement = .standard)
    (hrouting : config.routing = .standard) {text : String} {schematic : Schematic ℚ}
    (h : (generate config text).result = .ok schematic) : ∃ equations net,
      (synthesize config text).result = .ok (equations, net) ∧ schematic.Draws net := by
  obtain ⟨equations, net, hrun, rfl⟩ := generate_eq_ok_iff.mp h
  refine ⟨equations, net, hrun, ?_⟩
  rw [Netlist.schematic, hplacement, hrouting]
  exact Schematic.draws_ofNetlist (consistent_of_synthesize hrun)

/-- A run on a conjunction: the wires reach different pins, and each has room to bend. -/
theorem generate_draws_and :
    let config : Config ℚ := { Config.standard with gates := .ofList [.nand] }
    ∃ schematic equations net, (generate config "A AND B").result = .ok schematic ∧
      (synthesize config "A AND B").result = .ok (equations, net) ∧
      net.wires.size = 5 ∧ schematic.Draws net := by
  intro config
  have hrun : (synthesize config "A AND B").result = .ok (_, _) :=
    synthesize_eq_ok_iff.mpr ⟨rfl, ⟨_, parseAll_and _, rfl⟩, rfl⟩
  have hgenerate : (generate config "A AND B").result = .ok _ :=
    generate_eq_ok_iff.mpr ⟨_, _, hrun, rfl⟩
  obtain ⟨equations, net, hrun', hdraws⟩ := generate_draws rfl rfl hgenerate
  cases hrun.symm.trans hrun'
  exact ⟨_, _, _, hgenerate, hrun, by decide, hdraws⟩

end LogicSchematic
