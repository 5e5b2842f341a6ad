import LogicSchematic.Proofs.Generation
import LogicSchematic.Proofs.Netlist.Composition

/-!
# The structure of a netlist of equations

A circuit reads every variable of its expression, and every gate of it is read on the way from the
root (`Mapping.WellFormed.reads_gate`). By the plan that the nodes follow, whatever a circuit reads
is the driver of a node, so all nodes but the outputs drive something (`Lists.exists_reader`).

With the plan this gives the structure of a netlist down to its wires (`buildNetlist_composed`), and
it is what makes the depth in the statistics, which looks at the drivers of outputs only, agree with
the levels of all nodes (`synthesize_layered`).
-/

namespace LogicSchematic

/-! ## What a circuit reads -/

namespace Mapping

variable {m : Mapping}

/-- Whether an operand is on a pin of a gate, or is the root. -/
def Reads (m : Mapping) (x : Operand) : Prop :=
  (∃ g ∈ m.gates, x ∈ g.operands) ∨ m.root = x

theorem eq_or_mem_of_reaches {gs : List MappedGate} {x : Operand} {i : Nat} (h : Reaches gs x i) :
    (∃ g ∈ gs, .gate i ∈ g.operands) ∨ x = .gate i := by
  induction h with
  | here i => exact .inr rfl
  | @step i j g x hg hx _ ih =>
    rcases ih with hread | rfl
    · exact .inl hread
    · exact .inl ⟨g, List.mem_of_getElem? hg, hx⟩

theorem WellFormed.reads_gate (h : m.WellFormed) {i : Nat} (hi : i < m.gates.length) :
    m.Reads (.gate i) :=
  eq_or_mem_of_reaches (h.reached i hi)

end Mapping

/-! ## What a plan reads -/

namespace PlacedCircuit

variable {names : List String}

theorem map_circuit_placeFrom (start : NodeId) (group : Nat) (ms : List (String × Mapping)) :
    (placeFrom start group ms).map circuit = ms.map Prod.snd := by
  induction ms generalizing start group with
  | nil => rfl
  | cons m ms ih => rw [placeFrom, List.map_cons, List.map_cons, ih]

/-- What a circuit reads drives one of its nodes or its output. -/
theorem exists_reader (names : List String) {p : PlacedCircuit} {x : Operand}
    (h : p.circuit.Reads x) :
    ∃ n ∈ p.gateNodes names ++ [p.outputNode names], operandNode names p.start x ∈ n.children := by
  rcases h with ⟨g, hg, hx⟩ | rfl
  · exact ⟨_, List.mem_append_left _ (List.mem_map_of_mem hg), List.mem_map_of_mem hx⟩
  · exact ⟨_, List.mem_append_right _ (List.mem_singleton_self _), List.mem_singleton_self _⟩

/-- Every node of the gates of all circuits is that of a gate of one of them. -/
theorem exists_gate_of_lt {start : NodeId} {group : Nat} {ms : List (String × Mapping)} {j : Nat}
    (hj : j < ((placeFrom start group ms).flatMap (·.gateNodes names)).length) :
    ∃ p ∈ placeFrom start group ms, ∃ i < p.circuit.gates.length, start + j = p.start + i := by
  induction ms generalizing start group j with
  | nil => exact absurd hj (Nat.not_lt_zero j)
  | cons m ms ih =>
    obtain ⟨label, m⟩ := m
    rw [placeFrom, List.flatMap_cons, List.length_append, gateNodes, List.length_map] at hj
    dsimp only at hj
    by_cases hlt : j < m.gates.length
    · exact ⟨_, List.mem_cons_self, j, hlt, rfl⟩
    · have hrest : j - m.gates.length < ((placeFrom (start + m.gates.length) (group + 1) ms).flatMap
          (·.gateNodes names)).length := by
        omega
      obtain ⟨p, hp, i, hi, heq⟩ := ih hrest
      refine ⟨p, List.mem_cons_of_mem _ hp, i, hi, ?_⟩
      rw [← heq, Nat.add_assoc, Nat.add_sub_cancel' (Nat.le_of_not_lt hlt)]

end PlacedCircuit

variable {s : Synthesizer} {equations : List Equation} {circuits : List Mapping} {net : Netlist}

theorem map_circuit_placed (h : equations.length = circuits.length) :
    (placed equations circuits).map PlacedCircuit.circuit = circuits := by
  have hle : circuits.length ≤ (equations.map Equation.label).length := by
    rw [List.length_map]
    exact Nat.le_of_eq h.symm
  rw [placed, PlacedCircuit.map_circuit_placeFrom, List.map_snd_zip hle]

theorem exists_reader_of_placed {p : PlacedCircuit} (hp : p ∈ placed equations circuits)
    {x : Operand} (hx : p.circuit.Reads x) : ∃ n ∈ composition equations circuits,
      operandNode (variablesOf equations) p.start x ∈ n.children := by
  obtain ⟨n, hn, hmem⟩ := PlacedCircuit.exists_reader (variablesOf equations) hx
  refine ⟨n, ?_, hmem⟩
  rcases List.mem_append.mp hn with hn | hn
  · exact List.mem_append_left _ (List.mem_append_right _ (List.mem_flatMap.mpr ⟨p, hp, hn⟩))
  · rw [List.mem_singleton.mp hn]
    exact List.mem_append_right _ (List.mem_map_of_mem hp)

section Readers

variable (hproper : ∀ e ∈ equations, e.expr.Proper)
  (hall : List.Forall₂ (fun e m => s.synthesize e.expr.flatten = .ok m) equations circuits)
include hproper hall

/-- A variable occurs in an equation, and the circuit of this equation reads it. -/
theorem exists_reader_of_variable {name : String} (h : name ∈ variablesOf equations) :
    ∃ n ∈ composition equations circuits, (variablesOf equations).idxOf name ∈ n.children := by
  obtain ⟨e, he, hname⟩ := mem_variablesOf.mp h
  obtain ⟨m, hm, hsynth⟩ := hall.exists_of_mem_left he
  rw [← map_circuit_placed hall.length_eq] at hm
  obtain ⟨p, hp, rfl⟩ := List.mem_map.mp hm
  have hvar : name ∈ p.circuit.variableNames := by
    rwa [Synthesizer.mem_variableNames_of_synthesize (Expr.flatten_proper (hproper e he)) hsynth,
      Expr.occurrences_flatten]
  exact exists_reader_of_placed hp (Mapping.mem_variableNames.mp hvar)

/-- A gate belongs to a circuit, which reads it. -/
theorem exists_reader_of_gate {j : Nat} (hj : j < ((placed equations circuits).flatMap
      (·.gateNodes (variablesOf equations))).length) :
    ∃ n ∈ composition equations circuits, (variablesOf equations).length + j ∈ n.children := by
  obtain ⟨p, hp, i, hi, heq⟩ := PlacedCircuit.exists_gate_of_lt hj
  have hp' : p.circuit ∈ circuits := by
    rw [← map_circuit_placed hall.length_eq]
    exact List.mem_map_of_mem hp
  obtain ⟨e, he, hsynth⟩ := hall.exists_of_mem_right hp'
  have hwell := Synthesizer.wellFormed_of_synthesize (Expr.flatten_proper (hproper e he)) hsynth
  rw [heq]
  exact exists_reader_of_placed hp (hwell.reads_gate hi)

/-- In the plan of equations, what is no output drives something. -/
theorem exists_reader_of_composition {id : NodeId} {n : Node}
    (hn : (composition equations circuits)[id]? = some n) (hkind : n.kind ≠ .output) :
    ∃ m ∈ composition equations circuits, id ∈ m.children := by
  rw [composition, List.append_assoc] at hn
  rcases Nat.lt_or_ge id (variablesOf equations).length with hid | hid
  · have hread := exists_reader_of_variable hproper hall (List.getElem_mem hid)
    rwa [(nodup_variablesOf equations).idxOf_getElem] at hread
  · rw [List.getElem?_append_right (by rwa [List.length_map]), List.length_map] at hn
    by_cases hj : id - (variablesOf equations).length <
        ((placed equations circuits).flatMap (·.gateNodes (variablesOf equations))).length
    · have hread := exists_reader_of_gate hproper hall hj
      rwa [Nat.add_sub_cancel' hid] at hread
    · -- what is left are the outputs
      rw [List.getElem?_append_right (Nat.le_of_not_lt hj)] at hn
      obtain ⟨p, -, rfl⟩ := List.mem_map.mp (List.mem_of_getElem? hn)
      exact absurd rfl hkind

end Readers

/-! ## The nodes and the wires -/

namespace Netlist

theorem Lists.exists_reader (h : net.Lists (composition equations circuits))
    (hproper : ∀ e ∈ equations, e.expr.Proper)
    (hall : List.Forall₂ (fun e m => s.synthesize e.expr.flatten = .ok m) equations circuits)
    (id : NodeId) (n : Node) (hn : net.nodes[id]? = some n) (hkind : n.kind ≠ .output) :
    ∃ m ∈ net.nodes, id ∈ m.children := by
  have hplan : (composition equations circuits)[id]? = some n.unleveled := by
    rw [← h.nodes, List.getElem?_map, Array.getElem?_toList, hn]
    rfl
  obtain ⟨m, hm, hmem⟩ := exists_reader_of_composition hproper hall hplan hkind
  rw [← h.nodes] at hm
  obtain ⟨m', hm', rfl⟩ := List.mem_map.mp hm
  exact ⟨m', Array.mem_toList_iff.mp hm', hmem⟩

/-- How a netlist is made up from equations that have the circuits `circuits`. -/
structure Composed (equations : List Equation) (circuits : List Mapping) (net : Netlist) :
    Prop where
  /-- The nodes are the inputs, the gates of all circuits and the outputs, in this order. -/
  nodes : net.nodes.toList.map Node.unleveled = composition equations circuits
  /-- No two inputs share a label. -/
  labels : ((net.nodes.toList.filter (·.kind == .input)).map Node.label).Nodup
  /-- The wires lead to the pins of all nodes, node after node and pin after pin. -/
  wires : net.wires.toList = net.nodes.toList.zipIdx.flatMap fun (n, id) =>
    n.children.zipIdx.map fun (child, pin) => ⟨child, 0, id, pin⟩
  /-- Outputs drive no wire, all other nodes drive one. -/
  drives : ∀ (id : NodeId) (n : Node), net.nodes[id]? = some n →
    ((∃ w ∈ net.wires, w.source = id) ↔ n.kind ≠ .output)

end Netlist

/-- The inputs of a plan have the names of the variables. -/
theorem labels_composition (equations : List Equation) (circuits : List Mapping) :
    ((composition equations circuits).filter (·.kind == .input)).map Node.label =
      (variablesOf equations).map some := by
  have hinputs : ((variablesOf equations).map inputNode).filter (·.kind == .input) =
      (variablesOf equations).map inputNode := by
    refine List.filter_eq_self.mpr fun n hn => ?_
    obtain ⟨name, -, rfl⟩ := List.mem_map.mp hn
    rfl
  have hgates : ((placed equations circuits).flatMap (·.gateNodes (variablesOf equations))).filter
      (·.kind == .input) = [] := by
    refine List.filter_eq_nil_iff.mpr fun n hn => ?_
    obtain ⟨p, -, hn⟩ := List.mem_flatMap.mp hn
    obtain ⟨g, -, rfl⟩ := List.mem_map.mp hn
    exact Bool.false_ne_true
  have houtputs : ((placed equations circuits).map (·.outputNode (variablesOf equations))).filter
      (·.kind == .input) = [] := by
    refine List.filter_eq_nil_iff.mpr fun n hn => ?_
    obtain ⟨p, -, rfl⟩ := List.mem_map.mp hn
    exact Bool.false_ne_true
  rw [composition, List.filter_append, List.filter_append, hinputs, hgates, houtputs,
    List.append_nil, List.append_nil, List.map_map]
  rfl

/-- A netlist is made up from the circuits that its equations have on their own. -/
theorem buildNetlist_composed (hshape : ∀ e ∈ equations, e.expr.WellShaped)
    (h : buildNetlist s equations = .ok net) :
    ∃ circuits, List.Forall₂ (fun e m => s.synthesize e.expr.flatten = .ok m) equations circuits ∧
      net.Composed equations circuits := by
  obtain ⟨circuits, hall, hlists, hconsistent, -⟩ := buildNetlist_lists hshape h
  have hproper : ∀ e ∈ equations, e.expr.Proper := fun e he => (hshape e he).proper
  refine ⟨circuits, hall, hlists.nodes, ?_, hconsistent.wires_eq, fun id n hn => ?_⟩
  · have hlabels := labels_composition equations circuits
    rw [← hlists.nodes, List.filter_map, List.map_map] at hlabels
    have hsame : (net.nodes.toList.filter (·.kind == .input)).map Node.label =
        (variablesOf equations).map some := hlabels
    rw [hsame]
    exact (nodup_variablesOf equations).map fun _ _ heq => Option.some.inj heq
  · rw [hconsistent.exists_wire_iff]
    constructor
    · rintro ⟨m, hm, hmem⟩
      obtain ⟨target, hm⟩ := Array.getElem?_of_mem hm
      obtain ⟨n', hn', hkind, -⟩ := (hconsistent.nodes target m hm).exists_driver hmem
      cases hn.symm.trans hn'
      exact hkind
    · exact hlists.exists_reader hproper hall id n hn

/-- Two equations that share an input: the gate of the second one comes after those of the first. -/
theorem buildNetlist_composed_shared :
    let s : Synthesizer := ⟨.ofList [.nand], 10⟩
    let equations : List Equation := [⟨"Y", .gate .and [.var "A", .var "B"]⟩,
      ⟨"Z", .gate .not [.var "B"]⟩]
    (∀ e ∈ equations, e.expr.WellShaped) ∧ ∃ net, buildNetlist s equations = .ok net ∧
      ∃ circuits, List.Forall₂ (fun e m => s.synthesize e.expr.flatten = .ok m) equations circuits ∧
        net.Composed equations circuits := by
  intro s equations
  have hshape : ∀ e ∈ equations, e.expr.WellShaped := by
    unfold Expr.WellShaped
    decide
  have hnet : buildNetlist s equations = .ok {
      nodes := #[⟨.input, [], 0, 0, some "A"⟩, ⟨.input, [], 0, 0, some "B"⟩,
        ⟨.gate .nand, [0, 1], 1, 0, none⟩, ⟨.gate .nand, [2, 2], 2, 0, none⟩,
        ⟨.gate .nand, [1, 1], 1, 1, none⟩, ⟨.output, [3], 3, 0, some "Y"⟩,
        ⟨.output, [4], 3, 1, some "Z"⟩]
      wires := #[⟨0, 0, 2, 0⟩, ⟨1, 0, 2, 1⟩, ⟨2, 0, 3, 0⟩, ⟨2, 0, 3, 1⟩, ⟨1, 0, 4, 0⟩, ⟨1, 0, 4, 1⟩,
        ⟨3, 0, 5, 0⟩, ⟨4, 0, 6, 0⟩]
      inputs := #[0, 1]
      outputs := #[5, 6] } := by
    decide +kernel
  exact ⟨hshape, _, hnet, buildNetlist_composed hshape hnet⟩

/-! ## Runs -/

variable {α : Type} {config : Config α} {text : String}

namespace Netlist

/-- Whether the levels of a netlist count its gates, up to the outputs. -/
structure Layered (net : Netlist) : Prop where
  input_level : ∀ n ∈ net.nodes, n.kind = .input → n.level = 0
  /-- The level of a gate is the number of gates on the longest path to it. -/
  gate_level : ∀ (id : NodeId) (n : Node), net.nodes[id]? = some n → ∀ g, n.kind = .gate g →
    IsGreatest {k | net.PathTo id k} n.level
  output_level : ∀ n ∈ net.nodes, n.kind = .output → n.level = net.maxLevel
  level_lt : ∀ n ∈ net.nodes, n.kind ≠ .output → n.level < net.maxLevel
  maxLevel_eq : net.maxLevel = net.stats.depth + 1
  gates_eq : net.stats.gates = net.gateCount

end Netlist

/-- A run with an output gives a layered netlist. -/
theorem synthesize_layered (h : (synthesize config text).result = .ok (equations, net))
    (hout : 0 < net.outputs.size) : net.Layered := by
  have hshape := wellShaped_of_synthesize h
  have hproper : ∀ e ∈ equations, e.expr.Proper := fun e he => (hshape e he).proper
  obtain ⟨circuits, hall, hlists, hc, haligned⟩ :=
    buildNetlist_lists hshape (synthesize_eq_ok_iff.mp h).2.2
  have hsome : ∃ n ∈ net.nodes, n.kind = .output := by
    have hid : net.outputs[0] ∈ net.outputs := Array.getElem_mem hout
    have hn := Array.getElem?_eq_getElem
      (hc.listed.lt_size_of_mem_outputs (Array.mem_toList_iff.mpr hid))
    exact ⟨_, Array.mem_of_getElem? hn, (hc.listed.mem_outputs_iff hn).mp hid⟩
  have hmax := haligned.maxLevel_eq hsome
  refine ⟨?_, ?_, ?_, ?_, ?_, Netlist.stats_gates_eq hc.listed⟩
  · intro n hn hkind
    obtain ⟨id, hn⟩ := Array.getElem?_of_mem hn
    exact (hc.nodes id n hn).input_level hkind
  · intro id n hn g hg
    refine Netlist.isGreatest_level hc hlists.levelled hn ?_
    rw [hg]
    exact nofun
  · intro n hn hkind
    rw [hmax]
    exact haligned n hn hkind
  · intro n hn hkind
    rw [hmax]
    exact Netlist.lt_outputLevel hn hkind
  · rw [hmax]
    exact (Netlist.stats_depth_eq hc (hlists.exists_reader hproper hall)).symm

/-- The run on a conjunction, two gates deep. -/
theorem synthesize_layered_and :
    let config : Config Float := { Config.standard with gates := .ofList [.nand] }
    ∃ equations net, (synthesize config "A AND B").result = .ok (equations, net) ∧
      0 < net.outputs.size ∧ net.Layered :=
  ⟨_, _, synthesize_and, by decide, synthesize_layered synthesize_and (by decide)⟩

end LogicSchematic
