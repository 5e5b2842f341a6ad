import LogicSchematic.Proofs.Netlist.Bench.Circuit
import LogicSchematic.Proofs.Netlist.Signals
import LogicSchematic.Proofs.Safety

/-!
# The circuit of a netlist

The .bench file of a netlist describes it. Its lines are those of a circuit (`circuit`), and when no
name is emitted twice (`Described`) this circuit is in order: a definition is over inputs and gates,
which are before it among the nodes (`Described.ordered`). Words that the nodes of the netlist carry
agree with every definition, as a name belongs to one node only (`Described.agrees`). So the file is
read as this circuit, and simulated it gives every output the word that the netlist gives it
(`synthesize_bench_simulates`).
-/

namespace LogicSchematic

/-- The labels of the outputs. -/
def Netlist.outputLabels (net : Netlist) : List String :=
  net.outputs.toList.map fun id => ((net.nodes[id]?).bind Node.label).getD ""

namespace Bench

/-- The name under which a node is written: a gate by its number, inputs and outputs by their
labels. -/
def emittedName (n : Node) (id : NodeId) : String :=
  match n.kind with
  | .gate _ => nodeName id
  | _ => safeName (n.label.getD "")

/-- The names of all nodes of a file. -/
def emittedNames (net : Netlist) : List String :=
  net.nodes.toList.zipIdx.map fun (n, id) => emittedName n id

/-- The primitive of a gate. -/
def gatePrimitive : Gate → Primitive
  | .nand4 => .gate .nand
  | g => .gate g

/-- What a node that is no input defines. -/
def nodeDefinition? (net : Netlist) : Node × NodeId → Option Definition
  | (n, id) =>
    let drivers := n.children.map (signalName net)
    match n.kind with
    | .input => none
    | .gate g => some ⟨nodeName id, gatePrimitive g, drivers⟩
    | .output => some ⟨outputName n, .buffer, drivers⟩

/-- The circuit of a netlist. -/
def circuit (net : Netlist) : Circuit where
  inputs := net.inputs.toList.map (signalName net)
  outputs := net.outputLabels.map safeName
  definitions := net.nodes.toList.zipIdx.filterMap (nodeDefinition? net)

/-! ## Lines -/

variable {net : Netlist} {id : NodeId} {n : Node} {d : Definition}

theorem gatePrimitive_mem (g : Gate) : gatePrimitive g ∈ Primitive.all := by
  cases g <;> decide

theorem name_gatePrimitive (g : Gate) : (gatePrimitive g).name = gateName g := by
  cases g <;> rfl

/-- The wide gate computes what the narrow one does over as many operands. -/
theorem eval?_gatePrimitive (g : Gate) (ws : List UInt64) :
    (gatePrimitive g).eval? ws = g.eval? ws := by
  cases g <;> rfl

theorem nodeDefinition?_eq_some (h : nodeDefinition? net (n, id) = some d) :
    n.kind ≠ .input ∧ d.name = emittedName n id ∧ d.operands = n.children.map (signalName net) ∧
      d.primitive ∈ Primitive.all := by
  cases hkind : n.kind with
  | input =>
    rw [nodeDefinition?, hkind] at h
    cases h
  | gate g =>
    rw [nodeDefinition?, hkind] at h
    cases h
    refine ⟨nofun, ?_, rfl, gatePrimitive_mem g⟩
    rw [emittedName, hkind]
  | output =>
    rw [nodeDefinition?, hkind] at h
    cases h
    refine ⟨nofun, ?_, rfl, List.mem_cons_self⟩
    rw [emittedName, hkind]
    rfl

theorem exists_nodeDefinition? (net : Netlist) (id : NodeId) (hkind : n.kind ≠ .input) :
    ∃ d, nodeDefinition? net (n, id) = some d ∧ d.name = emittedName n id := by
  obtain ⟨d, hd⟩ : ∃ d, nodeDefinition? net (n, id) = some d := by
    rw [nodeDefinition?]
    cases h : n.kind with
    | input => exact absurd h hkind
    | gate g => exact ⟨_, rfl⟩
    | output => exact ⟨_, rfl⟩
  exact ⟨d, hd, (nodeDefinition?_eq_some hd).2.1⟩

theorem mem_definitions_circuit : d ∈ (circuit net).definitions ↔
    ∃ id n, net.nodes[id]? = some n ∧ nodeDefinition? net (n, id) = some d := by
  simp only [circuit, List.mem_filterMap, Prod.exists, List.mk_mem_zipIdx_iff_getElem?,
    Array.getElem?_toList]
  exact exists_comm

/-- The lines of a netlist are those of its circuit. -/
theorem statements_eq (hout : ∀ id ∈ net.outputs.toList, id < net.nodes.size) :
    statements net = (circuit net).inputs.map Statement.input ++
      (circuit net).outputs.map Statement.output ++
      (circuit net).definitions.map Definition.statement := by
  have hinputs : inputs net = (circuit net).inputs.map Statement.input := by
    rw [inputs, circuit, List.map_map]
    rfl
  have houtputs : outputs net = (circuit net).outputs.map Statement.output := by
    rw [outputs, circuit, Netlist.outputLabels, List.map_map, List.map_map, List.map_filterMap,
      ← List.filterMap_eq_map]
    refine List.filterMap_congr fun id hid => ?_
    simp only [Function.comp_apply, Array.getElem?_eq_getElem (hout id hid), Option.map_some,
      Option.bind_some, outputName]
  have hdefinitions : definitions net = (circuit net).definitions.map Definition.statement := by
    rw [definitions, circuit, List.map_filterMap]
    refine List.filterMap_congr ?_
    rintro ⟨n, id⟩ -
    cases hkind : n.kind with
    | input => simp [definition?, nodeDefinition?, hkind]
    | gate g => simp [definition?, nodeDefinition?, hkind, Definition.statement, name_gatePrimitive]
    | output => simp [definition?, nodeDefinition?, hkind, Definition.statement, Primitive.name]
  rw [statements, hinputs, houtputs, hdefinitions]

/-! ## Order -/

/-- Before a pair of an indexed list are those with smaller indices. -/
theorem mem_before_iff {α : Type} {xs : List α} {before after : List (α × Nat)} {x y : α}
    {i j : Nat} (h : xs.zipIdx = before ++ (x, i) :: after) (hy : xs[j]? = some y) :
    (y, j) ∈ before ↔ j < i := by
  have hindex : ∀ (k : Nat) (p : α × Nat), xs.zipIdx[k]? = some p → p.2 = k := by
    intro k p hp
    rw [List.getElem?_zipIdx, Option.map_eq_some_iff] at hp
    obtain ⟨_, -, rfl⟩ := hp
    exact Nat.zero_add k
  have hi : i = before.length := by
    refine hindex before.length (x, i) ?_
    rw [h, List.getElem?_append_right (Nat.le_refl _), Nat.sub_self]
    rfl
  constructor
  · intro hmem
    obtain ⟨k, hk, hget⟩ := List.getElem_of_mem hmem
    have hj : j = k := by
      refine hindex k (y, j) ?_
      rw [h, List.getElem?_append_left hk, List.getElem?_eq_getElem hk, hget]
    rwa [hi, hj]
  · intro hlt
    refine List.mem_of_getElem? (i := j) ?_
    rw [← List.getElem?_append_left (hi ▸ hlt), ← h, List.getElem?_zipIdx, hy, Option.map_some,
      Nat.zero_add]

/-- A node that is no output is referred to by the name under which it is written. -/
theorem signalName_eq_emittedName (hlabelled : n.kind = .input → ∃ label, n.label = some label)
    (hn : net.nodes[id]? = some n) (hkind : n.kind ≠ .output) :
    signalName net id = emittedName n id := by
  cases hk : n.kind with
  | output => exact absurd hk hkind
  | gate g =>
    rw [emittedName, hk, signalName, hn]
    split
    next heq =>
      cases heq
      cases hk
    next => rfl
  | input =>
    obtain ⟨label, hlabel⟩ := hlabelled hk
    obtain ⟨kind, children, level, group, _⟩ := n
    dsimp only at hk hlabel
    subst hk hlabel
    rw [signalName, hn]
    rfl

/-- Whether a file can describe a netlist: the netlist is consistent, its inputs have labels, and no
name is written for two nodes. -/
structure Described (net : Netlist) : Prop where
  consistent : net.Consistent
  labelled : ∀ n ∈ net.nodes, n.kind = .input → ∃ label, n.label = some label
  nodup : (emittedNames net).Nodup

namespace Described

variable {id' : NodeId} {n' : Node}

/-- A name belongs to one node. -/
theorem eq_of_emittedName (h : Described net) (hn : net.nodes[id]? = some n)
    (hn' : net.nodes[id']? = some n') (heq : emittedName n id = emittedName n' id') : id = id' := by
  rw [← Array.getElem?_toList] at hn hn'
  have hmem := List.mk_mem_zipIdx_iff_getElem?.mpr hn
  have hmem' := List.mk_mem_zipIdx_iff_getElem?.mpr hn'
  exact congrArg Prod.snd (List.inj_on_of_nodup_map h.nodup hmem hmem' heq)

/-- What drives others is referred to by its name. -/
theorem signalName_eq (h : Described net) (hn : net.nodes[id]? = some n)
    (hkind : n.kind ≠ .output) : signalName net id = emittedName n id :=
  signalName_eq_emittedName (h.labelled n (Array.mem_of_getElem? hn)) hn hkind

theorem mem_inputs (h : Described net) (hn : net.nodes[id]? = some n) (hkind : n.kind = .input) :
    emittedName n id ∈ (circuit net).inputs := by
  refine List.mem_map.mpr ⟨id, ?_, h.signalName_eq hn (by rw [hkind]; exact nofun)⟩
  exact Array.mem_toList_iff.mpr ((h.consistent.listed.mem_inputs_iff hn).mpr hkind)

theorem exists_input (h : Described net) (hid : id ∈ net.inputs.toList) :
    ∃ n, net.nodes[id]? = some n ∧ n.kind = .input ∧ signalName net id = emittedName n id := by
  have hn := Array.getElem?_eq_getElem (h.consistent.listed.lt_size_of_mem_inputs hid)
  have hkind := (h.consistent.listed.mem_inputs_iff hn).mp (Array.mem_toList_iff.mp hid)
  exact ⟨_, hn, hkind, h.signalName_eq hn (by rw [hkind]; exact nofun)⟩

theorem nodup_inputs (h : Described net) : (circuit net).inputs.Nodup := by
  have hids : net.inputs.toList.Nodup := h.consistent.listed.inputs ▸ List.nodup_findIdxs
  refine hids.map_on fun id hid id' hid' heq => ?_
  obtain ⟨n, hn, -, hname⟩ := h.exists_input hid
  obtain ⟨n', hn', -, hname'⟩ := h.exists_input hid'
  rw [hname, hname'] at heq
  exact h.eq_of_emittedName hn hn' heq

/-- The names that are there before a node is defined are those of the inputs and of the nodes with
smaller numbers. -/
theorem mem_known_iff (h : Described net) {before after : List (Node × NodeId)}
    (hnodes : net.nodes.toList.zipIdx = before ++ (n, id) :: after)
    (hn' : net.nodes[id']? = some n') :
    emittedName n' id' ∈ (circuit net).inputs ++
      (before.filterMap (nodeDefinition? net)).map Definition.name ↔
    n'.kind = .input ∨ id' < id := by
  have hbefore : ∀ {m : Node} {i : NodeId}, net.nodes[i]? = some m →
      ((m, i) ∈ before ↔ i < id) := by
    intro m i hm
    exact mem_before_iff hnodes (by rwa [Array.getElem?_toList])
  rw [List.mem_append]
  constructor
  · rintro (hmem | hmem)
    · obtain ⟨i, hi, heq⟩ := List.mem_map.mp hmem
      obtain ⟨m, hm, hinput, hi⟩ := h.exists_input hi
      cases h.eq_of_emittedName hm hn' (hi.symm.trans heq)
      cases hm.symm.trans hn'
      exact .inl hinput
    · obtain ⟨d, hd, heq⟩ := List.mem_map.mp hmem
      obtain ⟨⟨m, i⟩, hmem, hd⟩ := List.mem_filterMap.mp hd
      have hm : net.nodes[i]? = some m := by
        have hall := hnodes ▸ List.mem_append_left _ hmem
        rwa [List.mk_mem_zipIdx_iff_getElem?, Array.getElem?_toList] at hall
      rw [(nodeDefinition?_eq_some hd).2.1] at heq
      cases h.eq_of_emittedName hm hn' heq
      exact .inr ((hbefore hm).mp hmem)
  · intro hor
    by_cases hinput : n'.kind = .input
    · exact .inl (h.mem_inputs hn' hinput)
    · obtain ⟨d, hd, hname⟩ := exists_nodeDefinition? net id' hinput
      rw [← hname]
      refine .inr (List.mem_map_of_mem (List.mem_filterMap.mpr ⟨_, ?_, hd⟩))
      exact (hbefore hn').mpr (hor.resolve_left hinput)

/-- The definitions are in order, since nodes come after their drivers. -/
theorem ordered_suffix (h : Described net) (before after : List (Node × NodeId))
    (hnodes : net.nodes.toList.zipIdx = before ++ after) :
    Circuit.Ordered
      ((circuit net).inputs ++ (before.filterMap (nodeDefinition? net)).map Definition.name)
      (after.filterMap (nodeDefinition? net)) := by
  induction after generalizing before with
  | nil => trivial
  | cons p after ih =>
    obtain ⟨n, id⟩ := p
    have hn : net.nodes[id]? = some n := by
      have hmem : (n, id) ∈ net.nodes.toList.zipIdx := by simp [hnodes]
      rwa [List.mk_mem_zipIdx_iff_getElem?, Array.getElem?_toList] at hmem
    have hrest := ih (before ++ [(n, id)]) (by rw [hnodes, ← List.append_cons])
    rw [List.filterMap_append, List.map_append, ← List.append_assoc] at hrest
    -- an input has no line, and its name is known from the start
    cases hd : nodeDefinition? net (n, id) with
    | none =>
      rw [List.filterMap_cons_none hd]
      simpa [hd] using hrest
    | some d =>
      rw [List.filterMap_cons_some hd]
      obtain ⟨hkind, hname, hoperands, -⟩ := nodeDefinition?_eq_some hd
      refine ⟨?new, ?known, by simpa [hd] using hrest⟩
      case new =>
        rw [hname, h.mem_known_iff hnodes hn]
        exact not_or.mpr ⟨hkind, Nat.lt_irrefl id⟩
      case known =>
        intro o ho
        rw [hoperands] at ho
        obtain ⟨child, hchild, rfl⟩ := List.mem_map.mp ho
        obtain ⟨m, hm, hmkind, hlt, -⟩ := (h.consistent.nodes id n hn).exists_driver hchild
        rw [h.signalName_eq hm hmkind, h.mem_known_iff hnodes hm]
        exact .inr hlt

theorem ordered (h : Described net) :
    Circuit.Ordered (circuit net).inputs (circuit net).definitions := by
  have := h.ordered_suffix [] _ rfl
  rwa [List.filterMap_nil, List.map_nil, List.append_nil] at this

end Described

/-! ## Words -/

/-- The words of the nodes by the names of these. -/
def wordOf (net : Netlist) (words : Array UInt64) (name : String) : UInt64 :=
  ((net.nodes.toList.zipIdx.map fun (n, id) => (emittedName n id, (words[id]?).getD 0)).lookup
    name).getD 0

/-- Keys that differ are found with their values, one after another. -/
theorem map_lookup_zip {ids : List NodeId} {ws : List UInt64} (hnodup : ids.Nodup)
    (hlen : ws.length = ids.length) : ids.map (fun id => ((ids.zip ws).lookup id).getD 0) = ws := by
  refine List.ext_getElem ?_ fun i hi hi' => ?_
  · rw [List.length_map, hlen]
  · rw [List.length_map] at hi
    rw [List.getElem_map, lookup_zip (List.getElem_mem hi), hnodup.idxOf_getElem,
      List.getElem?_eq_getElem hi', Option.getD_some]

namespace Described

variable {given : List (NodeId × UInt64)} {words : Array UInt64} {w : UInt64}

theorem wordOf_eq (h : Described net) (hn : net.nodes[id]? = some n) (hw : words[id]? = some w) :
    wordOf net words (emittedName n id) = w := by
  rw [← Array.getElem?_toList] at hn
  have hmem : (emittedName n id, (words[id]?).getD 0) ∈
      net.nodes.toList.zipIdx.map fun (n, id) => (emittedName n id, (words[id]?).getD 0) :=
    List.mem_map.mpr ⟨(n, id), List.mk_mem_zipIdx_iff_getElem?.mpr hn, rfl⟩
  have hkeys : ((net.nodes.toList.zipIdx.map fun (n, id) =>
      (emittedName n id, (words[id]?).getD 0)).map Prod.fst).Nodup := by
    rw [List.map_map]
    exact h.nodup
  rw [wordOf, lookup_of_mem hkeys hmem, hw]
  rfl

/-- The words that the nodes carry agree with every definition. -/
theorem agrees (h : Described net) (hcarries : net.Carries given words)
    (hd : d ∈ (circuit net).definitions) :
    d.primitive.eval? (d.operands.map (wordOf net words)) = some (wordOf net words d.name) := by
  obtain ⟨id, n, hn, hd⟩ := mem_definitions_circuit.mp hd
  obtain ⟨w, hw, hnode⟩ := hcarries id n hn
  have hcons := h.consistent.nodes id n hn
  -- a line refers to its drivers by their names, which are theirs alone
  have hdriver : ∀ child ∈ n.children, ∀ v, words[child]? = some v →
      wordOf net words (signalName net child) = v := by
    intro child hchild v hv
    obtain ⟨m, hm, hmkind, -⟩ := hcons.exists_driver hchild
    rw [h.signalName_eq hm hmkind]
    exact h.wordOf_eq hm hv
  obtain ⟨-, hname, hoperands, -⟩ := nodeDefinition?_eq_some hd
  rw [hname, hoperands, h.wordOf_eq hn hw, List.map_map]
  cases hkind : n.kind with
  | input =>
    rw [nodeDefinition?, hkind] at hd
    cases hd
  | gate g =>
    rw [nodeDefinition?, hkind] at hd
    cases hd
    rw [hkind] at hnode
    obtain ⟨vs, hvs, heval⟩ := hnode
    have hwords : n.children.map (wordOf net words ∘ signalName net) = vs := hvs.map_eq hdriver
    rw [hwords, eval?_gatePrimitive, heval]
  | output =>
    rw [nodeDefinition?, hkind] at hd
    cases hd
    rw [hkind] at hnode
    obtain ⟨child, hhead, hv⟩ := hnode
    -- an output has one pin
    have hpins := hcons.pins
    rw [hkind] at hpins
    have hchildren : n.children = [child] := by
      obtain ⟨rest, hrest⟩ := List.head?_eq_some_iff.mp hhead
      rw [hrest, List.length_cons] at hpins
      rw [hrest, List.length_eq_zero_iff.mp (Nat.le_zero.mp (Nat.le_of_succ_le_succ hpins))]
    have hword := hdriver child (hchildren ▸ List.mem_singleton_self child) w hv
    rw [hchildren]
    exact congrArg some hword

theorem exists_output (h : Described net) (hid : id ∈ net.outputs.toList) :
    ∃ n, net.nodes[id]? = some n ∧ n.kind = .output ∧
      safeName (((net.nodes[id]?).bind Node.label).getD "") = emittedName n id := by
  have hn := Array.getElem?_eq_getElem (h.consistent.listed.lt_size_of_mem_outputs hid)
  have hkind := (h.consistent.listed.mem_outputs_iff hn).mp (Array.mem_toList_iff.mp hid)
  refine ⟨_, hn, hkind, ?_⟩
  rw [hn, emittedName, hkind]
  rfl

theorem mem_names_of_mem_outputs (h : Described net) :
    ∀ o ∈ (circuit net).outputs, o ∈ (circuit net).names := by
  intro o ho
  rw [circuit, Netlist.outputLabels, List.map_map] at ho
  obtain ⟨id, hid, rfl⟩ := List.mem_map.mp ho
  obtain ⟨n, hn, hkind, hname⟩ := h.exists_output hid
  obtain ⟨d, hd, hd'⟩ := exists_nodeDefinition? net id (n := n) (by rw [hkind]; exact nofun)
  rw [Function.comp_apply, hname, ← hd']
  exact List.mem_append_right _
    (List.mem_map_of_mem (mem_definitions_circuit.mpr ⟨id, n, hn, hd⟩))

/-- The circuit of a netlist gives every output the word that the netlist gives it. -/
theorem simulate?_circuit (h : Described net) {ws : List UInt64}
    (hlen : ws.length = net.inputs.size) :
    ∃ outs, net.simulate ws = .ok outs ∧ (circuit net).simulate? ws = some outs := by
  have hlisted := h.consistent.listed
  obtain ⟨words, outs, hcarries, hsimulate, houts⟩ :=
    Netlist.exists_simulate h.consistent.check (fun _ => hlisted.lt_size_of_mem_outputs) hlen
  have hinputs : (circuit net).inputs.map (wordOf net words) = ws := by
    have hnodup : net.inputs.toList.Nodup := hlisted.inputs ▸ List.nodup_findIdxs
    rw [← Array.length_toList] at hlen
    refine Eq.trans ?_ (map_lookup_zip hnodup hlen)
    rw [circuit, List.map_map]
    refine List.map_congr_left fun id hid => ?_
    obtain ⟨n, hn, hkind, hname⟩ := h.exists_input hid
    obtain ⟨w, hw, hnode⟩ := hcarries id n hn
    rw [hkind] at hnode
    rw [Function.comp_apply, hname, h.wordOf_eq hn hw]
    exact hnode
  have houtputs : (circuit net).outputs.map (wordOf net words) = outs := by
    rw [circuit, Netlist.outputLabels, List.map_map, List.map_map]
    refine houts.map_eq fun id hid w hw => ?_
    obtain ⟨n, hn, -, hname⟩ := h.exists_output hid
    rw [Function.comp_apply, Function.comp_apply, hname]
    exact h.wordOf_eq hn hw
  have hrun := Circuit.simulate?_eq h.ordered (fun d => h.agrees hcarries)
    h.mem_names_of_mem_outputs
  rw [hinputs, houtputs] at hrun
  exact ⟨outs, hsimulate, hrun⟩

/-- The text of a netlist is read as its circuit. -/
theorem ofStatements?_eq (h : Described net) :
    read? (text net) = some (statements net) ∧
      Circuit.ofStatements? (statements net) = some (circuit net) := by
  have hlisted := h.consistent.listed
  constructor
  · refine read?_text fun n hn => ?_
    obtain ⟨id, hid⟩ := Array.getElem?_of_mem hn
    exact (h.consistent.nodes id n hid).driven
  · rw [statements_eq fun _ => hlisted.lt_size_of_mem_outputs]
    refine Circuit.ofStatements?_statements h.nodup_inputs (fun d hd => ?_) h.ordered
    obtain ⟨id, n, -, hd⟩ := mem_definitions_circuit.mp hd
    exact (nodeDefinition?_eq_some hd).2.2.2

end Described

end Bench

/-! ## Runs -/

variable {α : Type} {config : Config α} {text : String} {equations : List Equation} {net : Netlist}

/-- The inputs of a run have labels. -/
theorem exists_label_of_synthesize (h : (synthesize config text).result = .ok (equations, net)) :
    ∀ n ∈ net.nodes, n.kind = .input → ∃ label, n.label = some label := by
  intro n hn hkind
  obtain ⟨inputs, himp⟩ := implements_of_synthesize h
  obtain ⟨id, hid⟩ := Array.getElem?_of_mem hn
  have hlisted := (consistent_of_synthesize h).listed
  obtain ⟨name, -, hlabel⟩ := hlisted.exists_name himp.inputs_eq himp.input_node hid hkind
  exact ⟨name, hlabel⟩

/-- The .bench file of a run whose names are all different describes its netlist. It is read as a
circuit in which every operand is introduced on an earlier line, the inputs and the outputs are
those of the netlist in order, and every output has the word that the netlist gives it, for all
words of the inputs. -/
theorem synthesize_bench_simulates (h : (synthesize config text).result = .ok (equations, net))
    (hnames : (Bench.emittedNames net).Nodup) :
    ∃ ss c, Bench.read? (Bench.text net) = some ss ∧ Bench.Circuit.ofStatements? ss = some c ∧
      (∀ before name kind operands after, ss = before ++ .define name kind operands :: after →
        ∀ o ∈ operands, ∃ s ∈ before, s.introduced? = some o) ∧
      c.inputs = net.inputLabels.map Bench.safeName ∧
      c.outputs = net.outputLabels.map Bench.safeName ∧
      ∀ words, words.length = net.inputs.size →
        ∃ outs, net.simulate words = .ok outs ∧ c.simulate? words = some outs := by
  obtain ⟨inputs, himp⟩ := implements_of_synthesize h
  have hdescribed : Bench.Described net :=
    ⟨consistent_of_synthesize h, exists_label_of_synthesize h, hnames⟩
  obtain ⟨hread, hcircuit⟩ := hdescribed.ofStatements?_eq
  refine ⟨_, _, hread, hcircuit, ?_, himp.signalNames_eq, rfl, fun words hlen => ?_⟩
  · intro before name kind operands after hss
    rw [hss] at hcircuit
    exact Bench.Circuit.introduced_of_ofStatements? hcircuit
  · exact hdescribed.simulate?_circuit hlen

/-- The file of a conjunction over inverted conjunctions: three definitions. -/
theorem synthesize_bench_simulates_and :
    let config : Config Float := { Config.standard with gates := .ofList [.nand] }
    ∃ equations net, (synthesize config "A AND B").result = .ok (equations, net) ∧
      Bench.emittedNames net = ["A", "B", "n2", "n3", "Y1"] ∧
      ∃ ss c, Bench.read? (Bench.text net) = some ss ∧ Bench.Circuit.ofStatements? ss = some c ∧
        c.inputs = ["A", "B"] ∧ c.outputs = ["Y1"] ∧
        ∃ outs, net.simulate [6, 3] = .ok outs ∧ c.simulate? [6, 3] = some outs := by
  obtain ⟨ss, c, hread, hcircuit, -, hinputs, houtputs, hsimulate⟩ :=
    synthesize_bench_simulates synthesize_and (by decide)
  exact ⟨_, _, synthesize_and, by decide, ss, c, hread, hcircuit, hinputs, houtputs,
    hsimulate [6, 3] rfl⟩

end LogicSchematic
