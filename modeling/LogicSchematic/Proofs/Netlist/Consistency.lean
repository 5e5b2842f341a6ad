import LogicSchematic.Proofs.Netlist.Check
import LogicSchematic.Proofs.Netlist.Growth

/-!
# Consistency is kept

A netlist is consistent when its nodes are, its wires are those of the drivers of its nodes, in
order, and its inputs and outputs are listed (`Consistent`); `check` accepts it
(`Consistent.check`). Adding an input keeps this, and so does adding a gate or an output over nodes
that can drive others (`Consistent.addGate`, `Consistent.addOutput`): such nodes are found, so that
the addition does not fail, and the new node stands above them. Aligning the outputs keeps it
because outputs drive nothing (`Consistent.alignOutputs`).
-/

namespace LogicSchematic

namespace Netlist

variable {net net' : Netlist} {id : NodeId} {n : Node}

theorem highest_cons (k : Nat) (ns : List Nat) : highest (k :: ns) = max k (highest ns) := by
  rw [highest, List.foldl_cons, Nat.max_comm, List.foldl_assoc, highest]

theorem le_highest {ns : List Nat} {k : Nat} (h : k ∈ ns) : k ≤ highest ns := by
  induction ns with
  | nil => cases h
  | cons m ns ih =>
    rw [highest_cons]
    rcases List.mem_cons.mp h with rfl | h
    · exact Nat.le_max_left _ _
    · exact Nat.le_trans (ih h) (Nat.le_max_right _ _)

/-- Nodes that are no outputs are below the level of the outputs. -/
theorem lt_outputLevel (hn : n ∈ net.nodes) (hkind : n.kind ≠ .output) :
    n.level < net.outputLevel := by
  refine Nat.lt_succ_of_le (le_highest (List.mem_map_of_mem ?_))
  rw [List.mem_filter]
  exact ⟨Array.mem_toList_iff.mpr hn, bne_iff_ne.mpr hkind⟩

/-- Whether there is a node of this number, and it can drive others. -/
def Drives (net : Netlist) (id : NodeId) : Prop :=
  ∃ n, net.nodes[id]? = some n ∧ n.kind.hasOutput = true

theorem Drives.mono (h : net.Drives id) (hnet : net.Extends net') : net'.Drives id := by
  obtain ⟨n, hn, hkind⟩ := h
  obtain ⟨level, hn'⟩ := hnet id n hn
  exact ⟨_, hn', hkind⟩

theorem Drives.lt_size (h : net.Drives id) : id < net.nodes.size := by
  obtain ⟨n, hn, -⟩ := h
  exact (Array.getElem?_eq_some_iff.mp hn).1

/-- The wires of the drivers of all nodes, in creation order. -/
def driverWires (net : Netlist) : List Wire :=
  (net.nodes.toList.map Node.children).zipIdx.flatMap fun (children, id) => wiresInto id children

/-- Whether the nodes of a netlist are consistent, its wires those of the drivers of its nodes, and
its inputs and outputs listed. -/
structure Consistent (net : Netlist) : Prop where
  nodes : ∀ (id : NodeId) (n : Node), net.nodes[id]? = some n → net.NodeConsistent id n
  wires : net.wires.toList = net.driverWires
  listed : net.Listed

theorem length_wiresInto (target : NodeId) (children : List NodeId) :
    (wiresInto target children).length = children.length := by
  rw [wiresInto, List.length_map, List.length_zipIdx]

theorem length_driverWires (net : Netlist) : net.driverWires.length = net.driverCount := by
  have hfold : ∀ (ns : List Node) (start count : Nat),
      ns.foldl (fun count n => count + n.children.length) count = count +
        (((ns.map Node.children).zipIdx start).flatMap fun (children, id) =>
          wiresInto id children).length := by
    intro ns
    induction ns with
    | nil => exact fun _ _ => rfl
    | cons n ns ih =>
      intro start count
      rw [List.foldl_cons, ih (start + 1), List.map_cons, List.zipIdx_cons, List.flatMap_cons,
        List.length_append, length_wiresInto, Nat.add_assoc]
  rw [driverCount, hfold _ 0, Nat.zero_add]
  rfl

/-- Consistent netlists are accepted. -/
theorem Consistent.check (h : net.Consistent) : net.check = .ok () := by
  refine check_eq_ok_iff.mpr ⟨h.nodes, ?_⟩
  rw [← length_driverWires, ← h.wires, Array.length_toList]

/-- The wires are those into the pins of all nodes, node after node and pin after pin. -/
theorem Consistent.wires_eq (h : net.Consistent) : net.wires.toList =
    net.nodes.toList.zipIdx.flatMap fun (n, id) =>
      n.children.zipIdx.map fun (child, pin) => ⟨child, 0, id, pin⟩ := by
  rw [h.wires, driverWires, List.zipIdx_map, List.flatMap_map]
  rfl

/-- A wire runs from the one output pin of a driver to the pin that it drives. -/
theorem Consistent.mem_wires_iff (h : net.Consistent) {w : Wire} : w ∈ net.wires ↔
    w.sourcePin = 0 ∧ ∃ n, net.nodes[w.target]? = some n ∧
      n.children[w.targetPin]? = some w.source := by
  rw [← Array.mem_toList_iff, h.wires_eq, List.mem_flatMap]
  constructor
  · rintro ⟨p, hp, hw⟩
    obtain ⟨q, hq, rfl⟩ := List.mem_map.mp hw
    rw [List.mem_zipIdx_iff_getElem?] at hp hq
    rw [Array.getElem?_toList] at hp
    exact ⟨rfl, p.1, hp, hq⟩
  · obtain ⟨source, sourcePin, target, targetPin⟩ := w
    rintro ⟨rfl, n, hn, hchild⟩
    refine ⟨(n, target), List.mem_zipIdx_iff_getElem?.mpr ?_, List.mem_map.mpr ?_⟩
    · rwa [Array.getElem?_toList]
    · exact ⟨(source, targetPin), List.mem_zipIdx_iff_getElem?.mpr hchild, rfl⟩

theorem Consistent.exists_wire_iff (h : net.Consistent) :
    (∃ w ∈ net.wires, w.source = id) ↔ ∃ m ∈ net.nodes, id ∈ m.children := by
  constructor
  · rintro ⟨w, hw, rfl⟩
    obtain ⟨-, m, hm, hchild⟩ := h.mem_wires_iff.mp hw
    exact ⟨m, Array.mem_of_getElem? hm, List.mem_of_getElem? hchild⟩
  · rintro ⟨m, hm, hmem⟩
    obtain ⟨target, hm⟩ := Array.getElem?_of_mem hm
    obtain ⟨pin, hchild⟩ := List.mem_iff_getElem?.mp hmem
    exact ⟨⟨id, 0, target, pin⟩, h.mem_wires_iff.mpr ⟨rfl, m, hm, hchild⟩, rfl⟩

/-! ## Adding nodes -/

/-- A node is still consistent when the nodes before it are still there. -/
theorem NodeConsistent.mono (h : net.NodeConsistent id n)
    (hnet : ∀ (child : NodeId) (m : Node), net.nodes[child]? = some m →
      net'.nodes[child]? = some m) : net'.NodeConsistent id n := by
  refine ⟨h.pins, fun child hchild => ?_, h.input_level, h.driven⟩
  obtain ⟨hlt, m, hm, hkind, hlevel⟩ := h.drivers child hchild
  exact ⟨hlt, m, hnet child m hm, hkind, hlevel⟩

/-- A node that drives others is no output. -/
theorem NodeConsistent.exists_driver (h : net.NodeConsistent id n) {child : NodeId}
    (hchild : child ∈ n.children) : ∃ m, net.nodes[child]? = some m ∧ m.kind ≠ .output ∧
      child < id ∧ m.level < n.level := by
  obtain ⟨hlt, m, hm, hdrives, hlevel⟩ := h.drivers child hchild
  refine ⟨m, hm, fun hkind => ?_, hlt, hlevel⟩
  rw [hkind] at hdrives
  cases hdrives

theorem driverWires_push (net : Netlist) (n : Node) :
    (net.push n).driverWires = net.driverWires ++ wiresInto net.nodes.size n.children := by
  have hnodes : (net.push n).nodes.toList = net.nodes.toList ++ [n] := Array.toList_push
  rw [driverWires, hnodes, List.map_append, List.zipIdx_append, List.flatMap_append]
  simp [driverWires]

/-- A consistent node is added with its wires. -/
theorem Consistent.of_push (h : net.Consistent) (hn : net.NodeConsistent net.nodes.size n)
    (hnodes : net'.nodes = (net.push n).nodes) (hwires : net'.wires = (net.push n).wires)
    (hlisted : net'.Listed) : net'.Consistent := by
  have hgrow : ∀ (child : NodeId) (m : Node), net.nodes[child]? = some m →
      net'.nodes[child]? = some m := by
    intro child m hm
    rw [hnodes]
    exact getElem?_push_of_eq_some hm n
  refine ⟨fun id m hm => ?_, ?_, hlisted⟩
  · rw [hnodes, push, Array.getElem?_push] at hm
    split at hm
    next hid =>
      cases hm
      rw [hid]
      exact hn.mono hgrow
    next => exact (h.nodes id m hm).mono hgrow
  · have hdrivers : net'.driverWires = (net.push n).driverWires := by
      rw [driverWires, hnodes, driverWires]
    rw [hdrivers, driverWires_push, ← h.wires, hwires]
    exact Array.toList_appendList

theorem consistent_empty : empty.Consistent :=
  ⟨by simp [empty], rfl, listed_empty⟩

theorem Consistent.addInput (h : net.Consistent) (label : String) :
    (net.addInput label).2.Consistent := by
  refine h.of_push (n := ⟨.input, [], 0, 0, some label⟩) ⟨?_, ?_, ?_, ?_⟩ rfl rfl
    (h.listed.addInput label)
  · exact Nat.le_refl 0
  · exact fun child hchild => nomatch hchild
  · exact fun _ => rfl
  · exact fun hkind => absurd rfl hkind

/-- A gate over nodes that can drive others, no more than it has pins for, can be added. -/
theorem Consistent.addGate (h : net.Consistent) {g : Gate} {children : List NodeId} (group : Nat)
    (hne : children ≠ []) (hpins : children.length ≤ g.inputPins)
    (hdrives : ∀ child ∈ children, net.Drives child) :
    ∃ level, net.addGate (.gate g) children group =
        .ok (net.nodes.size, net.push ⟨.gate g, children, level, group, none⟩) ∧
      (net.push ⟨.gate g, children, level, group, none⟩).Consistent := by
  obtain ⟨drivers, hdrivers⟩ := (mapM_node_isOk_iff net children).mpr fun child hchild =>
    (hdrives child hchild).lt_size
  refine ⟨1 + highest (drivers.map Node.level), ?_, ?_⟩
  · rw [Netlist.addGate, hdrivers]
    rfl
  · refine h.of_push ⟨hpins, fun child hchild => ?_, ?_, fun _ => hne⟩ rfl rfl (h.listed.push rfl)
    · obtain ⟨m, hm, hkind⟩ := hdrives child hchild
      refine ⟨(hdrives child hchild).lt_size, m, hm, hkind, ?_⟩
      obtain ⟨m', hmem, hm'⟩ := Except.exists_of_mapM_eq_ok hdrivers hchild
      cases hm.symm.trans (node_eq_ok_iff.mp hm')
      have := le_highest (List.mem_map_of_mem (f := Node.level) hmem)
      dsimp only
      omega
    · exact fun hkind => nomatch hkind

/-- An output of a node that can drive others can be added. -/
theorem Consistent.addOutput (h : net.Consistent) {driver : NodeId} (label : String) (group : Nat)
    (hdrives : net.Drives driver) :
    ∃ net', net.addOutput driver label group = .ok (net.nodes.size, net') ∧ net.Extends net' ∧
      net'.Consistent := by
  obtain ⟨m, hm, hkind⟩ := hdrives
  have hadd : net.addOutput driver label group = .ok (net.nodes.size,
      { net.push ⟨.output, [driver], m.level + 1, group, some label⟩ with
        outputs := net.outputs.push net.nodes.size }) := by
    rw [Netlist.addOutput, node_eq_ok_iff.mpr hm]
    rfl
  refine ⟨_, hadd, extends_push net _, ?_⟩
  refine h.of_push (n := ⟨.output, [driver], m.level + 1, group, some label⟩) ⟨?_, ?_, ?_, ?_⟩
    rfl rfl (h.listed.addOutput hadd)
  · exact Nat.le_refl 1
  · intro child hchild
    cases List.mem_singleton.mp hchild
    exact ⟨(Array.getElem?_eq_some_iff.mp hm).1, m, hm, hkind, Nat.lt_succ_self _⟩
  · exact fun hkind => nomatch hkind
  · exact fun _ => List.cons_ne_nil _ _

/-! ## Aligning the outputs -/

/-- The listed inputs are the nodes that are inputs. -/
theorem Listed.mem_inputs_iff (h : net.Listed) (hn : net.nodes[id]? = some n) :
    id ∈ net.inputs ↔ n.kind = .input := by
  obtain ⟨hlt, rfl⟩ := Array.getElem?_eq_some_iff.mp hn
  rw [← Array.mem_toList_iff, h.inputs, List.mem_findIdxs_iff_exists_getElem_pos]
  simp [kinds, hlt]

/-- Where the listed inputs are those of names, every input has its name as label. -/
theorem Listed.exists_name (h : net.Listed) {inputs : List (String × NodeId)}
    (heq : net.inputs.toList = inputs.map Prod.snd)
    (hnode : ∀ name id, (name, id) ∈ inputs →
      ∃ n, net.nodes[id]? = some n ∧ n.kind = .input ∧ n.label = some name)
    (hn : net.nodes[id]? = some n) (hkind : n.kind = .input) :
    ∃ name, (name, id) ∈ inputs ∧ n.label = some name := by
  have hmem := (h.mem_inputs_iff hn).mpr hkind
  rw [← Array.mem_toList_iff, heq] at hmem
  obtain ⟨⟨name, id⟩, hpair, rfl⟩ := List.mem_map.mp hmem
  obtain ⟨m, hm, -, hlabel⟩ := hnode name id hpair
  cases hn.symm.trans hm
  exact ⟨name, hpair, hlabel⟩

/-- The listed outputs are the nodes that are outputs. -/
theorem Listed.mem_outputs_iff (h : net.Listed) (hn : net.nodes[id]? = some n) :
    id ∈ net.outputs ↔ n.kind = .output := by
  obtain ⟨hlt, rfl⟩ := Array.getElem?_eq_some_iff.mp hn
  rw [← Array.mem_toList_iff, h.outputs, List.mem_findIdxs_iff_exists_getElem_pos]
  simp [kinds, hlt]

/-- What is no output is left as it is by aligning the outputs, and what is there then and no output
was there before. -/
theorem getElem?_alignOutputs_iff (h : net.Listed) (hkind : n.kind ≠ .output) :
    net.alignOutputs.nodes[id]? = some n ↔ net.nodes[id]? = some n := by
  rw [getElem?_alignOutputs]
  constructor
  · intro hn
    obtain ⟨m, hm, rfl⟩ := Option.map_eq_some_iff.mp hn
    split at hkind
    next hid => exact absurd ((h.mem_outputs_iff hm).mp hid) hkind
    next hid => rw [if_neg hid, hm]
  · intro hn
    rw [hn, Option.map_some, if_neg (mt (h.mem_outputs_iff hn).mp hkind)]

theorem driverWires_alignOutputs (net : Netlist) :
    net.alignOutputs.driverWires = net.driverWires := by
  have hchildren : net.alignOutputs.nodes.toList.map Node.children =
      net.nodes.toList.map Node.children := by
    refine List.ext_getElem? fun id => ?_
    simp only [List.getElem?_map, Array.getElem?_toList, getElem?_alignOutputs, Option.map_map]
    refine congrArg (Option.map · _) (funext fun n => ?_)
    show (if id ∈ net.outputs then _ else _ : Node).children = n.children
    split <;> rfl
  rw [driverWires, hchildren, driverWires]

theorem Consistent.alignOutputs (h : net.Consistent) : net.alignOutputs.Consistent := by
  refine ⟨fun id n' hn' => ?_, ?_, h.listed.alignOutputs⟩
  · rw [getElem?_alignOutputs] at hn'
    obtain ⟨n, hn, rfl⟩ := Option.map_eq_some_iff.mp hn'
    have hcons := h.nodes id n hn
    -- a driver is no output, so it stays where it is, below all outputs
    have hdrivers : ∀ child ∈ n.children, child < id ∧ ∃ m,
        net.alignOutputs.nodes[child]? = some m ∧ m.kind.hasOutput = true ∧ m.level < n.level ∧
          m.level < net.outputLevel := by
      intro child hchild
      obtain ⟨hlt, m, hm, hout, hlevel⟩ := hcons.drivers child hchild
      obtain ⟨m', hm', hkind, -⟩ := hcons.exists_driver hchild
      cases hm.symm.trans hm'
      exact ⟨hlt, m, (getElem?_alignOutputs_iff h.listed hkind).mpr hm, hout, hlevel,
        lt_outputLevel (Array.mem_of_getElem? hm) hkind⟩
    split
    next hid =>
      have hkind := (h.listed.mem_outputs_iff hn).mp hid
      refine ⟨hcons.pins, fun child hchild => ?_, fun hinput => ?_, hcons.driven⟩
      · obtain ⟨hlt, m, hm, hout, -, hlevel⟩ := hdrivers child hchild
        exact ⟨hlt, m, hm, hout, hlevel⟩
      · rw [show n.kind = .input from hinput] at hkind
        cases hkind
    next =>
      refine ⟨hcons.pins, fun child hchild => ?_, hcons.input_level, hcons.driven⟩
      obtain ⟨hlt, m, hm, hout, hlevel, -⟩ := hdrivers child hchild
      exact ⟨hlt, m, hm, hout, hlevel⟩
  · rw [driverWires_alignOutputs]
    exact h.wires

end Netlist

end LogicSchematic
