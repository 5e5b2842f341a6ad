import LogicSchematic.Netlist
import LogicSchematic.Proofs.Except
import Mathlib.Data.List.Basic

/-!
# Growing netlists

A netlist that is worked on keeps its nodes, at their places and with everything but their level
(`Extends`). Adding a node keeps all nodes as they are, and the new node is the one after the last
(`addInput_eq`, `addGate_eq_ok`, `addOutput_eq_ok`); aligning the outputs changes nothing but the
level of outputs (`getElem?_alignOutputs`). All this keeps the order of the nodes, in which drivers
come first (`DriversFirst`), and the lists of inputs and outputs: they are the nodes of these kinds,
in order (`Listed`).
-/

namespace LogicSchematic

/-- What is in an array stays at its place when something is pushed. -/
theorem getElem?_push_of_eq_some {α : Type} {xs : Array α} {i : Nat} {x : α} (h : xs[i]? = some x)
    (y : α) : (xs.push y)[i]? = some x := by
  have hlt := (Array.getElem?_eq_some_iff.mp h).1
  rw [Array.getElem?_push, if_neg (Nat.ne_of_lt hlt)]
  exact h

namespace Netlist

/-- Whether every node of `net` is a node of `net'`, at another level perhaps. -/
def Extends (net net' : Netlist) : Prop :=
  ∀ (id : NodeId) (n : Node), net.nodes[id]? = some n →
    ∃ level, net'.nodes[id]? = some { n with level := level }

variable {net net' net'' : Netlist}

theorem Extends.refl (net : Netlist) : net.Extends net := fun _ n h => ⟨n.level, h⟩

theorem Extends.trans (h : net.Extends net') (h' : net'.Extends net'') : net.Extends net'' := by
  intro id n hn
  obtain ⟨level, hn'⟩ := h id n hn
  obtain ⟨level', hn''⟩ := h' id { n with level := level } hn'
  exact ⟨level', hn''⟩

theorem extends_push (net : Netlist) (n : Node) : net.Extends (net.push n) := by
  intro id m hm
  exact ⟨m.level, getElem?_push_of_eq_some hm n⟩

/-- The pushed node is the one after the last. -/
theorem getElem?_push_size (net : Netlist) (n : Node) :
    (net.push n).nodes[net.nodes.size]? = some n :=
  Array.getElem?_push_size

theorem addInput_eq (net : Netlist) (label : String) :
    net.addInput label = (net.nodes.size,
      { net.push ⟨.input, [], 0, 0, some label⟩ with
        inputs := net.inputs.push net.nodes.size }) := rfl

theorem extends_addInput (net : Netlist) (label : String) : net.Extends (net.addInput label).2 :=
  extends_push net _

/-- A gate is pushed at some level. -/
theorem addGate_eq_ok {kind : NodeKind} {children : List NodeId} {group : Nat} {id : NodeId}
    (h : net.addGate kind children group = .ok (id, net')) :
    id = net.nodes.size ∧ ∃ level, net' = net.push ⟨kind, children, level, group, none⟩ := by
  obtain ⟨drivers, -, h⟩ := Except.bind_eq_ok_iff.mp h
  cases h
  exact ⟨rfl, _, rfl⟩

/-- An output is pushed at some level, and listed. -/
theorem addOutput_eq_ok {driver : NodeId} {label : String} {group : Nat} {id : NodeId}
    (h : net.addOutput driver label group = .ok (id, net')) :
    id = net.nodes.size ∧ ∃ level, net' =
      { net.push ⟨.output, [driver], level, group, some label⟩ with
        outputs := net.outputs.push id } := by
  obtain ⟨n, -, h⟩ := Except.bind_eq_ok_iff.mp h
  cases h
  exact ⟨rfl, _, rfl⟩

/-! ## Aligning the outputs -/

/-- Raising listed nodes, one after another, raises each of them and no other. -/
theorem getElem?_foldl_modify (level : Nat) (ids : List NodeId) (nodes : Array Node) (id : NodeId) :
    (ids.foldl (fun nodes id => nodes.modify id ({ · with level })) nodes)[id]? =
      nodes[id]?.map fun n => if id ∈ ids then { n with level := level } else n := by
  induction ids generalizing nodes with
  | nil => simp
  | cons i ids ih =>
    rw [List.foldl_cons, ih, Array.getElem?_modify]
    by_cases hi : i = id
    · subst hi
      cases nodes[i]? <;> simp
    · rw [if_neg hi]
      cases nodes[id]? with
      | none => rfl
      | some n => simp [Ne.symm hi]

/-- Only the level of outputs changes. -/
theorem getElem?_alignOutputs (net : Netlist) (id : NodeId) :
    net.alignOutputs.nodes[id]? = net.nodes[id]?.map fun n =>
      if id ∈ net.outputs then { n with level := net.outputLevel } else n := by
  rw [alignOutputs]
  simp only [← Array.foldl_toList, getElem?_foldl_modify, Array.mem_toList_iff]

theorem extends_alignOutputs (net : Netlist) : net.Extends net.alignOutputs := by
  intro id n hn
  rw [getElem?_alignOutputs, hn, Option.map_some]
  split
  next => exact ⟨_, rfl⟩
  next => exact ⟨n.level, rfl⟩

/-! ## The order of the nodes -/

/-- Whether every node comes after its drivers. -/
def DriversFirst (net : Netlist) : Prop :=
  ∀ (id : NodeId) (n : Node), net.nodes[id]? = some n → ∀ child ∈ n.children, child < id

theorem DriversFirst.push (h : net.DriversFirst) {n : Node}
    (hn : ∀ child ∈ n.children, child < net.nodes.size) : (net.push n).DriversFirst := by
  intro id m hm
  rw [Netlist.push, Array.getElem?_push] at hm
  split at hm
  next hid =>
    cases hm
    rw [hid]
    exact hn
  next => exact h id m hm

theorem DriversFirst.alignOutputs (h : net.DriversFirst) : net.alignOutputs.DriversFirst := by
  intro id m hm
  rw [getElem?_alignOutputs] at hm
  obtain ⟨n, hn, rfl⟩ := Option.map_eq_some_iff.mp hm
  have hchildren := h id n hn
  split <;> exact hchildren

/-! ## The lists of inputs and outputs -/

/-- The kinds of the nodes, in order. -/
def kinds (net : Netlist) : List NodeKind := net.nodes.toList.map Node.kind

/-- Whether the inputs and the outputs of a netlist are its nodes of these kinds, in order. -/
structure Listed (net : Netlist) : Prop where
  inputs : net.inputs.toList = net.kinds.findIdxs (· == .input)
  outputs : net.outputs.toList = net.kinds.findIdxs (· == .output)

theorem lt_size_of_mem_findIdxs {kind : NodeKind} {id : NodeId}
    (hid : id ∈ net.kinds.findIdxs (· == kind)) : id < net.nodes.size := by
  have hlt := List.lt_add_of_mem_findIdxs id hid
  rwa [kinds, List.length_map, Array.length_toList, Nat.add_zero] at hlt

/-- The inputs are nodes. -/
theorem Listed.lt_size_of_mem_inputs (h : net.Listed) {id : NodeId}
    (hid : id ∈ net.inputs.toList) : id < net.nodes.size :=
  lt_size_of_mem_findIdxs (h.inputs ▸ hid)

/-- The outputs are nodes. -/
theorem Listed.lt_size_of_mem_outputs (h : net.Listed) {id : NodeId}
    (hid : id ∈ net.outputs.toList) : id < net.nodes.size :=
  lt_size_of_mem_findIdxs (h.outputs ▸ hid)

theorem findIdxs_kinds_push (net : Netlist) (n : Node) (kind : NodeKind) :
    (net.push n).kinds.findIdxs (· == kind) =
      net.kinds.findIdxs (· == kind) ++ if n.kind = kind then [net.nodes.size] else [] := by
  have hkinds : (net.push n).kinds = net.kinds ++ [n.kind] := by
    simp [kinds, push]
  have hsize : net.kinds.length = net.nodes.size := by
    simp [kinds]
  rw [hkinds, List.findIdxs_append, List.findIdxs_singleton, hsize]
  simp

theorem kinds_alignOutputs (net : Netlist) : net.alignOutputs.kinds = net.kinds := by
  refine List.ext_getElem? fun id => ?_
  simp only [kinds, List.getElem?_map, Array.getElem?_toList, getElem?_alignOutputs,
    Option.map_map]
  refine congrArg (Option.map · _) (funext fun n => ?_)
  show (if id ∈ net.outputs then _ else _ : Node).kind = n.kind
  split <;> rfl

theorem listed_empty : empty.Listed := ⟨rfl, rfl⟩

theorem Listed.push (h : net.Listed) {n : Node} {g : Gate} (hn : n.kind = .gate g) :
    (net.push n).Listed := by
  constructor
  · rw [findIdxs_kinds_push, hn, if_neg (by simp), List.append_nil]
    exact h.inputs
  · rw [findIdxs_kinds_push, hn, if_neg (by simp), List.append_nil]
    exact h.outputs

theorem Listed.addInput (h : net.Listed) (label : String) : (net.addInput label).2.Listed := by
  rw [addInput_eq]
  constructor
  · show (net.inputs.push net.nodes.size).toList = (net.push _).kinds.findIdxs _
    rw [findIdxs_kinds_push, if_pos rfl, Array.toList_push, h.inputs]
  · show net.outputs.toList = (net.push _).kinds.findIdxs _
    rw [findIdxs_kinds_push, if_neg (by simp), List.append_nil, h.outputs]

theorem Listed.addOutput (h : net.Listed) {driver : NodeId} {label : String} {group : Nat}
    {id : NodeId} (hadd : net.addOutput driver label group = .ok (id, net')) : net'.Listed := by
  obtain ⟨rfl, level, rfl⟩ := addOutput_eq_ok hadd
  constructor
  · show net.inputs.toList = (net.push _).kinds.findIdxs _
    rw [findIdxs_kinds_push, if_neg (by simp), List.append_nil, h.inputs]
  · show (net.outputs.push net.nodes.size).toList = (net.push _).kinds.findIdxs _
    rw [findIdxs_kinds_push, if_pos rfl, Array.toList_push, h.outputs]

theorem Listed.alignOutputs (h : net.Listed) : net.alignOutputs.Listed := by
  constructor
  · rw [kinds_alignOutputs]
    exact h.inputs
  · rw [kinds_alignOutputs]
    exact h.outputs

end Netlist

end LogicSchematic
