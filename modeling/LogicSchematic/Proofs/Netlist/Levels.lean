import LogicSchematic.Netlist.Stats
import LogicSchematic.Proofs.Netlist.Consistency
import Mathlib.Order.Bounds.Defs

/-!
# Levels

A gate gets its level when it is added, from the levels that its drivers have then. No step changes
the level of a node that drives others, so every gate stays right above one of its drivers
(`Levelled`); in a consistent netlist it is above all of them, and its level is the number of gates
on the longest path to it from an input (`isGreatest_level`).

The outputs get theirs from the highest level of all other nodes (`Aligned`), while the statistics
take the depth from the drivers of outputs alone. Both come to the same in a netlist in which all
other nodes drive something, because what drives no output drives a node above it
(`stats_depth_eq`).
-/

namespace LogicSchematic

namespace Netlist

variable {net net' : Netlist} {id : NodeId} {n : Node}

theorem highest_le {ns : List Nat} {bound : Nat} (h : ∀ k ∈ ns, k ≤ bound) :
    highest ns ≤ bound := by
  induction ns with
  | nil => exact Nat.zero_le bound
  | cons m ns ih =>
    rw [List.forall_mem_cons] at h
    rw [highest_cons]
    exact Nat.max_le.mpr ⟨h.1, ih h.2⟩

theorem highest_mem {ns : List Nat} (hne : ns ≠ []) : highest ns ∈ ns := by
  induction ns with
  | nil => exact absurd rfl hne
  | cons m ns ih =>
    rw [highest_cons, List.mem_cons]
    by_cases hns : ns = []
    · subst hns
      exact .inl (Nat.max_eq_left (Nat.zero_le m))
    · rcases Nat.le_total m (highest ns) with hle | hle
      · rw [Nat.max_eq_right hle]
        exact .inr (ih hns)
      · exact .inl (Nat.max_eq_left hle)

/-! ## The levels of gates -/

/-- Whether a node is one level above one of its drivers, if it has any. -/
def Tight (net : Netlist) (n : Node) : Prop :=
  n.children ≠ [] → ∃ child ∈ n.children, ∃ m, net.nodes[child]? = some m ∧ n.level = m.level + 1

/-- Whether every gate is one level above one of its drivers. -/
def Levelled (net : Netlist) : Prop :=
  ∀ (id : NodeId) (n : Node), net.nodes[id]? = some n → ∀ g, n.kind = .gate g → net.Tight n

theorem Tight.mono (h : net.Tight n) (hnet : ∀ child ∈ n.children, ∀ m,
    net.nodes[child]? = some m → net'.nodes[child]? = some m) : net'.Tight n := by
  intro hne
  obtain ⟨child, hchild, m, hm, hlevel⟩ := h hne
  exact ⟨child, hchild, m, hnet child hchild m hm, hlevel⟩

theorem levelled_empty : empty.Levelled := by
  intro id n hn
  simp [empty] at hn

theorem Levelled.push (h : net.Levelled) (hn : ∀ g, n.kind = .gate g → net.Tight n) :
    (net.push n).Levelled := by
  have hkeep : ∀ m, net.Tight m → (net.push n).Tight m := fun m hm =>
    hm.mono fun _ _ _ hchild => getElem?_push_of_eq_some hchild n
  intro id m hm g hg
  rw [Netlist.push, Array.getElem?_push] at hm
  split at hm
  next =>
    cases hm
    exact hkeep n (hn g hg)
  next => exact hkeep m (h id m hm g hg)

theorem Levelled.addInput (h : net.Levelled) (label : String) :
    (net.addInput label).2.Levelled :=
  h.push (n := ⟨.input, [], 0, 0, some label⟩) fun _ hg => nomatch hg

/-- A gate is added right above its highest driver. -/
theorem Levelled.addGate (h : net.Levelled) {kind : NodeKind} {children : List NodeId}
    {group : Nat} (hadd : net.addGate kind children group = .ok (id, net')) : net'.Levelled := by
  obtain ⟨drivers, hdrivers, hadd⟩ := Except.bind_eq_ok_iff.mp hadd
  cases hadd
  refine h.push fun _ _ hne => ?_
  have hdrivers := Except.mapM_eq_ok_iff.mp hdrivers
  have hlevels : drivers.map Node.level ≠ [] := by
    rintro hnil
    rw [List.map_eq_nil_iff.mp hnil] at hdrivers
    exact hne (List.forall₂_nil_right_iff.mp hdrivers)
  obtain ⟨m, hmem, hm⟩ := List.mem_map.mp (highest_mem hlevels)
  obtain ⟨child, hchild, hnode⟩ := hdrivers.exists_of_mem_right hmem
  refine ⟨child, hchild, m, node_eq_ok_iff.mp hnode, ?_⟩
  rw [hm, Nat.add_comm]

theorem Levelled.addOutput (h : net.Levelled) {driver : NodeId} {label : String} {group : Nat}
    (hadd : net.addOutput driver label group = .ok (id, net')) : net'.Levelled := by
  obtain ⟨rfl, level, rfl⟩ := addOutput_eq_ok hadd
  exact h.push (n := ⟨.output, [driver], level, group, some label⟩) fun _ hg => nomatch hg

theorem Levelled.alignOutputs (h : net.Levelled) (hc : net.Consistent) :
    net.alignOutputs.Levelled := by
  intro id n hn g hg
  have hkind : n.kind ≠ .output := by
    rw [hg]
    exact nofun
  rw [getElem?_alignOutputs_iff hc.listed hkind] at hn
  refine (h id n hn g hg).mono fun child hchild m hm => ?_
  obtain ⟨m', hm', hne, -⟩ := (hc.nodes id n hn).exists_driver hchild
  cases hm.symm.trans hm'
  exact (getElem?_alignOutputs_iff hc.listed hne).mpr hm

/-! ## Paths -/

/-- There is a path from an input to the node `id` with `k` gates on it, the node included. -/
inductive PathTo (net : Netlist) : NodeId → Nat → Prop
  | input {id : NodeId} {n : Node} (hn : net.nodes[id]? = some n) (hkind : n.kind = .input) :
      PathTo net id 0
  | gate {id child : NodeId} {n : Node} {g : Gate} {k : Nat} (hn : net.nodes[id]? = some n)
      (hkind : n.kind = .gate g) (hchild : child ∈ n.children) (h : PathTo net child k) :
      PathTo net id (k + 1)

/-- No path to a node has more gates than the level of the node. -/
theorem PathTo.le_level (hc : net.Consistent) {k : Nat} (h : net.PathTo id k)
    (hn : net.nodes[id]? = some n) : k ≤ n.level := by
  induction h generalizing n with
  | input => exact Nat.zero_le _
  | @gate id child n' g k hn' hkind hchild _ ih =>
    cases hn.symm.trans hn'
    obtain ⟨m, hm, -, -, hlevel⟩ := (hc.nodes id _ hn).exists_driver hchild
    exact Nat.succ_le_of_lt (Nat.lt_of_le_of_lt (ih hm) hlevel)

/-- Some path to a node has as many gates as the level of the node. -/
theorem pathTo_level (hc : net.Consistent) (hl : net.Levelled) (hn : net.nodes[id]? = some n)
    (hkind : n.kind ≠ .output) : net.PathTo id n.level := by
  -- drivers come before the nodes they drive
  induction id using Nat.strongRecOn generalizing n with
  | ind id ih =>
    have hcons := hc.nodes id n hn
    cases hk : n.kind with
    | output => exact absurd hk hkind
    | input =>
      rw [hcons.input_level hk]
      exact .input hn hk
    | gate g =>
      have hne : n.children ≠ [] := hcons.driven (by rw [hk]; exact nofun)
      obtain ⟨child, hchild, m, hm, hlevel⟩ := hl id n hn g hk hne
      obtain ⟨m', hm', hdrives, hlt, -⟩ := hcons.exists_driver hchild
      cases hm.symm.trans hm'
      rw [hlevel]
      exact .gate hn hk hchild (ih child hlt hm hdrives)

/-- The level of a node that is no output is the number of gates on the longest path to it. -/
theorem isGreatest_level (hc : net.Consistent) (hl : net.Levelled) (hn : net.nodes[id]? = some n)
    (hkind : n.kind ≠ .output) : IsGreatest {k | net.PathTo id k} n.level :=
  ⟨pathTo_level hc hl hn hkind, fun _ hpath => hpath.le_level hc hn⟩

/-! ## The level of the outputs -/

/-- Whether all outputs are one level above all other nodes. -/
def Aligned (net : Netlist) : Prop :=
  ∀ n ∈ net.nodes, n.kind = .output → n.level = net.outputLevel

theorem outputLevel_alignOutputs (h : net.Listed) :
    net.alignOutputs.outputLevel = net.outputLevel := by
  have hsame : ∀ n : Node, n.kind ≠ .output → (n ∈ net.alignOutputs.nodes ↔ n ∈ net.nodes) := by
    intro n hkind
    simp only [Array.mem_iff_getElem?, getElem?_alignOutputs_iff h hkind]
  have hbelow : ∀ {net net' : Netlist}, (∀ n : Node, n.kind ≠ .output → n ∈ net.nodes →
      n ∈ net'.nodes) → net.outputLevel ≤ net'.outputLevel := by
    intro net net' hsub
    refine Nat.succ_le_succ (highest_le fun k hk => ?_)
    obtain ⟨n, hn, rfl⟩ := List.mem_map.mp hk
    obtain ⟨hn, hkind⟩ := List.mem_filter.mp hn
    have hkind := bne_iff_ne.mp hkind
    exact Nat.le_of_lt_succ (lt_outputLevel (hsub n hkind (Array.mem_toList_iff.mp hn)) hkind)
  exact Nat.le_antisymm (hbelow fun n hkind => (hsame n hkind).mp)
    (hbelow fun n hkind => (hsame n hkind).mpr)

theorem aligned_alignOutputs (h : net.Listed) : net.alignOutputs.Aligned := by
  intro n hn hkind
  obtain ⟨id, hid⟩ := Array.getElem?_of_mem hn
  rw [getElem?_alignOutputs] at hid
  obtain ⟨m, hm, rfl⟩ := Option.map_eq_some_iff.mp hid
  have hout : id ∈ net.outputs := by
    rw [h.mem_outputs_iff hm]
    split at hkind <;> exact hkind
  rw [if_pos hout, outputLevel_alignOutputs h]

/-- All nodes are at most as high as the outputs, which are as high as it gets. -/
theorem Aligned.maxLevel_eq (h : net.Aligned) (hout : ∃ n ∈ net.nodes, n.kind = .output) :
    net.maxLevel = net.outputLevel := by
  refine Nat.le_antisymm (highest_le fun k hk => ?_) ?_
  · obtain ⟨n, hn, rfl⟩ := List.mem_map.mp hk
    have hn := Array.mem_toList_iff.mp hn
    by_cases hkind : n.kind = .output
    · exact Nat.le_of_eq (h n hn hkind)
    · exact Nat.le_of_lt (lt_outputLevel hn hkind)
  · obtain ⟨n, hn, hkind⟩ := hout
    rw [← h n hn hkind]
    exact le_highest (List.mem_map_of_mem (Array.mem_toList_iff.mpr hn))

/-! ## Statistics -/

theorem mem_driverLevels (h : net.Listed) {k : Nat} : k ∈ net.driverLevels ↔
    ∃ n ∈ net.nodes, n.kind = .output ∧ ∃ child ∈ n.children, ∃ m,
      net.nodes[child]? = some m ∧ m.level = k := by
  simp only [driverLevels, List.mem_map, List.mem_filterMap, List.mem_flatMap, Array.mem_toList_iff]
  constructor
  · rintro ⟨m, ⟨child, ⟨n, ⟨id, hid, hn⟩, hchild⟩, hm⟩, hk⟩
    exact ⟨n, Array.mem_of_getElem? hn, (h.mem_outputs_iff hn).mp hid, child, hchild, m, hm, hk⟩
  · rintro ⟨n, hn, hkind, child, hchild, m, hm, hk⟩
    obtain ⟨id, hn⟩ := Array.getElem?_of_mem hn
    exact ⟨m, ⟨child, ⟨n, ⟨id, (h.mem_outputs_iff hn).mpr hkind, hn⟩, hchild⟩, hm⟩, hk⟩

/-- Where every node but the outputs drives something, the highest of them drive outputs. -/
theorem stats_depth_eq (h : net.Consistent) (hdrives : ∀ (id : NodeId) (n : Node),
      net.nodes[id]? = some n → n.kind ≠ .output → ∃ m ∈ net.nodes, id ∈ m.children) :
    net.stats.depth + 1 = net.outputLevel := by
  refine congrArg (· + 1) (Nat.le_antisymm (highest_le fun k hk => ?_) ?_)
  · obtain ⟨n, hn, -, child, hchild, m, hm, rfl⟩ := (mem_driverLevels h.listed).mp hk
    obtain ⟨id, hn⟩ := Array.getElem?_of_mem hn
    obtain ⟨m', hm', hkind, -⟩ := (h.nodes id n hn).exists_driver hchild
    cases hm.symm.trans hm'
    exact Nat.le_of_lt_succ (lt_outputLevel (Array.mem_of_getElem? hm) hkind)
  · by_cases hne : (net.nodes.toList.filter (·.kind != .output)).map Node.level = []
    · rw [hne]
      exact Nat.zero_le _
    · obtain ⟨n, hn, hlevel⟩ := List.mem_map.mp (highest_mem hne)
      rw [← hlevel]
      obtain ⟨hn, hkind⟩ := List.mem_filter.mp hn
      obtain ⟨id, hid⟩ := Array.getElem?_of_mem (Array.mem_toList_iff.mp hn)
      obtain ⟨m, hm, hmem⟩ := hdrives id n hid (bne_iff_ne.mp hkind)
      by_cases hout : m.kind = .output
      · exact le_highest ((mem_driverLevels h.listed).mpr ⟨m, hm, hout, id, hmem, n, hid, rfl⟩)
      · -- it drives a node above it, but there is none
        obtain ⟨id', hm'⟩ := Array.getElem?_of_mem hm
        obtain ⟨n', hn', -, -, hlt⟩ := (h.nodes id' m hm').exists_driver hmem
        cases hid.symm.trans hn'
        have := lt_outputLevel hm hout
        rw [outputLevel, ← hlevel] at this
        omega

/-- A node is an input, an output, or a gate of one of the kinds. -/
theorem count_kinds (ns : List Node) :
    ns.countP (·.kind == .input) + ns.countP (·.kind == .output) +
      Gate.all.foldl (fun count g => count + ns.countP (·.kind == .gate g)) 0 = ns.length := by
  induction ns with
  | nil => rfl
  | cons n ns ih =>
    simp only [Gate.all, List.foldl_cons, List.foldl_nil, List.countP_cons] at ih ⊢
    cases hkind : n.kind with
    | input => grind
    | output => grind
    | gate g => cases g <;> grind

/-- As many nodes are listed as there are nodes of the kind. -/
theorem length_findIdxs_kinds (net : Netlist) (kind : NodeKind) :
    (net.kinds.findIdxs (· == kind)).length = net.nodes.toList.countP (·.kind == kind) := by
  rw [List.length_findIdxs, kinds, List.countP_map]
  rfl

theorem Listed.size_inputs (h : net.Listed) :
    net.inputs.size = net.nodes.toList.countP (·.kind == .input) := by
  rw [← Array.length_toList, h.inputs, length_findIdxs_kinds]

theorem Listed.size_outputs (h : net.Listed) :
    net.outputs.size = net.nodes.toList.countP (·.kind == .output) := by
  rw [← Array.length_toList, h.outputs, length_findIdxs_kinds]

theorem stats_gates_eq (h : net.Listed) : net.stats.gates = net.gateCount := by
  have hall := count_kinds net.nodes.toList
  have hgates : net.stats.gates =
      Gate.all.foldl (fun count g => count + net.nodes.toList.countP (·.kind == .gate g)) 0 := rfl
  rw [gateCount, hgates, h.size_inputs, h.size_outputs, ← Array.length_toList]
  omega

end Netlist

end LogicSchematic
