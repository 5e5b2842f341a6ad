import LogicSchematic.Netlist.Check
import LogicSchematic.Proofs.Except

/-!
# Consistent netlists

What `check` accepts, as conditions on the nodes one by one: `check_eq_ok_iff`.
-/

namespace LogicSchematic

namespace Netlist

/-- The conditions on a node: no more drivers than pins, all of them before the node, driving, and
at lower levels; an input at level 0, and a driver for anything else. -/
structure NodeConsistent (net : Netlist) (id : NodeId) (n : Node) : Prop where
  pins : n.children.length ≤ n.kind.inputPins
  drivers : ∀ child ∈ n.children, child < id ∧
    ∃ m, net.nodes[child]? = some m ∧ m.kind.hasOutput = true ∧ m.level < n.level
  input_level : n.kind = .input → n.level = 0
  driven : n.kind ≠ .input → n.children ≠ []

variable {net : Netlist} {id : NodeId} {n m : Node}

theorem node_eq_ok_iff : net.node id = .ok m ↔ net.nodes[id]? = some m := by
  unfold node
  cases net.nodes[id]? <;> simp

theorem checkDriver_eq_ok_iff {child : NodeId} :
    net.checkDriver id n child = .ok () ↔ child < id ∧
      ∃ m, net.nodes[child]? = some m ∧ m.kind.hasOutput = true ∧ m.level < n.level := by
  rw [checkDriver, Except.unit_bind_eq_ok_iff, Except.bind_eq_ok_iff]
  simp only [Except.unit_bind_eq_ok_iff, demand_eq_ok_iff, decide_eq_true_eq, node_eq_ok_iff]

theorem checkNode_eq_ok_iff : net.checkNode id n = .ok () ↔ net.NodeConsistent id n := by
  simp only [checkNode, Except.unit_bind_eq_ok_iff, demand_eq_ok_iff, decide_eq_true_eq,
    Except.forM_eq_ok_iff, checkDriver_eq_ok_iff]
  constructor
  · rintro ⟨hpins, hdrivers, hlast⟩
    refine ⟨hpins, hdrivers, fun hkind => ?_, fun hkind => ?_⟩
    · simpa [hkind, demand_eq_ok_iff] using hlast
    · simpa [hkind, demand_eq_ok_iff] using hlast
  · intro h
    refine ⟨h.pins, h.drivers, ?_⟩
    by_cases hkind : n.kind = .input
    · simpa [hkind, demand_eq_ok_iff] using h.input_level hkind
    · simpa [hkind, demand_eq_ok_iff] using h.driven hkind

/-- A netlist is accepted when all its nodes are consistent and there is a wire for every driver. -/
theorem check_eq_ok_iff : net.check = .ok () ↔
    (∀ (id : NodeId) (n : Node), net.nodes[id]? = some n → net.NodeConsistent id n) ∧
      net.driverCount = net.wires.size := by
  rw [check, Except.unit_bind_eq_ok_iff, demand_eq_ok_iff, decide_eq_true_eq,
    Except.forM_eq_ok_iff]
  refine and_congr_left fun _ => ?_
  simp only [Prod.forall, List.mk_mem_zipIdx_iff_getElem?, Array.getElem?_toList,
    checkNode_eq_ok_iff]
  exact forall_comm

end Netlist

end LogicSchematic
