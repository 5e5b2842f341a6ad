import LogicSchematic.Proofs.Netlist.Growth

/-!
# Netlists built step by step

A netlist is built when it comes from the empty one by adding inputs, gates and outputs and by
aligning the outputs, in any order (`Built`). Its lists of inputs and outputs are then right
(`Built.listed`), and every node comes after its drivers (`Built.driversFirst`).
-/

namespace LogicSchematic

namespace Netlist

/-- Whether a netlist was built by adding inputs, gates and outputs, aligned or not. -/
inductive Built : Netlist → Prop
  | empty : Built empty
  | addInput {net : Netlist} (h : Built net) (label : String) : Built (net.addInput label).2
  | addGate {net net' : Netlist} {g : Gate} {children : List NodeId} {group : Nat} {id : NodeId}
      (h : Built net) (hadd : net.addGate (.gate g) children group = .ok (id, net')) : Built net'
  | addOutput {net net' : Netlist} {driver : NodeId} {label : String} {group : Nat} {id : NodeId}
      (h : Built net) (hadd : net.addOutput driver label group = .ok (id, net')) : Built net'
  | alignOutputs {net : Netlist} (h : Built net) : Built net.alignOutputs

variable {net : Netlist}

theorem Built.driversFirst (h : net.Built) : net.DriversFirst := by
  induction h with
  | empty => exact fun id n hn => by simp [Netlist.empty] at hn
  | addInput _ label ih => exact ih.push (n := ⟨.input, [], 0, 0, some label⟩) (by simp)
  | @addGate net net' g children group id _ hadd ih =>
    have hchildren := (addGate_isOk_iff net (.gate g) children group).mp ⟨_, hadd⟩
    obtain ⟨-, level, rfl⟩ := addGate_eq_ok hadd
    exact ih.push hchildren
  | @addOutput net net' driver label group id _ hadd ih =>
    have hdriver := (addOutput_isOk_iff net driver label group).mp ⟨_, hadd⟩
    obtain ⟨rfl, level, rfl⟩ := addOutput_eq_ok hadd
    exact ih.push (n := ⟨.output, [driver], level, group, some label⟩) (by simpa using hdriver)
  | alignOutputs _ ih => exact ih.alignOutputs

theorem Built.listed (h : net.Built) : net.Listed := by
  induction h with
  | empty => exact listed_empty
  | addInput _ label ih => exact ih.addInput label
  | addGate _ hadd ih =>
    obtain ⟨-, level, rfl⟩ := addGate_eq_ok hadd
    exact ih.push rfl
  | addOutput _ hadd ih => exact ih.addOutput hadd
  | alignOutputs _ ih => exact ih.alignOutputs

end Netlist

end LogicSchematic
