import LogicSchematic.Proofs.Netlist.Levels

/-!
# Sequences of operations

A netlist is worked on by four operations: adding an input, a gate or an output, and aligning the
outputs (`Operation`). An operation is allowed when the nodes it names can drive others, and when a
gate gets a driver and no more than it has pins for (`Operation.Allowed`).

On a consistent netlist an allowed operation does not fail, and the netlist is consistent afterwards
(`Operation.apply_isOk`). So it is consistent after every step of a sequence of allowed operations,
in whatever order they come (`trace_isOk`): gates and outputs may be added after outputs were
aligned, which leaves these where they are until the next alignment. `trace_orderly` says what this
comes to for the check, the wires, the number of gates and the levels of outputs.
-/

namespace LogicSchematic

/-- Whether a node is a gate. -/
def NodeKind.isGate : NodeKind → Bool
  | .gate _ => true
  | _ => false

namespace Netlist

/-- What can be done to a netlist. -/
inductive Operation where
  | addInput (label : String)
  | addGate (g : Gate) (children : List NodeId) (group : Nat)
  | addOutput (driver : NodeId) (label : String) (group : Nat)
  | alignOutputs
  deriving DecidableEq, Repr

namespace Operation

/-- The netlist after an operation. -/
def apply (net : Netlist) : Operation → Except NetlistFault Netlist
  | .addInput label => .ok (net.addInput label).2
  | .addGate g children group => do
    let (_, net) ← net.addGate (.gate g) children group
    return net
  | .addOutput driver label group => do
    let (_, net) ← net.addOutput driver label group
    return net
  | .alignOutputs => .ok net.alignOutputs

/-- Whether the nodes that an operation names are there and can drive others, and a gate has pins
for them. -/
def Allowed (net : Netlist) : Operation → Prop
  | .addInput _ => True
  | .addGate g children _ =>
    children ≠ [] ∧ children.length ≤ g.inputPins ∧ ∀ child ∈ children, net.Drives child
  | .addOutput driver _ _ => net.Drives driver
  | .alignOutputs => True

/-- Whether every one of several operations is allowed when its turn comes. -/
def AllAllowed (net : Netlist) : List Operation → Prop
  | [] => True
  | op :: ops => op.Allowed net ∧ ∀ net', op.apply net = .ok net' → AllAllowed net' ops

instance (net : Netlist) (id : NodeId) : Decidable (net.Drives id) :=
  decidable_of_iff (net.nodes[id]?.any (·.kind.hasOutput) = true) (by
    cases h : net.nodes[id]? <;> simp [Drives, h])

instance (net : Netlist) (op : Operation) : Decidable (op.Allowed net) :=
  match op with
  | .addInput _ => inferInstanceAs (Decidable True)
  | .addGate g children _ => inferInstanceAs (Decidable (children ≠ [] ∧
      children.length ≤ g.inputPins ∧ ∀ child ∈ children, net.Drives child))
  | .addOutput driver _ _ => inferInstanceAs (Decidable (net.Drives driver))
  | .alignOutputs => inferInstanceAs (Decidable True)

/-- Decides whether operations are allowed by doing them. -/
def decideAllAllowed : (net : Netlist) → (ops : List Operation) → Decidable (AllAllowed net ops)
  | _, [] => .isTrue trivial
  | net, op :: ops =>
    -- after an operation that fails there is no netlist the rest could be asked about
    match h : op.apply net with
    | .ok net' =>
      have := decideAllAllowed net' ops
      decidable_of_iff (op.Allowed net ∧ AllAllowed net' ops) (by simp [AllAllowed, h])
    | .error _ => decidable_of_iff (op.Allowed net) (by simp [AllAllowed, h])

instance (net : Netlist) (ops : List Operation) : Decidable (AllAllowed net ops) :=
  decideAllAllowed net ops

/-- The netlists after each of several operations. -/
def trace (net : Netlist) : List Operation → Except NetlistFault (List Netlist)
  | [] => .ok []
  | op :: ops => do
    let net ← op.apply net
    let nets ← trace net ops
    return net :: nets

end Operation

variable {net : Netlist} {op : Operation} {ops : List Operation}

/-- An allowed operation does not fail and keeps a netlist consistent. -/
theorem Operation.apply_isOk (h : net.Consistent) (hop : op.Allowed net) :
    ∃ net', op.apply net = .ok net' ∧ net'.Consistent := by
  cases op with
  | addInput label => exact ⟨_, rfl, h.addInput label⟩
  | addGate g children group =>
    obtain ⟨hne, hpins, hdrives⟩ := hop
    obtain ⟨level, hadd, hconsistent⟩ := h.addGate group hne hpins hdrives
    exact ⟨_, by rw [apply, hadd]; rfl, hconsistent⟩
  | addOutput driver label group =>
    obtain ⟨net', hadd, -, hconsistent⟩ := h.addOutput label group hop
    exact ⟨net', by rw [apply, hadd]; rfl, hconsistent⟩
  | alignOutputs => exact ⟨_, rfl, h.alignOutputs⟩

/-- Allowed operations do not fail, and the netlist is consistent after each of them. Right after an
alignment it is one that was aligned. -/
theorem Operation.trace_isOk (h : net.Consistent) (hops : AllAllowed net ops) :
    ∃ nets, trace net ops = .ok nets ∧ nets.length = ops.length ∧ (∀ net' ∈ nets, net'.Consistent) ∧
      ∀ (i : Nat) (net' : Netlist), ops[i]? = some .alignOutputs → nets[i]? = some net' →
        ∃ before : Netlist, before.Consistent ∧ net' = before.alignOutputs := by
  induction ops generalizing net with
  | nil => exact ⟨[], rfl, rfl, by simp, by simp⟩
  | cons op ops ih =>
    obtain ⟨hop, hrest⟩ := hops
    obtain ⟨net₁, happly, hconsistent⟩ := apply_isOk h hop
    obtain ⟨nets, htrace, hlength, hall, haligned⟩ := ih hconsistent (hrest net₁ happly)
    refine ⟨net₁ :: nets, ?_, ?_, ?_, fun i net' hi hnet' => ?_⟩
    · rw [trace, happly, Except.ok_bind, htrace]
      rfl
    · rw [List.length_cons, List.length_cons, hlength]
    · exact List.forall_mem_cons.mpr ⟨hconsistent, hall⟩
    · cases i with
      | zero =>
        cases hi
        cases hnet'
        cases happly
        exact ⟨net, h, rfl⟩
      | succ i => exact haligned i net' hi hnet'

/-! ## What consistency comes to -/

/-- A node is an input, an output or a gate. -/
theorem countP_isGate (ns : List Node) :
    ns.countP (·.kind == .input) + ns.countP (·.kind == .output) + ns.countP (·.kind.isGate) =
      ns.length := by
  induction ns with
  | nil => rfl
  | cons n ns ih =>
    rw [List.countP_cons, List.countP_cons, List.countP_cons, List.length_cons, ← ih]
    cases hkind : n.kind <;> simp [NodeKind.isGate] <;> omega

theorem Listed.gateCount_eq (h : net.Listed) :
    net.gateCount = net.nodes.toList.countP (·.kind.isGate) := by
  have hall := countP_isGate net.nodes.toList
  rw [gateCount, h.size_inputs, h.size_outputs, ← Array.length_toList]
  omega

/-- Aligned outputs are one level above the highest of all other nodes. -/
theorem Aligned.exists_highest (h : net.Aligned) (hc : net.Consistent) {n : Node}
    (hn : n ∈ net.nodes) (hkind : n.kind = .output) :
    ∃ top, IsGreatest {k | ∃ m ∈ net.nodes, m.kind ≠ .output ∧ m.level = k} top ∧
      n.level = top + 1 := by
  have hlevel : n.level =
      highest ((net.nodes.toList.filter (·.kind != .output)).map Node.level) + 1 := h n hn hkind
  refine ⟨_, ⟨?_, ?_⟩, hlevel⟩
  · -- an output has a driver, which is no output
    obtain ⟨id, hid⟩ := Array.getElem?_of_mem hn
    have hcons := hc.nodes id n hid
    obtain ⟨child, hchild⟩ :=
      List.exists_mem_of_ne_nil _ (hcons.driven (by rw [hkind]; exact nofun))
    obtain ⟨m, hm, hmkind, -⟩ := hcons.exists_driver hchild
    have hmem : m ∈ net.nodes.toList.filter (·.kind != .output) :=
      List.mem_filter.mpr ⟨Array.mem_toList_iff.mpr (Array.mem_of_getElem? hm),
        bne_iff_ne.mpr hmkind⟩
    have hne : (net.nodes.toList.filter (·.kind != .output)).map Node.level ≠ [] := by
      rw [ne_eq, List.map_eq_nil_iff]
      exact List.ne_nil_of_mem hmem
    obtain ⟨m', hm', hlevel⟩ := List.mem_map.mp (highest_mem hne)
    obtain ⟨hm', hkind'⟩ := List.mem_filter.mp hm'
    exact ⟨m', Array.mem_toList_iff.mp hm', bne_iff_ne.mp hkind', hlevel⟩
  · rintro k ⟨m, hm, hmkind, rfl⟩
    exact Nat.le_of_lt_succ (lt_outputLevel hm hmkind)

/-- Aligning outputs that are aligned changes nothing. -/
theorem Aligned.alignOutputs_eq (h : net.Aligned) (hlisted : net.Listed) :
    net.alignOutputs = net := by
  have hnodes : net.alignOutputs.nodes = net.nodes := by
    refine Array.ext_getElem? fun id => ?_
    rw [getElem?_alignOutputs]
    cases hn : net.nodes[id]? with
    | none => rfl
    | some n =>
      rw [Option.map_some]
      split
      next hid =>
        have hkind := (hlisted.mem_outputs_iff hn).mp hid
        rw [← h n (Array.mem_of_getElem? hn) hkind]
      next => rfl
  show { net with nodes := net.alignOutputs.nodes } = net
  rw [hnodes]

/-! ## Sequences from the empty netlist -/

/-- What holds of a netlist after every operation. -/
structure Orderly (net : Netlist) : Prop where
  check : net.check = .ok ()
  /-- The wires lead to the pins of all nodes, node after node and pin after pin. -/
  wires : net.wires.toList = net.nodes.toList.zipIdx.flatMap fun (n, id) =>
    n.children.zipIdx.map fun (child, pin) => ⟨child, 0, id, pin⟩
  gates : net.gateCount = net.nodes.toList.countP (·.kind.isGate)

/-- What holds of a netlist right after its outputs were aligned. -/
structure Settled (net : Netlist) : Prop where
  /-- The outputs are one level above the highest of all other nodes. -/
  outputs : ∀ n ∈ net.nodes, n.kind = .output →
    ∃ top, IsGreatest {k | ∃ m ∈ net.nodes, m.kind ≠ .output ∧ m.level = k} top ∧ n.level = top + 1
  alignOutputs_eq : net.alignOutputs = net

theorem Consistent.orderly (h : net.Consistent) : net.Orderly :=
  ⟨h.check, h.wires_eq, h.listed.gateCount_eq⟩

theorem Consistent.settled (h : net.Consistent) : net.alignOutputs.Settled := by
  have haligned := aligned_alignOutputs h.listed
  exact ⟨fun n => haligned.exists_highest h.alignOutputs,
    haligned.alignOutputs_eq h.listed.alignOutputs⟩

/-- Operations that are allowed, in any order, do not fail. After every one of them the netlist
passes its check, its wires are those of the drivers of its nodes, and its gates are counted; and
right after an alignment the outputs are one level above all other nodes and stay there in another
alignment. -/
theorem trace_orderly (h : Operation.AllAllowed empty ops) :
    ∃ nets, Operation.trace empty ops = .ok nets ∧ nets.length = ops.length ∧
      (∀ net ∈ nets, net.Orderly) ∧
      ∀ (i : Nat) (net : Netlist), ops[i]? = some .alignOutputs → nets[i]? = some net →
        net.Settled := by
  obtain ⟨nets, htrace, hlength, hall, haligned⟩ := Operation.trace_isOk consistent_empty h
  refine ⟨nets, htrace, hlength, fun net hnet => (hall net hnet).orderly, fun i net hi hnet => ?_⟩
  obtain ⟨before, hbefore, rfl⟩ := haligned i net hi hnet
  exact hbefore.settled

/-- A gate and an output are added after an alignment, and the next one raises both outputs. -/
theorem trace_orderly_late :
    let ops : List Operation := [.addInput "A", .addOutput 0 "Y" 0, .alignOutputs,
      .addGate .nand [0, 0] 1, .addGate .not [2] 1, .addOutput 3 "Z" 1, .alignOutputs]
    Operation.AllAllowed empty ops ∧ ∃ nets, Operation.trace empty ops = .ok nets ∧
      nets.length = 7 ∧ (∀ net ∈ nets, net.Orderly) ∧
      ∃ net, nets[6]? = some net ∧ net.nodes.toList.map Node.level = [0, 3, 1, 2, 3] ∧
        net.Settled := by
  intro ops
  have hops : Operation.AllAllowed empty ops := by decide
  obtain ⟨nets, htrace, hlength, hall, hsettled⟩ := trace_orderly hops
  refine ⟨hops, nets, htrace, hlength, hall, ?_⟩
  cases htrace
  exact ⟨_, rfl, by decide, hsettled 6 _ rfl rfl⟩

end Netlist

end LogicSchematic
