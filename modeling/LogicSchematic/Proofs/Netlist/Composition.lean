import LogicSchematic.Proofs.Netlist.Building
import LogicSchematic.Proofs.Netlist.Levels
import LogicSchematic.Proofs.Netlist.Meaning

/-!
# The composition of a netlist of equations

The nodes of a netlist of equations follow one plan (`composition`): an input for every variable, in
order of first appearance; then, equation after equation, a node for each gate of its circuit; then
an output for each equation.

Building starts with all inputs, and a circuit reads only variables of its expression, so every name
that is looked up later is known, and a gate of a circuit stands as many places after the circuit's
first gate as in the circuit. `NetlistBuilder.Holds` says what a builder has come to; one lemma for
each step adds to it (`addGates_holds`, `addMapping_holds`, `addEquation_holds`), up to
`buildNetlist_lists`.
-/

namespace LogicSchematic

/-- A name is found with its place. -/
theorem lookup_zipIdx {names : List String} {name : String} (h : name ∈ names) (start : Nat) :
    (names.zipIdx start).lookup name = some (start + names.idxOf name) := by
  induction names generalizing start with
  | nil => cases h
  | cons x names ih =>
    rw [List.zipIdx_cons, List.lookup_cons]
    by_cases hx : name = x
    · subst hx
      simp
    · have hmem : name ∈ names := (List.mem_cons.mp h).resolve_left hx
      rw [beq_eq_false_iff_ne.mpr hx, List.idxOf_cons_ne names (Ne.symm hx)]
      refine (ih hmem (start + 1)).trans ?_
      rw [Nat.add_assoc, Nat.add_comm 1]

/-! ## The plan -/

/-- A node without regard to its level. -/
def Node.unleveled (n : Node) : Node := { n with level := 0 }

/-- The input of a name. -/
def inputNode (name : String) : Node := ⟨.input, [], 0, 0, some name⟩

/-- The node of an operand in a netlist that begins with inputs for `names`, when the first gate of
the circuit has the node `start`. -/
def operandNode (names : List String) (start : NodeId) : Operand → NodeId
  | .var name => names.idxOf name
  | .gate index => start + index

/-- The circuit of an equation and its place in a netlist. -/
structure PlacedCircuit where
  label : String
  /-- The number of the equation. -/
  group : Nat
  /-- The node of the first gate. -/
  start : NodeId
  circuit : Mapping

namespace PlacedCircuit

/-- The nodes of the gates. -/
def gateNodes (names : List String) (p : PlacedCircuit) : List Node :=
  p.circuit.gates.map fun g =>
    ⟨.gate g.gate, g.operands.map (operandNode names p.start), 0, p.group, none⟩

/-- The output of the equation. -/
def outputNode (names : List String) (p : PlacedCircuit) : Node :=
  ⟨.output, [operandNode names p.start p.circuit.root], 0, p.group, some p.label⟩

/-- The output of the equation, before it is added. -/
def pendingOutput (names : List String) (p : PlacedCircuit) : PendingOutput :=
  ⟨operandNode names p.start p.circuit.root, p.label, p.group⟩

/-- Places labelled circuits one after another. The first gate of all has the node `start`, and the
first circuit belongs to the equation `group`. -/
def placeFrom : NodeId → Nat → List (String × Mapping) → List PlacedCircuit
  | _, _, [] => []
  | start, group, (label, m) :: rest =>
    ⟨label, group, start, m⟩ :: placeFrom (start + m.gates.length) (group + 1) rest

end PlacedCircuit

/-- The names of the variables of equations, in order of first appearance. -/
def variablesOf (equations : List Equation) : List String :=
  (equations.flatMap fun e => e.expr.occurrences).eraseDups

theorem mem_variablesOf {equations : List Equation} {name : String} :
    name ∈ variablesOf equations ↔ ∃ e ∈ equations, name ∈ e.expr.occurrences := by
  rw [variablesOf, List.mem_eraseDups, List.mem_flatMap]

theorem nodup_variablesOf (equations : List Equation) : (variablesOf equations).Nodup :=
  nodup_eraseDups _

/-- The circuits of equations, placed after the inputs. -/
def placed (equations : List Equation) (circuits : List Mapping) : List PlacedCircuit :=
  PlacedCircuit.placeFrom (variablesOf equations).length 0
    ((equations.map Equation.label).zip circuits)

/-- The nodes of a netlist of equations that have the circuits `circuits`, but for their levels:
inputs, gates and outputs. -/
def composition (equations : List Equation) (circuits : List Mapping) : List Node :=
  let names := variablesOf equations
  names.map inputNode ++ (placed equations circuits).flatMap (·.gateNodes names) ++
    (placed equations circuits).map (·.outputNode names)

/-! ## Adding nodes -/

namespace Netlist

variable {net net' : Netlist} {ns : List Node} {id : NodeId}

/-- Whether a netlist has the nodes `ns`, but for their levels, and every gate is at the level that
its drivers give it. -/
structure Lists (net : Netlist) (ns : List Node) : Prop where
  nodes : net.nodes.toList.map Node.unleveled = ns
  levelled : net.Levelled

theorem Lists.size_nodes (h : net.Lists ns) : net.nodes.size = ns.length := by
  rw [← h.nodes, List.length_map, Array.length_toList]

theorem map_unleveled_push (h : net.Lists ns) (n : Node) :
    (net.push n).nodes.toList.map Node.unleveled = ns ++ [n.unleveled] := by
  rw [Netlist.push, Array.toList_push, List.map_append, h.nodes]
  rfl

theorem lists_empty : empty.Lists [] := ⟨rfl, levelled_empty⟩

theorem Lists.addInput (h : net.Lists ns) (label : String) :
    (net.addInput label).2.Lists (ns ++ [inputNode label]) :=
  ⟨map_unleveled_push h ⟨.input, [], 0, 0, some label⟩, h.levelled.addInput label⟩

theorem Lists.addGate (h : net.Lists ns) {kind : NodeKind} {children : List NodeId} {group : Nat}
    (hadd : net.addGate kind children group = .ok (id, net')) :
    id = ns.length ∧ net'.Lists (ns ++ [⟨kind, children, 0, group, none⟩]) := by
  have hlevelled := h.levelled.addGate hadd
  obtain ⟨rfl, level, rfl⟩ := addGate_eq_ok hadd
  exact ⟨h.size_nodes, map_unleveled_push h ⟨kind, children, level, group, none⟩, hlevelled⟩

theorem Lists.addOutput (h : net.Lists ns) {driver : NodeId} {label : String} {group : Nat}
    (hadd : net.addOutput driver label group = .ok (id, net')) :
    net'.Lists (ns ++ [⟨.output, [driver], 0, group, some label⟩]) := by
  have hlevelled := h.levelled.addOutput hadd
  obtain ⟨rfl, level, rfl⟩ := addOutput_eq_ok hadd
  exact ⟨map_unleveled_push h ⟨.output, [driver], level, group, some label⟩, hlevelled⟩

theorem Lists.alignOutputs (h : net.Lists ns) (hc : net.Consistent) :
    net.alignOutputs.Lists ns := by
  refine ⟨?_, h.levelled.alignOutputs hc⟩
  rw [← h.nodes]
  refine List.ext_getElem? fun id => ?_
  simp only [List.getElem?_map, Array.getElem?_toList, getElem?_alignOutputs, Option.map_map]
  refine congrArg (Option.map · _) (funext fun n => ?_)
  show (if id ∈ net.outputs then _ else _ : Node).unleveled = n.unleveled
  split <;> rfl

end Netlist

/-! ## Building -/

namespace NetlistBuilder

variable {b c : NetlistBuilder} {s : Synthesizer} {names : List String} {ns : List Node}
  {os : List PendingOutput} {start : NodeId} {ids : Array NodeId}

/-- Whether a builder has the inputs `names`, which are its first nodes, in all the nodes `ns`, and
the outputs `os` to come. -/
structure Holds (names : List String) (ns : List Node) (os : List PendingOutput)
    (b : NetlistBuilder) : Prop where
  inputs : b.inputs = names.zipIdx
  nodes : b.netlist.Lists ns
  roots : b.roots = os

theorem Holds.lookup_inputs (h : b.Holds names ns os) {name : String} (hname : name ∈ names) :
    b.inputs.lookup name = some (names.idxOf name) := by
  rw [h.inputs, lookup_zipIdx hname, Nat.zero_add]

/-- The input of a new name is added. -/
theorem Holds.intern_new (h : b.Holds names (names.map inputNode) os) {name : String}
    (hname : name ∉ names) :
    (b.intern name).2.Holds (names ++ [name]) ((names ++ [name]).map inputNode) os := by
  have hnone : b.inputs.lookup name = none := by
    rw [h.inputs, List.lookup_eq_none_iff]
    intro p hp
    have hmem : p.1 ∈ names := by
      rw [← List.zipIdx_map_fst 0 names]
      exact List.mem_map_of_mem hp
    exact bne_iff_ne.mpr fun heq => hname (heq ▸ hmem)
  rw [intern, hnone]
  refine ⟨?_, ?_, h.roots⟩
  · show b.inputs ++ [(name, b.netlist.nodes.size)] = _
    rw [h.inputs, h.nodes.size_nodes, List.zipIdx_append, List.length_map, Nat.zero_add]
    rfl
  · rw [List.map_append]
    exact h.nodes.addInput name

theorem announce_holds (exprs : List Expr) :
    let names := (exprs.flatMap Expr.occurrences).eraseDups
    (announce exprs).Holds names (names.map inputNode) [] := by
  have hfold : ∀ (new known : List String) (b : NetlistBuilder), new.Nodup →
      (∀ name ∈ new, name ∉ known) → b.Holds known (known.map inputNode) [] →
      (new.foldl (fun b name => (b.intern name).2) b).Holds (known ++ new)
        ((known ++ new).map inputNode) [] := by
    intro new
    induction new with
    | nil =>
      intro known b _ _ h
      simpa using h
    | cons name new ih =>
      intro known b hnodup hnew h
      rw [List.forall_mem_cons] at hnew
      obtain ⟨hname, hnodup⟩ := List.nodup_cons.mp hnodup
      have hnext := ih (known ++ [name]) _ hnodup (fun x hx => ?_) (h.intern_new hnew.1)
      · rwa [List.append_assoc] at hnext
      · rw [List.mem_append, List.mem_singleton, not_or]
        exact ⟨hnew.2 x hx, fun heq => hname (heq ▸ hx)⟩
  have hempty : empty.Holds [] ([].map inputNode) [] := ⟨rfl, Netlist.lists_empty, rfl⟩
  exact hfold _ [] empty (nodup_eraseDups _) (fun _ _ => List.not_mem_nil) hempty

/-- Whether gates have their nodes one after another, from `start` on. -/
def Consecutive (start : NodeId) (ids : Array NodeId) : Prop :=
  ∀ (i : Nat) (id : NodeId), ids[i]? = some id → id = start + i

/-- Where names are known, nothing is added for an operand. -/
theorem resolve_eq (h : b.Holds names ns os) (hids : Consecutive start ids) {x : Operand}
    (hx : ∀ name, .var name = x → name ∈ names) {id : NodeId}
    (hr : b.resolve ids x = .ok (id, c)) : c = b ∧ id = operandNode names start x := by
  cases x with
  | var name =>
    rw [resolve, intern, h.lookup_inputs (hx name rfl)] at hr
    cases hr
    exact ⟨rfl, rfl⟩
  | gate index =>
    rw [resolve] at hr
    split at hr <;> cases hr
    next hid => exact ⟨rfl, hids index _ hid⟩

theorem resolveAll_eq (h : b.Holds names ns os) (hids : Consecutive start ids) {xs : List Operand}
    (hxs : ∀ name, .var name ∈ xs → name ∈ names) {children : List NodeId}
    (hr : b.resolveAll ids xs = .ok (children, c)) :
    c = b ∧ children = xs.map (operandNode names start) := by
  induction xs generalizing children with
  | nil =>
    cases hr
    exact ⟨rfl, rfl⟩
  | cons x xs ih =>
    obtain ⟨⟨id, b₁⟩, hx, hr⟩ := Except.bind_eq_ok_iff.mp hr
    obtain ⟨⟨rest, b₂⟩, hrest, hr⟩ := Except.bind_eq_ok_iff.mp hr
    cases hr
    have hhead : ∀ name, .var name = x → name ∈ names :=
      fun name hname => hxs name (hname ▸ List.mem_cons_self)
    obtain ⟨rfl, rfl⟩ := resolve_eq h hids hhead hx
    obtain ⟨rfl, rfl⟩ := ih (fun name hname => hxs name (List.mem_cons_of_mem x hname)) hrest
    exact ⟨rfl, rfl⟩

/-- Gates become nodes one after another. -/
theorem addGates_holds (h : b.Holds names ns os) (hids : Consecutive start ids)
    (hlength : ns.length = start + ids.size) {group : Nat} {gs : List MappedGate}
    (hgs : ∀ g ∈ gs, ∀ name, .var name ∈ g.operands → name ∈ names) {ids' : Array NodeId}
    (hr : b.addGates group ids gs = .ok (ids', c)) :
    c.Holds names (ns ++ gs.map fun g =>
      ⟨.gate g.gate, g.operands.map (operandNode names start), 0, group, none⟩) os ∧
    Consecutive start ids' := by
  induction gs generalizing b ns ids with
  | nil =>
    cases hr
    rw [List.map_nil, List.append_nil]
    exact ⟨h, hids⟩
  | cons g gs ih =>
    rw [List.forall_mem_cons] at hgs
    obtain ⟨⟨children, b₁⟩, hchildren, hr⟩ := Except.bind_eq_ok_iff.mp hr
    obtain ⟨⟨id, net⟩, hadd, hr⟩ := Except.bind_eq_ok_iff.mp hr
    obtain ⟨rfl, rfl⟩ := resolveAll_eq h hids hgs.1 hchildren
    obtain ⟨rfl, hnodes⟩ := h.nodes.addGate hadd
    have hids' : Consecutive start (ids.push ns.length) := by
      intro i id hid
      rw [Array.getElem?_push] at hid
      split at hid
      next hi =>
        cases hid
        rw [hlength, hi]
      next => exact hids i id hid
    have hnext := ih (b := { b₁ with netlist := net }) ⟨h.inputs, hnodes, h.roots⟩ hids'
      (by rw [List.length_append, Array.size_push, hlength]; rfl) hgs.2 hr
    rwa [List.append_assoc] at hnext

/-- A circuit becomes nodes after those that are there. -/
theorem addMapping_holds (h : b.Holds names ns os) {m : Mapping}
    (hm : ∀ name ∈ m.variableNames, name ∈ names) {group : Nat} {root : NodeId} (label : String)
    (hr : b.addMapping group m = .ok (root, c)) :
    let p : PlacedCircuit := ⟨label, group, ns.length, m⟩
    c.Holds names (ns ++ p.gateNodes names) os ∧
      (⟨root, label, group⟩ : PendingOutput) = p.pendingOutput names := by
  obtain ⟨⟨ids, b₁⟩, hgates, hr⟩ := Except.bind_eq_ok_iff.mp hr
  have hnone : Consecutive ns.length #[] := fun i id hid => by simp at hid
  obtain ⟨hholds, hids⟩ := addGates_holds h hnone rfl (fun g hg name hname =>
    hm name (Mapping.mem_variableNames.mpr (.inl ⟨g, hg, hname⟩))) hgates
  obtain ⟨rfl, rfl⟩ := resolve_eq hholds hids (fun name hname =>
    hm name (Mapping.mem_variableNames.mpr (.inr hname.symm))) hr
  exact ⟨hholds, rfl⟩

theorem addEquation_holds (h : b.Holds names ns os) {e : Equation} (he : e.expr.Proper)
    (hnames : ∀ name ∈ e.expr.occurrences, name ∈ names) {group : Nat} {root : NodeId}
    (hr : b.addEquation s e group = .ok (root, c)) :
    ∃ m, s.synthesize e.expr.flatten = .ok m ∧
      let p : PlacedCircuit := ⟨e.label, group, ns.length, m⟩
      c.Holds names (ns ++ p.gateNodes names) (os ++ [p.pendingOutput names]) := by
  obtain ⟨m, hm, hr⟩ := Except.bind_eq_ok_iff.mp hr
  obtain ⟨⟨root', b₁⟩, hadd, hr⟩ := Except.bind_eq_ok_iff.mp hr
  cases hr
  rw [Except.mapError_eq_ok_iff] at hm hadd
  have hvars : ∀ name ∈ m.variableNames, name ∈ names := by
    intro name hname
    rw [Synthesizer.mem_variableNames_of_synthesize (Expr.flatten_proper he) hm,
      Expr.occurrences_flatten] at hname
    exact hnames name hname
  obtain ⟨hholds, hroot⟩ := addMapping_holds h hvars e.label hadd
  refine ⟨m, hm, hholds.inputs, hholds.nodes, ?_⟩
  rw [hholds.roots, hroot]

/-- The circuits of equations are placed one after another. -/
theorem addEquations_holds (h : b.Holds names ns os) {es : List Equation}
    (hes : ∀ e ∈ es, e.expr.Proper ∧ ∀ name ∈ e.expr.occurrences, name ∈ names) {group : Nat}
    (hr : addEquations s b group es = .ok c) :
    ∃ circuits, List.Forall₂ (fun e m => s.synthesize e.expr.flatten = .ok m) es circuits ∧
      let ps := PlacedCircuit.placeFrom ns.length group ((es.map Equation.label).zip circuits)
      c.Holds names (ns ++ ps.flatMap (·.gateNodes names))
        (os ++ ps.map (·.pendingOutput names)) := by
  induction es generalizing b ns os group with
  | nil =>
    cases hr
    refine ⟨[], .nil, ?_⟩
    simpa [PlacedCircuit.placeFrom] using h
  | cons e es ih =>
    rw [List.forall_mem_cons] at hes
    obtain ⟨⟨root, b₁⟩, hadd, hr⟩ := Except.bind_eq_ok_iff.mp hr
    obtain ⟨m, hm, hholds⟩ := addEquation_holds h hes.1.1 hes.1.2 hadd
    obtain ⟨circuits, hall, hrest⟩ := ih hholds hes.2 hr
    refine ⟨m :: circuits, .cons hm hall, ?_⟩
    have hlength : ((⟨e.label, group, ns.length, m⟩ : PlacedCircuit).gateNodes names).length =
        m.gates.length := List.length_map _
    dsimp only at hrest
    rwa [List.length_append, hlength, List.append_assoc, List.append_assoc] at hrest

theorem addOutputs_lists {net net' : Netlist} (h : net.Lists ns)
    (hr : addOutputs net os = .ok net') :
    net'.Lists (ns ++ os.map fun o => ⟨.output, [o.driver], 0, o.group, some o.label⟩) := by
  induction os generalizing net ns with
  | nil =>
    cases hr
    rwa [List.map_nil, List.append_nil]
  | cons o os ih =>
    obtain ⟨⟨id, net₁⟩, hadd, hr⟩ := Except.bind_eq_ok_iff.mp hr
    have hrest := ih (h.addOutput hadd) hr
    rwa [List.append_assoc] at hrest

end NetlistBuilder

/-! ## The netlist -/

variable {s : Synthesizer} {equations : List Equation} {net : Netlist}

/-- What building comes to before the outputs are added. -/
theorem buildNetlist_holds (hproper : ∀ e ∈ equations, e.expr.Proper)
    (h : buildNetlist s equations = .ok net) :
    ∃ b circuits, NetlistBuilder.addEquations s (.announce (equations.map Equation.expr)) 0
        equations = .ok b ∧ b.finish = .ok net ∧
      List.Forall₂ (fun e m => s.synthesize e.expr.flatten = .ok m) equations circuits ∧
      b.Holds (variablesOf equations)
        ((variablesOf equations).map inputNode ++
          (placed equations circuits).flatMap (·.gateNodes (variablesOf equations)))
        ((placed equations circuits).map (·.pendingOutput (variablesOf equations))) := by
  obtain ⟨b, hadd, h⟩ := Except.bind_eq_ok_iff.mp h
  rw [Except.mapError_eq_ok_iff] at h
  have hannounce := NetlistBuilder.announce_holds (equations.map Equation.expr)
  rw [List.flatMap_map] at hannounce
  have hnames : ∀ e ∈ equations, e.expr.Proper ∧
      ∀ name ∈ e.expr.occurrences, name ∈ variablesOf equations :=
    fun e he => ⟨hproper e he, fun _ hname => mem_variablesOf.mpr ⟨e, he, hname⟩⟩
  obtain ⟨circuits, hall, hholds⟩ := NetlistBuilder.addEquations_holds hannounce hnames hadd
  rw [List.length_map] at hholds
  exact ⟨b, circuits, hadd, h, hall, hholds⟩

/-- The inputs of a netlist are the variables of its equations, in order of first appearance. -/
theorem buildNetlist_inputLabels (hproper : ∀ e ∈ equations, e.expr.Proper)
    (h : buildNetlist s equations = .ok net) :
    net.inputLabels = (equations.flatMap fun e => e.expr.occurrences).eraseDups := by
  obtain ⟨b, hadd, himp⟩ :=
    buildNetlist_implements (K := fun _ => True) (fun _ _ _ _ _ _ => trivial) h
  obtain ⟨b', circuits, hadd', -, -, hholds⟩ := buildNetlist_holds hproper h
  cases hadd.symm.trans hadd'
  rw [himp.inputLabels_eq, hholds.inputs, List.zipIdx_map_fst]
  rfl

/-- The nodes of a netlist follow the plan. They are consistent, the gates are at the levels of
their drivers, and the outputs above all other nodes. -/
theorem buildNetlist_lists (hshape : ∀ e ∈ equations, e.expr.WellShaped)
    (h : buildNetlist s equations = .ok net) :
    ∃ circuits, List.Forall₂ (fun e m => s.synthesize e.expr.flatten = .ok m) equations circuits ∧
      net.Lists (composition equations circuits) ∧ net.Consistent ∧ net.Aligned := by
  obtain ⟨b, circuits, hadd, hfinish, hall, hholds⟩ :=
    buildNetlist_holds (fun e he => (hshape e he).proper) h
  have hready := (NetlistBuilder.addEquations_advances
    (NetlistBuilder.announce_ready _) hshape hadd).ready
  obtain ⟨net₁, hnet₁, hconsistent⟩ :=
    NetlistBuilder.addOutputs_isOk hready.consistent hready.roots
  obtain ⟨net₂, hnet₂, rfl, -⟩ := NetlistBuilder.exists_of_finish hfinish
  cases hnet₁.symm.trans hnet₂
  rw [hholds.roots] at hnet₁
  have hlists := NetlistBuilder.addOutputs_lists hholds.nodes hnet₁
  rw [List.map_map] at hlists
  exact ⟨circuits, hall, hlists.alignOutputs hconsistent, hconsistent.alignOutputs,
    Netlist.aligned_alignOutputs hconsistent.listed⟩

/-- The plan of two equations that share an input. -/
example : composition [⟨"Y", .gate .and [.var "A", .var "B"]⟩, ⟨"Z", .gate .not [.var "B"]⟩]
      [⟨[⟨.nand, [.var "A", .var "B"]⟩, ⟨.nand, [.gate 0, .gate 0]⟩], .gate 1⟩,
        ⟨[⟨.nand, [.var "B", .var "B"]⟩], .gate 0⟩] =
    [⟨.input, [], 0, 0, some "A"⟩, ⟨.input, [], 0, 0, some "B"⟩,
      ⟨.gate .nand, [0, 1], 0, 0, none⟩, ⟨.gate .nand, [2, 2], 0, 0, none⟩,
      ⟨.gate .nand, [1, 1], 0, 1, none⟩,
      ⟨.output, [3], 0, 0, some "Y"⟩, ⟨.output, [4], 0, 1, some "Z"⟩] := by
  decide

end LogicSchematic
