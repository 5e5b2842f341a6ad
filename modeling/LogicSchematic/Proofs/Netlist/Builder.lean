import LogicSchematic.Netlist.Builder
import LogicSchematic.Proofs.Netlist.Check
import LogicSchematic.Proofs.Netlist.Growth
import Mathlib.Data.List.Forall2

/-!
# Netlists under construction

`Sound K` is the invariant of a builder: its inputs are the input nodes of the netlist, with their
names as labels, no name and no node twice, every gate has a kind with `K`, and the netlist lists
its inputs and outputs (`Listed`). Every step keeps it and only adds to what is there (`Grows`): one
lemma each for `intern`, `resolve`, `addGates` and `addEquation`.

A netlist realizes a circuit (`Realizes`) when it has a node for each gate of the circuit, of the
same kind and driven by the nodes of the operands. `addMapping_realizes` says that a circuit that is
added is realized, and it stays so whatever is added later (`Realizes.mono`).
`buildNetlist_implements` is what this comes to for the netlist of equations.
-/

namespace LogicSchematic

theorem forall₂_compose {α β γ : Type} {R : α → β → Prop} {S : β → γ → Prop} {T : α → γ → Prop}
    {xs : List α} {ys : List β} {zs : List γ} (h : List.Forall₂ R xs ys)
    (h' : List.Forall₂ S ys zs) (hT : ∀ x y z, R x y → S y z → T x z) : List.Forall₂ T xs zs := by
  induction h generalizing zs with
  | nil =>
    cases h'
    exact .nil
  | cons hxy _ ih =>
    obtain _ | ⟨hyz, hrest⟩ := h'
    exact .cons (hT _ _ _ hxy hyz) (ih hrest)

/-- Whether a node is that of an operand, given the nodes of the inputs and those of the gates. -/
def Operand.At (inputs : List (String × NodeId)) (ids : Array NodeId) : Operand → NodeId → Prop
  | .var name, id => inputs.lookup name = some id
  | .gate index, id => ids[index]? = some id

/-- Whether a netlist has a node for each gate of a circuit, and the node `root` for its root. -/
def Netlist.Realizes (net : Netlist) (inputs : List (String × NodeId)) (m : Mapping)
    (root : NodeId) : Prop :=
  ∃ ids : Array NodeId,
    (∀ (i : Nat) (g : MappedGate), m.gates[i]? = some g → ∃ id n, ids[i]? = some id ∧
      net.nodes[id]? = some n ∧ n.kind = .gate g.gate ∧
      List.Forall₂ (Operand.At inputs ids) g.operands n.children) ∧
    m.root.At inputs ids root

theorem Operand.At.mono {inputs inputs' : List (String × NodeId)} {ids ids' : Array NodeId}
    (hinputs : inputs <+: inputs')
    (hids : ∀ (i : Nat) (id : NodeId), ids[i]? = some id → ids'[i]? = some id) {x : Operand}
    {id : NodeId} (h : x.At inputs ids id) : x.At inputs' ids' id := by
  cases x with
  | var name => exact List.IsPrefix.lookup_eq_some hinputs h
  | gate index => exact hids index id h

/-- A circuit stays realized when the netlist grows. -/
theorem Netlist.Realizes.mono {net net' : Netlist} {inputs inputs' : List (String × NodeId)}
    {m : Mapping} {root : NodeId} (h : net.Realizes inputs m root) (hnet : net.Extends net')
    (hinputs : inputs <+: inputs') : net'.Realizes inputs' m root := by
  obtain ⟨ids, hgates, hroot⟩ := h
  refine ⟨ids, fun i g hg => ?_, hroot.mono hinputs fun _ _ hid => hid⟩
  obtain ⟨id, n, hid, hn, hkind, hchildren⟩ := hgates i g hg
  obtain ⟨level, hn'⟩ := hnet id n hn
  exact ⟨id, _, hid, hn', hkind, hchildren.imp fun _ _ h => h.mono hinputs fun _ _ hid => hid⟩

/-- Whether all gates of a netlist are of kinds with `K`. -/
def Netlist.GatesAre (net : Netlist) (K : Gate → Prop) : Prop :=
  ∀ n ∈ net.nodes, ∀ g, n.kind = .gate g → K g

theorem Netlist.GatesAre.push {net : Netlist} {K : Gate → Prop} (h : net.GatesAre K) {n : Node}
    (hn : ∀ g, n.kind = .gate g → K g) : (net.push n).GatesAre K := by
  intro m hm
  rcases Array.mem_push.mp hm with hm | rfl
  · exact h m hm
  · exact hn

theorem Netlist.GatesAre.alignOutputs {net : Netlist} {K : Gate → Prop} (h : net.GatesAre K) :
    net.alignOutputs.GatesAre K := by
  intro m hm g hg
  obtain ⟨id, hid⟩ := Array.getElem?_of_mem hm
  rw [Netlist.getElem?_alignOutputs] at hid
  obtain ⟨n, hn, rfl⟩ := Option.map_eq_some_iff.mp hid
  refine h n (Array.mem_of_getElem? hn) g ?_
  split at hg <;> exact hg

/-- Whether a node of a netlist is an output with the label `label`, driven by `driver`. -/
def Netlist.IsOutput (net : Netlist) (driver : NodeId) (label : String) (id : NodeId) : Prop :=
  ∃ n, net.nodes[id]? = some n ∧ n.kind = .output ∧ n.children = [driver] ∧ n.label = some label

theorem Netlist.IsOutput.mono {net net' : Netlist} {driver : NodeId} {label : String} {id : NodeId}
    (h : net.IsOutput driver label id) (hnet : net.Extends net') :
    net'.IsOutput driver label id := by
  obtain ⟨n, hn, hkind, hchildren, hlabel⟩ := h
  obtain ⟨level, hn'⟩ := hnet id n hn
  exact ⟨_, hn', hkind, hchildren, hlabel⟩

/-- What the netlist of equations is: consistent, with an input for each name in `inputs` and an
output for each equation, which is driven by the root of the equation's circuit. -/
structure Netlist.Implements (s : Synthesizer) (K : Gate → Prop) (equations : List Equation)
    (inputs : List (String × NodeId)) (net : Netlist) : Prop where
  consistent : net.check = .ok ()
  listed : net.Listed
  inputs_eq : net.inputs.toList = inputs.map Prod.snd
  input_node : ∀ name id, (name, id) ∈ inputs →
    ∃ n, net.nodes[id]? = some n ∧ n.kind = .input ∧ n.label = some name
  names_nodup : (inputs.map Prod.fst).Nodup
  ids_nodup : (inputs.map Prod.snd).Nodup
  kinds : net.GatesAre K
  outputs : List.Forall₂ (fun e id => ∃ m root, s.synthesize e.expr.flatten = .ok m ∧
    net.Realizes inputs m root ∧ net.IsOutput root e.label id)
    equations net.outputs.toList

namespace NetlistBuilder

variable {K : Gate → Prop} {b c d : NetlistBuilder}

/-- The invariant of a builder. -/
structure Sound (K : Gate → Prop) (b : NetlistBuilder) : Prop where
  listed : b.netlist.Listed
  inputs_eq : b.netlist.inputs.toList = b.inputs.map Prod.snd
  outputs_eq : b.netlist.outputs = #[]
  input_node : ∀ name id, (name, id) ∈ b.inputs →
    ∃ n, b.netlist.nodes[id]? = some n ∧ n.kind = .input ∧ n.label = some name
  names_nodup : (b.inputs.map Prod.fst).Nodup
  ids_nodup : (b.inputs.map Prod.snd).Nodup
  kinds : b.netlist.GatesAre K

/-- Whether nodes and inputs were added and none was changed. -/
structure Grows (b c : NetlistBuilder) : Prop where
  nodes : b.netlist.Extends c.netlist
  inputs : b.inputs <+: c.inputs

theorem Grows.refl (b : NetlistBuilder) : b.Grows b :=
  ⟨Netlist.Extends.refl _, List.prefix_refl _⟩

theorem Grows.trans (h : b.Grows c) (h' : c.Grows d) : b.Grows d :=
  ⟨h.nodes.trans h'.nodes, h.inputs.trans h'.inputs⟩

/-- What a step of building keeps: the invariant, what was there, and the outputs to come. -/
def Keeps (K : Gate → Prop) (b c : NetlistBuilder) : Prop :=
  c.Sound K ∧ b.Grows c ∧ c.roots = b.roots

theorem Keeps.trans (h : Keeps K b c) (h' : Keeps K c d) : Keeps K b d :=
  ⟨h'.1, h.2.1.trans h'.2.1, h'.2.2.trans h.2.2⟩

theorem sound_empty (K : Gate → Prop) : empty.Sound K :=
  ⟨Netlist.listed_empty, rfl, rfl, by simp [empty], .nil, .nil,
    by simp [empty, Netlist.empty, Netlist.GatesAre]⟩

/-! ## Inputs -/

theorem Sound.lt_of_mem (h : b.Sound K) {name : String} {id : NodeId}
    (hmem : (name, id) ∈ b.inputs) :
    id < b.netlist.nodes.size := by
  obtain ⟨n, hn, -⟩ := h.input_node name id hmem
  exact (Array.getElem?_eq_some_iff.mp hn).1

/-- Interning a name gives its input node, a new one if there is none. -/
theorem intern_keeps (h : b.Sound K) (name : String) :
    Keeps K b (b.intern name).2 ∧
      (b.intern name).2.inputs.lookup name = some (b.intern name).1 := by
  unfold intern
  cases hlookup : b.inputs.lookup name with
  | some id => exact ⟨⟨h, Grows.refl b, rfl⟩, hlookup⟩
  | none =>
    -- a new name: its node comes after all nodes, so it is none of the listed ones
    have hnew : ∀ p ∈ b.inputs, p.1 ≠ name := by
      intro p hp heq
      have := List.lookup_eq_none_iff.mp hlookup p hp
      simp [heq] at this
    have hgrows : b.netlist.Extends (b.netlist.addInput name).2 :=
      Netlist.extends_addInput b.netlist name
    refine ⟨⟨⟨h.listed.addInput name, ?_, ?_, ?_, ?_, ?_, ?_⟩,
      ⟨hgrows, List.prefix_append _ _⟩, rfl⟩, ?_⟩
    · simp [Netlist.addInput_eq, h.inputs_eq]
    · exact h.outputs_eq
    · intro name' id hmem
      rcases List.mem_append.mp hmem with hmem | hmem
      · obtain ⟨n, hn, hkind, hlabel⟩ := h.input_node name' id hmem
        obtain ⟨level, hn'⟩ := hgrows id n hn
        exact ⟨_, hn', hkind, hlabel⟩
      · cases List.mem_singleton.mp hmem
        exact ⟨_, Netlist.getElem?_push_size _ _, rfl, rfl⟩
    · rw [List.map_append, List.nodup_append]
      refine ⟨h.names_nodup, by simp, ?_⟩
      intro name' hname' name'' hname'' heq
      obtain ⟨p, hp, rfl⟩ := List.mem_map.mp hname'
      rw [List.mem_singleton.mp hname''] at heq
      exact hnew p hp heq
    · rw [List.map_append, List.nodup_append]
      refine ⟨h.ids_nodup, by simp, ?_⟩
      intro id hid id' hid' heq
      obtain ⟨p, hp, rfl⟩ := List.mem_map.mp hid
      have hlt := h.lt_of_mem hp
      rw [List.mem_singleton.mp hid'] at heq
      exact absurd heq (Nat.ne_of_lt hlt)
    · exact h.kinds.push fun _ hg => nomatch hg
    · rw [List.lookup_append, hlookup]
      simp

theorem foldl_intern_keeps (names : List String) (h : b.Sound K) :
    Keeps K b (names.foldl (fun b name => (b.intern name).2) b) := by
  induction names generalizing b with
  | nil => exact ⟨h, Grows.refl b, rfl⟩
  | cons name names ih =>
    have hkeeps := (intern_keeps h name).1
    exact hkeeps.trans (ih hkeeps.1)

theorem announce_keeps (K : Gate → Prop) (exprs : List Expr) : Keeps K empty (announce exprs) :=
  foldl_intern_keeps _ (sound_empty K)

/-! ## Gates -/

theorem resolve_keeps (h : b.Sound K) {ids : Array NodeId} {x : Operand} {id : NodeId}
    (hr : b.resolve ids x = .ok (id, c)) : Keeps K b c ∧ x.At c.inputs ids id := by
  cases x with
  | var name =>
    have hintern : b.intern name = (id, c) := Except.ok.inj hr
    have hkeeps := intern_keeps h name
    rwa [hintern] at hkeeps
  | gate index =>
    rw [resolve] at hr
    split at hr
    next hid =>
      cases hr
      exact ⟨⟨h, Grows.refl b, rfl⟩, hid⟩
    next => cases hr

theorem resolveAll_keeps (h : b.Sound K) {ids : Array NodeId} {xs : List Operand}
    {children : List NodeId} (hr : b.resolveAll ids xs = .ok (children, c)) :
    Keeps K b c ∧ List.Forall₂ (Operand.At c.inputs ids) xs children := by
  induction xs generalizing b children with
  | nil =>
    cases hr
    exact ⟨⟨h, Grows.refl _, rfl⟩, .nil⟩
  | cons x xs ih =>
    obtain ⟨⟨id, b₁⟩, hx, hr⟩ := Except.bind_eq_ok_iff.mp hr
    obtain ⟨⟨rest, b₂⟩, hxs, hr⟩ := Except.bind_eq_ok_iff.mp hr
    cases hr
    obtain ⟨hkeeps, hat⟩ := resolve_keeps h hx
    obtain ⟨hkeeps', hrest⟩ := ih hkeeps.1 hxs
    exact ⟨hkeeps.trans hkeeps', .cons (hat.mono hkeeps'.2.1.inputs fun _ _ hid => hid) hrest⟩

theorem push_keeps (h : b.Sound K) {n : Node} {g : Gate} (hkind : n.kind = .gate g) (hg : K g) :
    Keeps K b { b with netlist := b.netlist.push n } := by
  have hgrows := Netlist.extends_push b.netlist n
  have hkinds : (b.netlist.push n).GatesAre K := by
    refine h.kinds.push fun g' hg' => ?_
    rw [hkind] at hg'
    cases hg'
    exact hg
  refine ⟨⟨h.listed.push hkind, h.inputs_eq, h.outputs_eq, ?_, h.names_nodup, h.ids_nodup, hkinds⟩,
    ⟨hgrows, List.prefix_refl _⟩, rfl⟩
  intro name id hmem
  obtain ⟨m, hm, hkind, hlabel⟩ := h.input_node name id hmem
  obtain ⟨level, hm'⟩ := hgrows id m hm
  exact ⟨_, hm', hkind, hlabel⟩

/-- Gates are added one by one, each over nodes that are there. -/
theorem addGates_keeps (h : b.Sound K) {group : Nat} {ids ids' : Array NodeId}
    {gs : List MappedGate} (hK : ∀ g ∈ gs, K g.gate)
    (hr : b.addGates group ids gs = .ok (ids', c)) :
    Keeps K b c ∧ (∀ (i : Nat) (id : NodeId), ids[i]? = some id → ids'[i]? = some id) ∧
      ∀ (i : Nat) (g : MappedGate), gs[i]? = some g → ∃ id n, ids'[ids.size + i]? = some id ∧
        c.netlist.nodes[id]? = some n ∧ n.kind = .gate g.gate ∧
        List.Forall₂ (Operand.At c.inputs ids') g.operands n.children := by
  induction gs generalizing b ids with
  | nil =>
    cases hr
    exact ⟨⟨h, Grows.refl _, rfl⟩, fun _ _ hid => hid, by simp⟩
  | cons g gs ih =>
    rw [List.forall_mem_cons] at hK
    obtain ⟨⟨children, b₁⟩, hchildren, hr⟩ := Except.bind_eq_ok_iff.mp hr
    obtain ⟨⟨id, net⟩, hadd, hr⟩ := Except.bind_eq_ok_iff.mp hr
    obtain ⟨hkeeps₁, hat⟩ := resolveAll_keeps h hchildren
    obtain ⟨rfl, level, rfl⟩ := Netlist.addGate_eq_ok hadd
    have hkeeps₂ := push_keeps hkeeps₁.1
      (n := ⟨.gate g.gate, children, level, group, none⟩) rfl hK.1
    obtain ⟨hkeeps₃, hids, hgates⟩ := ih hkeeps₂.1 hK.2 hr
    -- gates that have their nodes keep them, which is what later operands refer to
    have hsame : ∀ (i : Nat) (id : NodeId), ids[i]? = some id → ids'[i]? = some id := by
      intro i id hid
      exact hids i id (getElem?_push_of_eq_some hid _)
    refine ⟨(hkeeps₁.trans hkeeps₂).trans hkeeps₃, hsame, fun i k hk => ?_⟩
    cases i with
    | zero =>
      cases hk
      obtain ⟨level', hnode⟩ := hkeeps₃.2.1.nodes _ _ (Netlist.getElem?_push_size b₁.netlist _)
      refine ⟨_, _, hids _ _ Array.getElem?_push_size, hnode, rfl, ?_⟩
      exact hat.imp fun _ _ hx => hx.mono hkeeps₃.2.1.inputs hsame
    | succ i =>
      have := hgates i k hk
      rwa [Array.size_push, Nat.add_assoc, Nat.add_comm 1 i] at this

/-- A circuit that is added is realized. -/
theorem addMapping_realizes (h : b.Sound K) {group : Nat} {m : Mapping} {root : NodeId}
    (hK : ∀ g ∈ m.gates, K g.gate) (hr : b.addMapping group m = .ok (root, c)) :
    Keeps K b c ∧ c.netlist.Realizes c.inputs m root := by
  obtain ⟨⟨ids, b₁⟩, hgates, hr⟩ := Except.bind_eq_ok_iff.mp hr
  obtain ⟨hkeeps, -, hnodes⟩ := addGates_keeps h hK hgates
  obtain ⟨hkeeps', hroot⟩ := resolve_keeps hkeeps.1 hr
  refine ⟨hkeeps.trans hkeeps', ids, fun i g hg => ?_, hroot⟩
  obtain ⟨id, n, hid, hn, hkind, hchildren⟩ := hnodes i g hg
  obtain ⟨level, hn'⟩ := hkeeps'.2.1.nodes id n hn
  rw [Array.size_empty, Nat.zero_add] at hid
  refine ⟨id, _, hid, hn', hkind, hchildren.imp fun _ _ hx => ?_⟩
  exact hx.mono hkeeps'.2.1.inputs fun _ _ hid => hid

/-! ## Equations -/

variable {s : Synthesizer}

/-- An equation adds its circuit, and the root of it to the outputs to come. -/
theorem addEquation_realizes (h : b.Sound K) {e : Equation} {group : Nat} {root : NodeId}
    (hK : ∀ m, s.synthesize e.expr.flatten = .ok m → ∀ g ∈ m.gates, K g.gate)
    (hr : b.addEquation s e group = .ok (root, c)) :
    c.Sound K ∧ b.Grows c ∧ c.roots = b.roots ++ [⟨root, e.label, group⟩] ∧
      ∃ m, s.synthesize e.expr.flatten = .ok m ∧ c.netlist.Realizes c.inputs m root := by
  obtain ⟨m, hm, hr⟩ := Except.bind_eq_ok_iff.mp hr
  obtain ⟨⟨root', b₁⟩, hadd, hr⟩ := Except.bind_eq_ok_iff.mp hr
  cases hr
  rw [Except.mapError_eq_ok_iff] at hm hadd
  obtain ⟨⟨hsound, hgrows, hroots⟩, hrealizes⟩ := addMapping_realizes h (hK m hm) hadd
  refine ⟨⟨hsound.listed, hsound.inputs_eq, hsound.outputs_eq, hsound.input_node,
    hsound.names_nodup, hsound.ids_nodup, hsound.kinds⟩, ⟨hgrows.nodes, hgrows.inputs⟩, ?_, m, hm,
    hrealizes⟩
  rw [hroots]

/-- All equations add their circuits, in order. -/
theorem addEquations_realizes (h : b.Sound K) {es : List Equation} {group : Nat}
    (hK : ∀ e ∈ es, ∀ m, s.synthesize e.expr.flatten = .ok m → ∀ g ∈ m.gates, K g.gate)
    (hr : addEquations s b group es = .ok c) :
    c.Sound K ∧ b.Grows c ∧ ∃ roots, c.roots = b.roots ++ roots ∧
      List.Forall₂ (fun e o => o.label = e.label ∧ ∃ m, s.synthesize e.expr.flatten = .ok m ∧
        c.netlist.Realizes c.inputs m o.driver) es roots := by
  induction es generalizing b group with
  | nil =>
    cases hr
    exact ⟨h, Grows.refl _, [], (List.append_nil _).symm, .nil⟩
  | cons e es ih =>
    rw [List.forall_mem_cons] at hK
    obtain ⟨⟨root, b₁⟩, hadd, hr⟩ := Except.bind_eq_ok_iff.mp hr
    obtain ⟨hsound, hgrows, hroots, m, hm, hrealizes⟩ := addEquation_realizes h hK.1 hadd
    obtain ⟨hsound', hgrows', roots, hroots', hrest⟩ := ih hsound hK.2 hr
    refine ⟨hsound', hgrows.trans hgrows', ⟨root, e.label, group⟩ :: roots, ?_,
      .cons ⟨rfl, m, hm, ?_⟩ hrest⟩
    · rw [hroots', hroots, List.append_assoc, List.singleton_append]
    · exact hrealizes.mono hgrows'.nodes hgrows'.inputs

/-! ## Outputs -/

/-- The outputs are added in order, after the nodes that are there. -/
theorem addOutputs_isOutput {net net' : Netlist} {os : List PendingOutput}
    (hr : addOutputs net os = .ok net') (hlisted : net.Listed) (hkinds : net.GatesAre K) :
    net.Extends net' ∧ net'.inputs = net.inputs ∧ net'.Listed ∧ net'.GatesAre K ∧
      ∃ ids, net'.outputs.toList = net.outputs.toList ++ ids ∧
        List.Forall₂ (fun o id => net'.IsOutput o.driver o.label id) os ids := by
  induction os generalizing net with
  | nil =>
    cases hr
    exact ⟨Netlist.Extends.refl _, rfl, hlisted, hkinds, [], (List.append_nil _).symm, .nil⟩
  | cons o os ih =>
    obtain ⟨⟨id, net₁⟩, hadd, hr⟩ := Except.bind_eq_ok_iff.mp hr
    have hlisted₁ := hlisted.addOutput hadd
    obtain ⟨rfl, level, rfl⟩ := Netlist.addOutput_eq_ok hadd
    dsimp only at hr
    obtain ⟨hext, hinputs, hlisted', hkinds', ids, houts, hrest⟩ :=
      ih hr hlisted₁ (hkinds.push fun _ hg => nomatch hg)
    refine ⟨(Netlist.extends_push net _).trans hext, hinputs, hlisted', hkinds',
      net.nodes.size :: ids, ?_, .cons ?_ hrest⟩
    · rw [houts, Array.toList_push, List.append_assoc, List.singleton_append]
    · refine Netlist.IsOutput.mono ?_ hext
      exact ⟨_, Netlist.getElem?_push_size net _, rfl, rfl, rfl⟩

theorem exists_of_finish {net : Netlist} (h : b.finish = .ok net) :
    ∃ net₁, addOutputs b.netlist b.roots = .ok net₁ ∧ net = net₁.alignOutputs ∧
      net.check = .ok () := by
  obtain ⟨net₁, hadd, h⟩ := Except.bind_eq_ok_iff.mp h
  obtain ⟨hcheck, h⟩ := Except.unit_bind_eq_ok_iff.mp h
  cases h
  exact ⟨net₁, hadd, rfl, hcheck⟩

/-- A finished builder keeps its inputs, with their names. -/
theorem Sound.finish_inputs {net : Netlist} (h : b.Sound K) (hr : b.finish = .ok net) :
    net.Listed ∧ net.inputs.toList = b.inputs.map Prod.snd ∧ ∀ name id, (name, id) ∈ b.inputs →
      ∃ n, net.nodes[id]? = some n ∧ n.kind = .input ∧ n.label = some name := by
  obtain ⟨net₁, hadd, rfl, -⟩ := exists_of_finish hr
  obtain ⟨hext, hinputs, hlisted, -⟩ := addOutputs_isOutput hadd h.listed h.kinds
  refine ⟨hlisted.alignOutputs, (congrArg Array.toList hinputs).trans h.inputs_eq, ?_⟩
  intro name id hmem
  obtain ⟨n, hn, hkind, hlabel⟩ := h.input_node name id hmem
  obtain ⟨level, hn'⟩ := (hext.trans (Netlist.extends_alignOutputs net₁)) id n hn
  exact ⟨_, hn', hkind, hlabel⟩

/-- A finished builder: the outputs are added and aligned, and the whole is consistent. -/
theorem finish_implements {equations : List Equation} {net : Netlist} (h : b.Sound K)
    (hroots : List.Forall₂ (fun e o => o.label = e.label ∧
      ∃ m, s.synthesize e.expr.flatten = .ok m ∧ b.netlist.Realizes b.inputs m o.driver)
      equations b.roots)
    (hr : b.finish = .ok net) : net.Implements s K equations b.inputs := by
  obtain ⟨hlisted, hinputs, hnode⟩ := h.finish_inputs hr
  obtain ⟨net₁, hadd, rfl, hcheck⟩ := exists_of_finish hr
  obtain ⟨hext, -, -, hkinds, ids, houts, hall⟩ := addOutputs_isOutput hadd h.listed h.kinds
  have halign := Netlist.extends_alignOutputs net₁
  refine ⟨hcheck, hlisted, hinputs, hnode, h.names_nodup, h.ids_nodup, hkinds.alignOutputs, ?_⟩
  have houts : net₁.alignOutputs.outputs.toList = ids := by
    rw [show net₁.alignOutputs.outputs = net₁.outputs from rfl, houts, h.outputs_eq]
    rfl
  rw [houts]
  refine forall₂_compose hroots hall ?_
  rintro e o id ⟨hlabel, m, hm, hrealizes⟩ hid
  refine ⟨m, o.driver, hm, hrealizes.mono (hext.trans halign) (List.prefix_refl _), ?_⟩
  rw [← hlabel]
  exact hid.mono halign

end NetlistBuilder

/-- The netlist that is built for equations implements them, with the inputs the builder ends
with. -/
theorem buildNetlist_implements {s : Synthesizer} {K : Gate → Prop} {equations : List Equation}
    {net : Netlist}
    (hK : ∀ e ∈ equations, ∀ m, s.synthesize e.expr.flatten = .ok m → ∀ g ∈ m.gates, K g.gate)
    (h : buildNetlist s equations = .ok net) :
    ∃ b, NetlistBuilder.addEquations s (.announce (equations.map Equation.expr)) 0 equations =
      .ok b ∧ net.Implements s K equations b.inputs := by
  obtain ⟨b, hadd, h⟩ := Except.bind_eq_ok_iff.mp h
  rw [Except.mapError_eq_ok_iff] at h
  obtain ⟨hsound, -, hroots⟩ :=
    NetlistBuilder.announce_keeps K (equations.map Equation.expr)
  obtain ⟨hsound', -, roots, hroots', hall⟩ :=
    NetlistBuilder.addEquations_realizes hsound hK hadd
  refine ⟨b, hadd, NetlistBuilder.finish_implements hsound' ?_ h⟩
  rw [hroots', hroots]
  exact hall

end LogicSchematic
