import LogicSchematic.Generation
import LogicSchematic.Proofs.Expr.Parsed
import LogicSchematic.Proofs.Netlist.Builder
import LogicSchematic.Proofs.Netlist.Consistency
import LogicSchematic.Proofs.Synthesis.Circuit

/-!
# Building does not fail

A builder is ready when its netlist is consistent and the nodes of its inputs and of the outputs to
come can drive others (`Ready`). The operands of a circuit are names or gates before, so each step
of adding it finds its nodes, and the builder is ready again (`Advances`): `intern_advances`,
`resolve_isOk`, `addGates_isOk`, `addMapping_isOk`. So an equation whose circuit is found is added
(`addEquation_isOk`), and a ready builder can be finished (`Ready.finish`). What is left as a reason
for a run to fail is synthesis (`netlistOfLines_cases`).
-/

namespace LogicSchematic

namespace NetlistBuilder

variable {b c d : NetlistBuilder} {ids : Array NodeId}

/-- Whether a builder can go on: its netlist is consistent, and its inputs and the drivers of the
outputs to come are nodes that can drive others. -/
structure Ready (b : NetlistBuilder) : Prop where
  consistent : b.netlist.Consistent
  inputs : ∀ name id, b.inputs.lookup name = some id → b.netlist.Drives id
  roots : ∀ o ∈ b.roots, b.netlist.Drives o.driver

/-- What a step leads to: a builder that is ready, with all nodes that were there. -/
structure Advances (b c : NetlistBuilder) : Prop where
  ready : c.Ready
  grows : b.netlist.Extends c.netlist

theorem Advances.trans (h : b.Advances c) (h' : c.Advances d) : b.Advances d :=
  ⟨h'.ready, h.grows.trans h'.grows⟩

theorem Ready.refl (h : b.Ready) : b.Advances b := ⟨h, Netlist.Extends.refl _⟩

theorem ready_empty : empty.Ready :=
  ⟨Netlist.consistent_empty, fun _ _ h => (nomatch h), fun _ h => (nomatch h)⟩

/-! ## Inputs -/

theorem intern_advances (h : b.Ready) (name : String) :
    b.Advances (b.intern name).2 ∧ (b.intern name).2.netlist.Drives (b.intern name).1 := by
  unfold intern
  cases hlookup : b.inputs.lookup name with
  | some id => exact ⟨h.refl, h.inputs name id hlookup⟩
  | none =>
    have hgrows := Netlist.extends_addInput b.netlist name
    have hnew : (b.netlist.addInput name).2.Drives b.netlist.nodes.size :=
      ⟨_, Netlist.getElem?_push_size b.netlist _, rfl⟩
    refine ⟨⟨⟨h.consistent.addInput name, fun name' id hid => ?_, fun o ho => ?_⟩, hgrows⟩, hnew⟩
    · -- a name is found where it was, or it is the new one
      rw [List.lookup_append, Option.or_eq_some_iff] at hid
      rcases hid with hid | ⟨-, hid⟩
      · exact (h.inputs name' id hid).mono hgrows
      · obtain ⟨l₁, l₂, hl, -⟩ := List.lookup_eq_some_iff.mp hid
        have hmem : (name', id) ∈ [(name, b.netlist.nodes.size)] := by
          rw [show [(name, b.netlist.nodes.size)] = _ from hl]
          exact List.mem_append_right _ List.mem_cons_self
        cases List.mem_singleton.mp hmem
        exact hnew
    · exact (h.roots o ho).mono hgrows

theorem announce_ready (exprs : List Expr) : (announce exprs).Ready := by
  have hfold : ∀ (names : List String) (b : NetlistBuilder), b.Ready →
      (names.foldl (fun b name => (b.intern name).2) b).Ready := by
    intro names
    induction names with
    | nil => exact fun _ h => h
    | cons name names ih => exact fun b h => ih _ (intern_advances h name).1.ready
  exact hfold _ _ ready_empty

/-! ## Gates -/

theorem resolve_isOk (h : b.Ready) (hids : ∀ id ∈ ids, b.netlist.Drives id) {x : Operand}
    (hx : x.Below ids.size) :
    ∃ id c, b.resolve ids x = .ok (id, c) ∧ b.Advances c ∧ c.netlist.Drives id := by
  cases x with
  | var name =>
    obtain ⟨hadvances, hdrives⟩ := intern_advances h name
    exact ⟨_, _, rfl, hadvances, hdrives⟩
  | gate index =>
    have hlt : index < ids.size := hx
    refine ⟨ids[index], b, ?_, h.refl, hids _ (Array.getElem_mem hlt)⟩
    rw [resolve, Array.getElem?_eq_getElem hlt]

theorem resolveAll_isOk (h : b.Ready) (hids : ∀ id ∈ ids, b.netlist.Drives id) {xs : List Operand}
    (hxs : ∀ x ∈ xs, x.Below ids.size) :
    ∃ children c, b.resolveAll ids xs = .ok (children, c) ∧ b.Advances c ∧
      children.length = xs.length ∧ ∀ child ∈ children, c.netlist.Drives child := by
  induction xs generalizing b with
  | nil => exact ⟨[], b, rfl, h.refl, rfl, fun _ hc => nomatch hc⟩
  | cons x xs ih =>
    rw [List.forall_mem_cons] at hxs
    obtain ⟨id, b₁, hx, hadvances, hdrives⟩ := resolve_isOk h hids hxs.1
    obtain ⟨rest, c, hrest, hadvances', hlen, hall⟩ :=
      ih hadvances.ready (fun id hid => (hids id hid).mono hadvances.grows) hxs.2
    refine ⟨id :: rest, c, ?_, hadvances.trans hadvances', ?_, ?_⟩
    · rw [resolveAll, hx, Except.ok_bind]
      dsimp only
      rw [hrest]
      rfl
    · rw [List.length_cons, List.length_cons, hlen]
    · exact List.forall_mem_cons.mpr ⟨hdrives.mono hadvances'.grows, hall⟩

/-- A gate over nodes that can drive others is added. -/
theorem addGate_advances (h : b.Ready) {g : Gate} {children : List NodeId} (group : Nat)
    (hfits : g.Fits children.length) (hdrives : ∀ child ∈ children, b.netlist.Drives child) :
    ∃ net, b.netlist.addGate (.gate g) children group = .ok (b.netlist.nodes.size, net) ∧
      b.Advances { b with netlist := net } ∧ net.Drives b.netlist.nodes.size := by
  obtain ⟨hpos, hpins⟩ := hfits.bounds
  obtain ⟨level, hadd, hconsistent⟩ :=
    h.consistent.addGate group (List.length_pos_iff.mp hpos) hpins hdrives
  have hgrows := Netlist.extends_push b.netlist ⟨.gate g, children, level, group, none⟩
  refine ⟨_, hadd, ⟨⟨hconsistent, ?_, ?_⟩, hgrows⟩, ?_⟩
  · exact fun name id hid => (h.inputs name id hid).mono hgrows
  · exact fun o ho => (h.roots o ho).mono hgrows
  · exact ⟨_, Netlist.getElem?_push_size _ _, rfl⟩

/-- Gates over names and gates before are added one by one. -/
theorem addGates_isOk (h : b.Ready) (group : Nat) (hids : ∀ id ∈ ids, b.netlist.Drives id)
    {gs : List MappedGate} (hord : Mapping.OrderedFrom ids.size gs)
    (hfits : ∀ g ∈ gs, g.gate.Fits g.operands.length) :
    ∃ ids' c, b.addGates group ids gs = .ok (ids', c) ∧ b.Advances c ∧
      ids'.size = ids.size + gs.length ∧ ∀ id ∈ ids', c.netlist.Drives id := by
  induction gs generalizing b ids with
  | nil => exact ⟨ids, b, rfl, h.refl, rfl, hids⟩
  | cons g gs ih =>
    obtain ⟨hbelow, hord⟩ := hord
    rw [List.forall_mem_cons] at hfits
    obtain ⟨children, b₁, hchildren, hadvances₁, hlen, hdrives⟩ := resolveAll_isOk h hids hbelow
    obtain ⟨net, hadd, hadvances₂, hnew⟩ :=
      addGate_advances hadvances₁.ready group (hlen ▸ hfits.1) hdrives
    -- gates that come later may read this one
    have hpush : ∀ id ∈ ids.push b₁.netlist.nodes.size, net.Drives id := by
      intro id hid
      rcases Array.mem_push.mp hid with hid | rfl
      · exact (hids id hid).mono (hadvances₁.trans hadvances₂).grows
      · exact hnew
    obtain ⟨ids', c, hrest, hadvances₃, hsize, hall⟩ :=
      ih hadvances₂.ready hpush (by rwa [Array.size_push]) hfits.2
    refine ⟨ids', c, ?_, (hadvances₁.trans hadvances₂).trans hadvances₃, ?_, hall⟩
    · rw [addGates, hchildren, Except.ok_bind]
      dsimp only
      rw [hadd, Except.ok_bind]
      exact hrest
    · rw [hsize, Array.size_push, List.length_cons]
      omega

/-- A circuit whose operand counts fit is added. -/
theorem addMapping_isOk (h : b.Ready) (group : Nat) {m : Mapping} (hm : m.WellFormed)
    (hfits : ∀ g ∈ m.gates, g.gate.Fits g.operands.length) :
    ∃ root c, b.addMapping group m = .ok (root, c) ∧ b.Advances c ∧ c.netlist.Drives root := by
  have hnone : ∀ id ∈ (#[] : Array NodeId), b.netlist.Drives id := by simp
  obtain ⟨ids, b₁, hgates, hadvances, hsize, hall⟩ :=
    addGates_isOk h group hnone hm.ordered hfits
  obtain ⟨root, c, hroot, hadvances', hdrives⟩ :=
    resolve_isOk hadvances.ready hall (x := m.root) (by
      rw [hsize, Array.size_empty, Nat.zero_add]
      exact hm.root_below)
  refine ⟨root, c, ?_, hadvances.trans hadvances', hdrives⟩
  rw [addMapping, hgates, Except.ok_bind]
  exact hroot

/-! ## Equations -/

variable {s : Synthesizer} {e : Equation}

/-- An equation whose circuit is found is added. -/
theorem addEquation_isOk (h : b.Ready) (he : e.expr.WellShaped) (group : Nat) {m : Mapping}
    (hm : s.synthesize e.expr.flatten = .ok m) :
    ∃ root c, b.addEquation s e group = .ok (root, c) ∧ b.Advances c ∧ c.netlist.Drives root := by
  have hproper := Expr.flatten_proper he.proper
  have hnot := Expr.flatten_unaryNot he.proper he.unaryNot
  obtain ⟨root, c, hadd, hadvances, hdrives⟩ :=
    addMapping_isOk h group (Synthesizer.wellFormed_of_synthesize hproper hm) fun g hg =>
      (Synthesizer.fit_of_synthesize hproper hnot hm hg).2
  refine ⟨root, { c with roots := c.roots ++ [⟨root, e.label, group⟩] }, ?_, ⟨⟨?_, ?_, ?_⟩, ?_⟩,
    hdrives⟩
  · rw [addEquation, hm]
    show ((b.addMapping group m).mapError BuildError.fault >>= _) = _
    rw [hadd]
    rfl
  · exact hadvances.ready.consistent
  · exact hadvances.ready.inputs
  · intro o ho
    rcases List.mem_append.mp ho with ho | ho
    · exact hadvances.ready.roots o ho
    · rw [List.mem_singleton.mp ho]
      exact hdrives
  · exact hadvances.grows

/-- An equation is added or has no circuit. -/
theorem addEquation_cases (h : b.Ready) (he : e.expr.WellShaped) (group : Nat) :
    (∃ root c, b.addEquation s e group = .ok (root, c) ∧ b.Advances c ∧ c.netlist.Drives root) ∨
      ∃ cause, s.synthesize e.expr.flatten = .error cause ∧
        b.addEquation s e group = .error (.synthesis cause) := by
  cases hm : s.synthesize e.expr.flatten with
  | ok m => exact .inl (addEquation_isOk h he group hm)
  | error cause =>
    refine .inr ⟨cause, rfl, ?_⟩
    rw [addEquation, hm]
    rfl

theorem addEquations_advances (h : b.Ready) {es : List Equation}
    (hes : ∀ e ∈ es, e.expr.WellShaped) {group : Nat} (hr : addEquations s b group es = .ok c) :
    b.Advances c := by
  induction es generalizing b group with
  | nil =>
    cases hr
    exact h.refl
  | cons e es ih =>
    rw [List.forall_mem_cons] at hes
    obtain ⟨⟨root, b₁⟩, hadd, hr⟩ := Except.bind_eq_ok_iff.mp hr
    rcases addEquation_cases (s := s) h hes.1 group with
      ⟨root', b₁', hadd', hadvances, -⟩ | ⟨cause, -, herror⟩
    · cases hadd.symm.trans hadd'
      exact hadvances.trans (ih hadvances.ready hes.2 hr)
    · cases hadd.symm.trans herror

/-! ## Outputs -/

theorem addOutputs_isOk {net : Netlist} (h : net.Consistent) {os : List PendingOutput}
    (hdrives : ∀ o ∈ os, net.Drives o.driver) :
    ∃ net', addOutputs net os = .ok net' ∧ net'.Consistent := by
  induction os generalizing net with
  | nil => exact ⟨net, rfl, h⟩
  | cons o os ih =>
    rw [List.forall_mem_cons] at hdrives
    obtain ⟨net₁, hadd, hgrows, hconsistent⟩ := h.addOutput o.label o.group hdrives.1
    obtain ⟨net', hrest, hconsistent'⟩ :=
      ih hconsistent fun o ho => (hdrives.2 o ho).mono hgrows
    refine ⟨net', ?_, hconsistent'⟩
    rw [addOutputs, hadd, Except.ok_bind]
    exact hrest

/-- A ready builder can be finished. -/
theorem Ready.finish (h : b.Ready) : ∃ net, b.finish = .ok net ∧ net.Consistent := by
  obtain ⟨net, hadd, hconsistent⟩ := addOutputs_isOk h.consistent h.roots
  refine ⟨net.alignOutputs, ?_, hconsistent.alignOutputs⟩
  rw [NetlistBuilder.finish, hadd, Except.ok_bind]
  dsimp only
  rw [hconsistent.alignOutputs.check]
  rfl

end NetlistBuilder

/-! ## Runs -/

variable {s : Synthesizer}

/-- Whether the equation with a given index, on the line `line`, is the first that has no circuit,
and why it has none. -/
structure FirstUnmapped (s : Synthesizer) (lines : List (Nat × Equation)) (index line : Nat)
    (cause : SynthesisError) : Prop where
  fails : ∃ e, lines[index]? = some (line, e) ∧ s.synthesize e.expr.flatten = .error cause
  before : ∀ p ∈ lines.take index, ∃ m, s.synthesize p.2.expr.flatten = .ok m

theorem FirstUnmapped.cons {lines : List (Nat × Equation)} {index line : Nat}
    {cause : SynthesisError} {p : Nat × Equation} {m : Mapping}
    (hm : s.synthesize p.2.expr.flatten = .ok m) (h : FirstUnmapped s lines index line cause) :
    FirstUnmapped s (p :: lines) (index + 1) line cause := by
  refine ⟨h.fails, ?_⟩
  rw [List.take_succ_cons, List.forall_mem_cons]
  exact ⟨⟨m, hm⟩, h.before⟩

/-- Lines are added until one has no circuit. With and without the numbers of the lines, it is the
same one. -/
theorem addLines_cases {b : NetlistBuilder} (h : b.Ready) (group : Nat)
    {lines : List (Nat × Equation)} (hlines : ∀ p ∈ lines, p.2.expr.WellShaped) :
    (∃ c, addLines s b group lines = .ok c ∧ b.Advances c) ∨
      ∃ index line cause, FirstUnmapped s lines index line cause ∧
        addLines s b group lines = .error (.synthesis line cause) ∧
        b.addEquations s group (lines.map Prod.snd) = .error (.synthesis cause) := by
  induction lines generalizing b group with
  | nil => exact .inl ⟨b, rfl, h.refl⟩
  | cons p lines ih =>
    obtain ⟨line, e⟩ := p
    rw [List.forall_mem_cons] at hlines
    rw [addLines, List.map_cons, NetlistBuilder.addEquations]
    cases hm : s.synthesize e.expr.flatten with
    | ok m =>
      obtain ⟨root, c, hadd, hadvances, -⟩ :=
        NetlistBuilder.addEquation_isOk h hlines.1 group hm
      rw [hadd]
      rcases ih hadvances.ready (group + 1) hlines.2 with
        ⟨d, hrest, hadvances'⟩ | ⟨index, line', cause, hfirst, hfails⟩
      · exact .inl ⟨d, hrest, hadvances.trans hadvances'⟩
      · exact .inr ⟨index + 1, line', cause, hfirst.cons hm, hfails⟩
    | error cause =>
      have hadd : b.addEquation s e group = .error (.synthesis cause) := by
        rw [NetlistBuilder.addEquation, hm]
        rfl
      rw [hadd]
      exact .inr ⟨0, line, cause, ⟨⟨e, rfl, hm⟩, fun _ hp => (nomatch hp)⟩, rfl, rfl⟩

/-- The netlist of lines is consistent, or one of them has no circuit. -/
theorem netlistOfLines_cases {lines : List (Nat × Equation)}
    (hlines : ∀ p ∈ lines, p.2.expr.WellShaped) :
    (∃ net, netlistOfLines s lines = .ok net ∧ net.Consistent) ∨
      ∃ index line cause, FirstUnmapped s lines index line cause ∧
        netlistOfLines s lines = .error (.synthesis line cause) ∧
        buildNetlist s (lines.map Prod.snd) = .error (.synthesis cause) := by
  rw [netlistOfLines, buildNetlist, List.map_map]
  rcases addLines_cases (s := s) (NetlistBuilder.announce_ready _) 0 hlines with
    ⟨b, hadd, hadvances⟩ | ⟨index, line, cause, hfirst, hadd, hadd'⟩
  · obtain ⟨net, hfinish, hconsistent⟩ := hadvances.ready.finish
    refine .inl ⟨net, ?_, hconsistent⟩
    rw [hadd, Except.ok_bind, hfinish]
    rfl
  · refine .inr ⟨index, line, cause, hfirst, ?_, ?_⟩
    · rw [hadd]
      rfl
    · exact Except.bind_eq_error_iff.mpr (.inl hadd')

end LogicSchematic
