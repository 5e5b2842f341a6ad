import LogicSchematic.Proofs.Netlist.Building
import Mathlib.Data.List.Nodup

/-!
# Building in place

A builder that is changed in place keeps what a step did before it failed: the step leaves a builder
behind either way (`InPlace`). Every step of building has its form in place, which `Performs` the
step on builders: the outcome is the same, and so is the builder after a success. What is left after
a failure is where the two differ, and what is at stake when equations are added in place.

An equation that fails leaves the builder as it was: a ready builder takes in every circuit that is
found, and before one is found nothing is changed (`addEquationInPlace_cases`). Any sequence of
calls therefore comes to what its succeeding calls alone come to, and the builder can be finished;
its inputs are known by their labels (`callAll_atomic`).
-/

namespace LogicSchematic

/-- A step that changes a builder in place and may fail. -/
abbrev InPlace (ε : Type) := ExceptT ε (StateM NetlistBuilder)

namespace InPlace

variable {ε ε' α β : Type}

/-- The outcome of a step, and the builder that it leaves behind. -/
def outcome (p : InPlace ε α) (b : NetlistBuilder) : Except ε α × NetlistBuilder := p.run b

/-- Whether a step in place does what a step on builders does, but for what a failure leaves. -/
structure Performs (p : InPlace ε α) (f : NetlistBuilder → Except ε (α × NetlistBuilder)) :
    Prop where
  ok : ∀ b a c, f b = .ok (a, c) → p.outcome b = (.ok a, c)
  error : ∀ b e, f b = .error e → (p.outcome b).1 = .error e

theorem outcome_bind (p : InPlace ε α) (q : α → InPlace ε β) (b : NetlistBuilder) :
    (p >>= q).outcome b = match p.outcome b with
      | (.ok a, c) => (q a).outcome c
      | (.error e, c) => (.error e, c) := by
  show (ExceptT.bindCont q (p b).1 (p b).2 : Except ε β × NetlistBuilder) = _
  rw [outcome, ExceptT.run]
  rcases p b with ⟨_ | _, c⟩ <;> rfl

theorem Performs.congr {p : InPlace ε α} {f f' : NetlistBuilder → Except ε (α × NetlistBuilder)}
    (h : p.Performs f) (heq : ∀ b, f' b = f b) : p.Performs f' := by
  rwa [funext heq]

theorem Performs.bind {p : InPlace ε α} {f : NetlistBuilder → Except ε (α × NetlistBuilder)}
    {q : α → InPlace ε β} {g : α → NetlistBuilder → Except ε (β × NetlistBuilder)}
    (hp : p.Performs f) (hq : ∀ a, (q a).Performs (g a)) :
    (p >>= q).Performs fun b => f b >>= fun r => g r.1 r.2 := by
  constructor
  · intro b x d h
    obtain ⟨⟨a, c⟩, hf, hg⟩ := Except.bind_eq_ok_iff.mp h
    rw [outcome_bind, hp.ok b a c hf]
    exact (hq a).ok c x d hg
  · intro b e h
    rw [outcome_bind]
    rcases Except.bind_eq_error_iff.mp h with hf | ⟨⟨a, c⟩, hf, hg⟩
    · -- the second step is not begun, whatever the first one left
      have hfst := hp.error b e hf
      rcases hb : p.outcome b with ⟨x, c⟩
      rw [hb] at hfst
      cases (show x = .error e from hfst)
      rfl
    · rw [hp.ok b a c hf]
      exact (hq a).error c e hg

/-- A change that cannot fail. -/
theorem performs_modifyGet (f : NetlistBuilder → α × NetlistBuilder) :
    (modifyGet f : InPlace ε α).Performs fun b => .ok (f b) := by
  constructor
  · intro b a c h
    show (Except.ok (f b).1, (f b).2) = (.ok a, c)
    rw [Except.ok.inj h]
  · exact fun b e h => nomatch h

theorem performs_pure (a : α) : (pure a : InPlace ε α).Performs fun b => .ok (a, b) :=
  performs_modifyGet fun b => (a, b)

/-- What does not depend on the builder, and leaves it. -/
theorem performs_liftM (x : Except ε α) :
    (liftM x : InPlace ε α).Performs fun b => x.map fun a => (a, b) := by
  cases x with
  | ok a => exact performs_pure a
  | error e =>
    constructor
    · exact fun b a c h => nomatch h
    · intro b e' h
      cases h
      rfl

theorem Performs.adapt {p : InPlace ε α} {f : NetlistBuilder → Except ε (α × NetlistBuilder)}
    (h : p.Performs f) (k : ε → ε') :
    Performs (ExceptT.adapt k p) fun b => (f b).mapError k := by
  have houtcome : ∀ b, outcome (ExceptT.adapt k p) b =
      ((p.outcome b).1.mapError k, (p.outcome b).2) := fun _ => rfl
  constructor
  · intro b a c hb
    rw [houtcome, h.ok b a c (Except.mapError_eq_ok_iff.mp hb)]
    rfl
  · intro b e hb
    rw [houtcome]
    cases hf : f b with
    | ok r =>
      rw [hf] at hb
      cases hb
    | error e' =>
      rw [hf] at hb
      cases hb
      rw [h.error b e' hf]
      rfl

end InPlace

/-! ## The steps of building -/

namespace NetlistBuilder

open InPlace

/-- The input node of a name, made in place if it is not there yet. -/
def internInPlace (name : String) : InPlace NetlistFault NodeId := modifyGet (·.intern name)

/-- The node of an operand. -/
def resolveInPlace (ids : Array NodeId) : Operand → InPlace NetlistFault NodeId
  | .var name => internInPlace name
  | .gate index =>
    match ids[index]? with
    | some id => pure id
    | none => throw (.unknownNode index)

/-- The nodes of several operands, in order. -/
def resolveAllInPlace (ids : Array NodeId) : List Operand → InPlace NetlistFault (List NodeId)
  | [] => pure []
  | x :: xs => do
    let id ← resolveInPlace ids x
    let rest ← resolveAllInPlace ids xs
    return id :: rest

/-- Adds a gate to the netlist. -/
def addGateInPlace (g : Gate) (children : List NodeId) (group : Nat) :
    InPlace NetlistFault NodeId := do
  let b ← get
  let (id, netlist) ← b.netlist.addGate (.gate g) children group
  set { b with netlist }
  return id

/-- Adds the gates of a circuit, whose first gates have the nodes `ids`. -/
def addGatesInPlace (group : Nat) (ids : Array NodeId) :
    List MappedGate → InPlace NetlistFault (Array NodeId)
  | [] => pure ids
  | g :: gs => do
    let children ← resolveAllInPlace ids g.operands
    let id ← addGateInPlace g.gate children group
    addGatesInPlace group (ids.push id) gs

/-- Adds the gates of a circuit and gives the node of its root. -/
def addMappingInPlace (group : Nat) (m : Mapping) : InPlace NetlistFault NodeId := do
  let ids ← addGatesInPlace group #[] m.gates
  resolveInPlace ids m.root

/-- Puts an output last among those to come. -/
def pendInPlace (o : PendingOutput) : InPlace BuildError Unit :=
  modify fun b => { b with roots := b.roots ++ [o] }

/-- Adds the circuit of an equation and gives the node that drives its output. -/
def addEquationInPlace (s : Synthesizer) (e : Equation) (group : Nat) :
    InPlace BuildError NodeId := do
  let m ← (s.synthesize e.expr.flatten).mapError BuildError.synthesis
  let root ← (addMappingInPlace group m).adapt BuildError.fault
  pendInPlace ⟨root, e.label, group⟩
  return root

theorem resolveInPlace_performs (ids : Array NodeId) (x : Operand) :
    (resolveInPlace ids x).Performs fun b => b.resolve ids x := by
  cases x with
  | var name => exact performs_modifyGet (·.intern name)
  | gate index =>
    simp only [resolveInPlace, resolve]
    cases ids[index]? with
    | some id => exact performs_pure id
    | none => exact performs_liftM (.error (NetlistFault.unknownNode index))

theorem resolveAllInPlace_performs (ids : Array NodeId) (xs : List Operand) :
    (resolveAllInPlace ids xs).Performs fun b => b.resolveAll ids xs := by
  induction xs with
  | nil => exact performs_pure []
  | cons x xs ih =>
    exact (resolveInPlace_performs ids x).bind fun id => ih.bind fun rest =>
      performs_pure (id :: rest)

theorem addGateInPlace_performs (g : Gate) (children : List NodeId) (group : Nat) :
    (addGateInPlace g children group).Performs fun b =>
      (b.netlist.addGate (.gate g) children group).map fun (id, netlist) =>
        (id, { b with netlist }) := by
  refine ((performs_modifyGet fun b => (b, b)).bind fun b =>
    (performs_liftM (b.netlist.addGate (.gate g) children group)).bind fun r =>
      (performs_modifyGet fun _ => ((), { b with netlist := r.2 })).bind fun _ =>
        performs_pure r.1).congr fun b => ?_
  rw [Except.ok_bind]
  cases b.netlist.addGate (.gate g) children group <;> rfl

theorem addGatesInPlace_performs (group : Nat) (ids : Array NodeId) (gs : List MappedGate) :
    (addGatesInPlace group ids gs).Performs fun b => b.addGates group ids gs := by
  induction gs generalizing ids with
  | nil => exact performs_pure ids
  | cons g gs ih =>
    refine ((resolveAllInPlace_performs ids g.operands).bind fun children =>
      (addGateInPlace_performs g.gate children group).bind fun id => ih (ids.push id)).congr ?_
    intro b
    rw [addGates]
    refine bind_congr fun r => ?_
    obtain ⟨children, c⟩ := r
    cases hadd : c.netlist.addGate (.gate g.gate) children group <;> simp only [hadd] <;> rfl

theorem addMappingInPlace_performs (group : Nat) (m : Mapping) :
    (addMappingInPlace group m).Performs fun b => b.addMapping group m :=
  (addGatesInPlace_performs group #[] m.gates).bind fun ids => resolveInPlace_performs ids m.root

theorem pendInPlace_performs (o : PendingOutput) :
    (pendInPlace o).Performs fun b => .ok ((), { b with roots := b.roots ++ [o] }) :=
  performs_modifyGet fun b => ((), { b with roots := b.roots ++ [o] })

/-- Adding an equation in place is adding it to a builder, but for what a failure leaves. -/
theorem addEquationInPlace_performs (s : Synthesizer) (e : Equation) (group : Nat) :
    (addEquationInPlace s e group).Performs fun b => b.addEquation s e group := by
  refine ((performs_liftM ((s.synthesize e.expr.flatten).mapError BuildError.synthesis)).bind
    fun m => ((addMappingInPlace_performs group m).adapt BuildError.fault).bind fun root =>
      (pendInPlace_performs ⟨root, e.label, group⟩).bind fun _ => performs_pure root).congr ?_
  intro b
  rw [addEquation]
  cases s.synthesize e.expr.flatten with
  | error cause => rfl
  | ok m => rfl

/-- A call in place adds its equation, or it has no circuit and the builder is left as it was. -/
theorem addEquationInPlace_cases {b : NetlistBuilder} (h : b.Ready) {e : Equation}
    (he : e.expr.WellShaped) (s : Synthesizer) (group : Nat) :
    (∃ root c, (addEquationInPlace s e group).outcome b = (.ok root, c) ∧
      b.addEquation s e group = .ok (root, c) ∧ b.Advances c) ∨
    ∃ cause, s.synthesize e.expr.flatten = .error cause ∧
      (addEquationInPlace s e group).outcome b = (.error (.synthesis cause), b) := by
  rcases addEquation_cases (s := s) h he group with
    ⟨root, c, hadd, hadvances, -⟩ | ⟨cause, hcause, -⟩
  · exact .inl ⟨root, c, (addEquationInPlace_performs s e group).ok b root c hadd, hadd, hadvances⟩
  · -- the circuit is looked for before anything is changed
    refine .inr ⟨cause, hcause, ?_⟩
    rw [addEquationInPlace, hcause]
    rfl

/-! ## Calls in turn -/

/-- A call that adds an equation under a group number. -/
structure Call where
  equation : Equation
  group : Nat

/-- What the call does. -/
def Call.make (s : Synthesizer) (call : Call) : InPlace BuildError NodeId :=
  addEquationInPlace s call.equation call.group

/-- The outcomes of calls that are made in turn, whatever becomes of each, and the builder in the
end. -/
def callAll (s : Synthesizer) (b : NetlistBuilder) :
    List Call → List (Except BuildError NodeId) × NetlistBuilder
  | [] => ([], b)
  | call :: calls =>
    -- the next call finds what this one left, also where this one failed
    let (result, c) := (call.make s).outcome b
    let (results, d) := callAll s c calls
    (result :: results, d)

/-- The calls among these that succeeded. -/
def succeeded (calls : List Call) (results : List (Except BuildError NodeId)) : List Call :=
  ((calls.zip results).filter fun p => p.2.isOk).map Prod.fst

variable {b c d : NetlistBuilder} {s : Synthesizer} {calls : List Call}

theorem callAll_cons {call : Call} {result : Except BuildError NodeId}
    {results : List (Except BuildError NodeId)} (hmake : (call.make s).outcome b = (result, c))
    (hrest : callAll s c calls = (results, d)) :
    callAll s b (call :: calls) = (result :: results, d) := by
  rw [callAll, hmake]
  dsimp only
  rw [hrest]

/-- Calls in turn keep a builder ready and sound, and those that succeed come to the same builder by
themselves. -/
theorem callAll_keeps (h : b.Ready) (hsound : b.Sound fun _ => True)
    (hcalls : ∀ call ∈ calls, call.equation.expr.WellShaped) :
    ∃ results c, callAll s b calls = (results, c) ∧ c.Ready ∧ c.Sound (fun _ => True) ∧
      callAll s b (succeeded calls results) = (results.filter Except.isOk, c) := by
  induction calls generalizing b with
  | nil => exact ⟨[], b, rfl, h, hsound, rfl⟩
  | cons call calls ih =>
    rw [List.forall_mem_cons] at hcalls
    obtain ⟨hcall, hcalls⟩ := hcalls
    rcases addEquationInPlace_cases h hcall s call.group with
      ⟨root, c, hmake, hadd, hadvances⟩ | ⟨cause, -, hmake⟩
    · have hsound' := (addEquation_realizes hsound (fun _ _ _ _ => trivial) hadd).1
      obtain ⟨results, d, hrest, hready, hsound, hsucceeded⟩ := ih hadvances.ready hsound' hcalls
      exact ⟨.ok root :: results, d, callAll_cons hmake hrest, hready, hsound,
        callAll_cons hmake hsucceeded⟩
    · -- a call that fails is left out, and the next one finds the same builder
      obtain ⟨results, d, hrest, hready, hsound, hsucceeded⟩ := ih h hsound hcalls
      exact ⟨.error (.synthesis cause) :: results, d, callAll_cons hmake hrest, hready, hsound,
        hsucceeded⟩

/-- No two inputs of a finished netlist have the same label. -/
theorem Sound.eq_of_label {K : Gate → Prop} {net : Netlist} (h : b.Sound K)
    (hfinish : b.finish = .ok net) {id id' : NodeId} {n n' : Node}
    (hn : net.nodes[id]? = some n) (hn' : net.nodes[id']? = some n') (hkind : n.kind = .input)
    (hkind' : n'.kind = .input) (hlabel : n.label = n'.label) : id = id' := by
  obtain ⟨hlisted, hinputs, hnode⟩ := h.finish_inputs hfinish
  obtain ⟨name, hmem, hlabel₁⟩ := hlisted.exists_name hinputs hnode hn hkind
  obtain ⟨name', hmem', hlabel₂⟩ := hlisted.exists_name hinputs hnode hn' hkind'
  rw [hlabel₁, hlabel₂] at hlabel
  cases hlabel
  exact congrArg Prod.snd (List.inj_on_of_nodup_map h.names_nodup hmem hmem' rfl)

/-- Adding equations in place is all or nothing. Whatever expressions were announced and whatever
calls are made, a call that fails has no circuit and leaves the builder as it was; so the calls that
succeed come to the same builder by themselves. The builder can be finished, and no two inputs of
the netlist have the same label. -/
theorem callAll_atomic (s : Synthesizer) (exprs : List Expr)
    (h : ∀ call ∈ calls, call.equation.expr.WellShaped) :
    ∃ results b net, callAll s (announce exprs) calls = (results, b) ∧ b.finish = .ok net ∧
      (∀ before call after, calls = before ++ call :: after →
        ∀ results b error c, callAll s (announce exprs) before = (results, b) →
          (call.make s).outcome b = (.error error, c) → c = b ∧ ∃ cause,
            error = .synthesis cause ∧ s.synthesize call.equation.expr.flatten = .error cause) ∧
      callAll s (announce exprs) (succeeded calls results) = (results.filter Except.isOk, b) ∧
      ∀ (id id' : NodeId) (n n' : Node), net.nodes[id]? = some n → net.nodes[id']? = some n' →
        n.kind = .input → n'.kind = .input → n.label = n'.label → id = id' := by
  have hready := announce_ready exprs
  have hsound := (announce_keeps (fun _ => True) exprs).1
  obtain ⟨results, b, hall, hready', hsound', hsucceeded⟩ := callAll_keeps (s := s) hready hsound h
  obtain ⟨net, hfinish, -⟩ := hready'.finish
  refine ⟨results, b, net, hall, hfinish, ?_, hsucceeded,
    fun id id' n n' => hsound'.eq_of_label hfinish⟩
  -- the calls before this one left a ready builder, so it can only fail for want of a circuit
  rintro before call after rfl results b error c hbefore hmake
  rw [List.forall_mem_append, List.forall_mem_cons] at h
  obtain ⟨_, _, hbefore', hready'', -⟩ := callAll_keeps (s := s) hready hsound h.1
  cases hbefore.symm.trans hbefore'
  rcases addEquationInPlace_cases hready'' h.2.1 s call.group with
    ⟨root, c, hok, -⟩ | ⟨cause, hcause, herror⟩
  · cases hmake.symm.trans hok
  · cases hmake.symm.trans herror
    exact ⟨rfl, cause, rfl, hcause⟩

/-- A call fails between two that succeed, the first of which brings in an input that was not
announced. -/
theorem callAll_atomic_late :
    let s : Synthesizer := ⟨.ofList [.nand], 30⟩
    let conjunction : Call := ⟨⟨"Y", .gate .and [.var "A", .var "B"]⟩, 7⟩
    let selection : Call := ⟨⟨"X", .op (.call "MUX") [.var "C"]⟩, 7⟩
    let inverse : Call := ⟨⟨"Z", .gate .not [.var "B"]⟩, 2⟩
    ∃ results b net,
      callAll s (announce [.var "A"]) [conjunction, selection, inverse] = (results, b) ∧
      results.map Except.isOk = [true, false, true] ∧ b.finish = .ok net ∧
      callAll s (announce [.var "A"]) [conjunction, inverse] = (results.filter Except.isOk, b) := by
  intro s conjunction selection inverse
  have hshape : ∀ call ∈ [conjunction, selection, inverse], call.equation.expr.WellShaped := by
    decide
  obtain ⟨results, b, net, hall, hfinish, -, hsucceeded, -⟩ :=
    callAll_atomic s [.var "A"] hshape
  cases hall
  exact ⟨_, _, net, rfl, rfl, hfinish, hsucceeded⟩

end NetlistBuilder

end LogicSchematic
