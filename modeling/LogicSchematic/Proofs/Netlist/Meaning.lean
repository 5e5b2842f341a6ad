import LogicSchematic.Proofs.Netlist.Builder
import LogicSchematic.Proofs.Simulation
import LogicSchematic.Proofs.Simulation.Rounds
import LogicSchematic.Proofs.Synthesis.Circuit

/-!
# The meaning of netlists

A netlist that realizes a circuit carries the circuit's word: whatever words its nodes carry, the
node of the root carries what the circuit computes from the words of the inputs
(`Realizes.eval_eq_ok`). So a netlist that implements equations can be simulated on any words for
its inputs, and every output yields the word of its equation (`Implements.exists_simulate`).
-/

namespace LogicSchematic

namespace Netlist

variable {net : Netlist} {given : List (NodeId × UInt64)} {words : Array UInt64}
  {inputs : List (String × NodeId)} {values : Valuation} {ids : Array NodeId}

/-! ## Circuits -/

/-- Whether the words of a circuit's first gates are those that the nodes of these gates carry. -/
def Agree (words : Array UInt64) (ids : Array NodeId) (ws : Array UInt64) : Prop :=
  ∀ (i : Nat) (w : UInt64), ws[i]? = some w → ∃ id, ids[i]? = some id ∧ words[id]? = some w

/-- The valuation under which names have the words that their input nodes carry. -/
def Binds (words : Array UInt64) (inputs : List (String × NodeId)) (values : Valuation) : Prop :=
  ∀ name id, inputs.lookup name = some id → ∃ w, words[id]? = some w ∧ values name = some w

theorem operandWord_of_at (hvalues : Binds words inputs values) {ws : Array UInt64}
    (hws : Agree words ids ws) {x : Operand} {id : NodeId} {v : UInt64} (hx : x.Below ws.size)
    (hat : x.At inputs ids id) (hv : words[id]? = some v) :
    Mapping.operandWord values ws x = .ok v := by
  cases x with
  | var name =>
    obtain ⟨w, hw, hvalue⟩ := hvalues name id hat
    cases hv.symm.trans hw
    rw [Mapping.operandWord, Valuation.get, hvalue]
  | gate index =>
    have hlt : index < ws.size := hx
    obtain ⟨id', hid, hw⟩ := hws index ws[index] (Array.getElem?_eq_getElem hlt)
    cases hid.symm.trans hat
    cases hv.symm.trans hw
    rw [Mapping.operandWord, Array.getElem?_eq_getElem hlt]

/-- Gate after gate, a circuit finds the words that the nodes of its gates carry. -/
theorem gateWords_of_carries (hnet : net.Carries given words)
    (hvalues : Binds words inputs values) {ws : Array UInt64} (hws : Agree words ids ws)
    {gs : List MappedGate} (hord : Mapping.OrderedFrom ws.size gs)
    (hgates : ∀ (i : Nat) (g : MappedGate), gs[i]? = some g → ∃ id n,
      ids[ws.size + i]? = some id ∧ net.nodes[id]? = some n ∧ n.kind = .gate g.gate ∧
      List.Forall₂ (Operand.At inputs ids) g.operands n.children) :
    ∃ ws', Mapping.gateWords values ws gs = .ok ws' ∧ ws'.size = ws.size + gs.length ∧
      Agree words ids ws' := by
  induction gs generalizing ws with
  | nil => exact ⟨ws, rfl, rfl, hws⟩
  | cons g gs ih =>
    obtain ⟨hbelow, hord⟩ := hord
    obtain ⟨id, n, hid, hn, hkind, hchildren⟩ := hgates 0 g rfl
    obtain ⟨w, hw, hnode⟩ := hnet id n hn
    rw [hkind] at hnode
    obtain ⟨vs, hvs, heval⟩ := hnode
    -- the drivers of the node are the nodes of the operands, with the words of these
    have hoperands : g.operands.mapM (Mapping.operandWord values ws) = .ok vs := by
      refine Except.mapM_eq_ok_iff.mpr ?_
      refine forall₂_compose ((List.forall₂_and_left _ _).mpr ⟨hbelow, hchildren⟩) hvs ?_
      exact fun x child v hx hv => operandWord_of_at hvalues hws hx.1 hx.2 hv
    have hgate : Mapping.gateWord values ws g = .ok w := by
      rw [Mapping.gateWord, hoperands, Except.ok_bind, Gate.eval, heval]
    have hpush : Agree words ids (ws.push w) := by
      intro i v hv
      rw [Array.getElem?_push] at hv
      split at hv
      next hi =>
        cases hv
        exact ⟨id, hi ▸ hid, hw⟩
      next => exact hws i v hv
    obtain ⟨ws', hrun, hsize, hagree⟩ := ih hpush (by rwa [Array.size_push]) fun i k hk => by
      have := hgates (i + 1) k hk
      rwa [Array.size_push, Nat.add_assoc, Nat.add_comm 1 i]
    refine ⟨ws', ?_, ?_, hagree⟩
    · rw [Mapping.gateWords, hgate]
      exact hrun
    · rw [hsize, Array.size_push, List.length_cons]
      omega

/-- The node of a circuit's root carries the word of the circuit. -/
theorem Realizes.eval_eq_ok {m : Mapping} {root : NodeId} (h : net.Realizes inputs m root)
    (hm : m.WellFormed) (hnet : net.Carries given words) (hvalues : Binds words inputs values)
    {w : UInt64} (hw : words[root]? = some w) : m.eval values = .ok w := by
  obtain ⟨ids, hgates, hroot⟩ := h
  have hstart : Agree words ids #[] := fun i v hv => by simp at hv
  obtain ⟨ws, hrun, hsize, hagree⟩ := gateWords_of_carries hnet hvalues hstart hm.ordered
    fun i g hg => by simpa using hgates i g hg
  rw [Array.size_empty, Nat.zero_add] at hsize
  rw [Mapping.eval, hrun]
  exact operandWord_of_at hvalues hagree (hsize ▸ hm.root_below) hroot hw

/-! ## Equations -/

variable {s : Synthesizer} {K : Gate → Prop} {equations : List Equation}

theorem Implements.inputLabels_eq (h : net.Implements s K equations inputs) :
    net.inputLabels = inputs.map Prod.fst := by
  rw [inputLabels, h.inputs_eq, List.map_map]
  refine List.map_congr_left fun p hp => ?_
  obtain ⟨n, hn, -, hlabel⟩ := h.input_node p.1 p.2 hp
  simp [hn, hlabel]

theorem Implements.size_inputs (h : net.Implements s K equations inputs) :
    net.inputs.size = inputs.length := by
  rw [← Array.length_toList, h.inputs_eq, List.length_map]

/-- Simulated words bind the names of the inputs to the words they were given. -/
theorem Implements.binds (h : net.Implements s K equations inputs) {given : List UInt64}
    (hlen : given.length = net.inputs.size)
    (hnet : net.Carries (net.inputs.toList.zip given) words) :
    Binds words inputs (bindWords net.inputLabels given) := by
  rw [h.size_inputs] at hlen
  intro name id hlookup
  have hmem : (name, id) ∈ inputs := by
    obtain ⟨l, l', hlist, -⟩ := List.lookup_eq_some_iff.mp hlookup
    rw [hlist]
    simp
  -- the name stands at one place of the list, where its node stands and its word is given
  obtain ⟨i, hi, hpair⟩ := List.getElem_of_mem hmem
  have hgiven : given[i]? = some given[i] := List.getElem?_eq_getElem (by omega)
  have hpair : inputs[i]? = some (name, id) := hpair ▸ List.getElem?_eq_getElem hi
  obtain ⟨n, hn, hkind, -⟩ := h.input_node name id hmem
  obtain ⟨w, hw, hnode⟩ := hnet id n hn
  rw [hkind] at hnode
  have hfound : (net.inputs.toList.zip given).lookup id = some given[i] := by
    rw [h.inputs_eq]
    refine lookup_of_mem ?_ (mem_zip_of_getElem? ?_ hgiven)
    · rw [List.map_fst_zip (by rw [List.length_map]; omega)]
      exact h.ids_nodup
    · rw [List.getElem?_map, hpair]
      rfl
  refine ⟨w, hw, ?_⟩
  rw [show w = given[i] by rw [hnode, hfound]; rfl, h.inputLabels_eq]
  refine bindWords_eq_some h.names_nodup (by rw [List.length_map]; exact hlen) ?_ hgiven
  rw [List.getElem?_map, hpair]
  rfl

/-- On any words for its inputs, every output of a netlist of equations yields the word of its
equation. -/
theorem Implements.exists_simulate (h : net.Implements s K equations inputs)
    (hproper : ∀ e ∈ equations, e.expr.Proper) {given : List UInt64}
    (hlen : given.length = net.inputs.size) :
    ∃ outs, net.simulate given = .ok outs ∧ List.Forall₂
      (fun e w => e.expr.eval (bindWords net.inputLabels given) = .ok w) equations outs := by
  have hout : ∀ id ∈ net.outputs.toList, id < net.nodes.size := by
    intro id hid
    obtain ⟨i, hi, rfl⟩ := List.getElem_of_mem hid
    obtain ⟨_, _, _, _, n, hn, -⟩ := h.outputs.get (by rw [h.outputs.length_eq]; exact hi) hi
    exact (Array.getElem?_eq_some_iff.mp hn).1
  obtain ⟨words, outs, hnet, hrun, houts⟩ := Netlist.exists_simulate h.consistent hout hlen
  have hvalues := h.binds hlen hnet
  have hboth := (List.forall₂_and_left _ _).mpr ⟨hproper, h.outputs⟩
  refine ⟨outs, hrun, forall₂_compose hboth houts ?_⟩
  rintro e id w ⟨he, m, root, hm, hrealizes, n, hn, hkind, hchildren, -⟩ hw
  -- the output carries the word of its driver, which is the node of the circuit's root
  obtain ⟨v, hv, hnode⟩ := hnet id n hn
  cases hw.symm.trans hv
  rw [hkind] at hnode
  obtain ⟨child, hchild, hroot⟩ := hnode
  rw [hchildren] at hchild
  cases hchild
  have hflat := Expr.flatten_proper he
  have hwf := Synthesizer.wellFormed_of_synthesize hflat hm
  rw [← Expr.flatten_equiv e.expr _, ← Synthesizer.eval_of_synthesize hflat hm]
  exact hrealizes.eval_eq_ok hwf hnet hvalues hroot

end Netlist

end LogicSchematic
