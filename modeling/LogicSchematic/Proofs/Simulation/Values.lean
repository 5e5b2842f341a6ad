import LogicSchematic.Proofs.Netlist.Built
import LogicSchematic.Proofs.Netlist.Consistency
import LogicSchematic.Proofs.Netlist.Meaning
import LogicSchematic.Proofs.Simulation.Bits
import LogicSchematic.Proofs.Synthesis.Circuit

/-!
# Truth values of circuits and netlists

The truth value of a gate of a circuit, and of a node of a netlist, by recursion on what it reads
(`Mapping.value`, `Netlist.value`). Beside `Expr.value` these say what the three evaluators on words
compute: each bit of the word of an expression, of a circuit and of an output is the truth value for
the bits at this place (`bits_of_words`).

A circuit in order has the value of the expression it unfolds to (`WellFormed.value_unfold`), so
what is known of the words of expressions carries over. Words that the nodes of a netlist carry are
found in one pass, but all that is used of them is that each is what its node makes of the words of
its drivers; since these come before the node, the values follow by induction (`Carries.value_eq`).
-/

namespace LogicSchematic

/-! ## Circuits -/

namespace Mapping

variable {m : Mapping} {gs : List MappedGate} {assignment : Assignment}

/-- The truth value of a gate, from those of the gates it reads, which come before it. -/
def gateValue (gs : List MappedGate) (assignment : Assignment) (index : Nat) : Option Bool := do
  let g ← gs[index]?
  let bs ← g.operands.mapM fun x =>
    match x with
    | .var name => assignment name
    -- in a circuit in order, no gate reads a later one
    | .gate i => if _h : i < index then gateValue gs assignment i else none
  g.gate.value? bs
termination_by index

/-- The truth value of a circuit. -/
def value (assignment : Assignment) (m : Mapping) : Option Bool :=
  match m.root with
  | .var name => assignment name
  | .gate index => gateValue m.gates assignment index

/-- A gate of a circuit in order has the value of its expression. -/
theorem gateValue_eq (hord : OrderedFrom 0 gs) {i : Nat} (hi : i < gs.length) :
    gateValue gs assignment i = (operandExpr (gateExprs #[] gs) (.gate i)).value assignment := by
  induction i using Nat.strongRecOn with
  | ind i ih =>
    have hg : gs[i]? = some gs[i] := List.getElem?_eq_getElem hi
    have hbelow := below_of_mem hord hg
    have hoperands : gs[i].operands.mapM (fun x =>
        match x with
        | .var name => assignment name
        | .gate k => if _h : k < i then gateValue gs assignment k else none) =
        gs[i].operands.mapM fun x => (operandExpr (gateExprs #[] gs) x).value assignment := by
      refine Option.mapM_congr fun x hx => ?_
      cases x with
      | var name => rfl
      | gate k =>
        have hk : k < i := hbelow _ hx
        dsimp only
        rw [dif_pos hk]
        exact ih k hk (Nat.lt_trans hk hi)
    rw [gateValue, hg, Option.bind_eq_bind, Option.bind_some, hoperands]
    rw [operandExpr_gate hord hg, Expr.gate, Expr.value, Expr.valueAll_eq_mapM, List.mapM_map]
    rfl

/-- A well-formed circuit has the value of the expression it unfolds to. -/
theorem WellFormed.value_unfold (h : m.WellFormed) (assignment : Assignment) :
    m.value assignment = m.unfold.value assignment := by
  have hroot := h.root_below
  rw [value, unfold]
  cases hm : m.root with
  | var name => rfl
  | gate index =>
    rw [hm] at hroot
    exact gateValue_eq h.ordered hroot

/-- Every bit of the word of a circuit is its truth value for the bits at this place. -/
theorem WellFormed.value_bitAt (h : m.WellFormed) (values : Valuation) {j : Nat} (hj : j < 64) :
    m.value (values.bits j) = (m.eval values).toOption.map (bitAt · j) := by
  rw [h.value_unfold, h.eval_eq, Expr.value_bitAt values hj]

end Mapping

/-! ## Netlists -/

namespace Netlist

variable {net : Netlist} {id : NodeId} {n : Node}

/-- The truth value of a node, from those of the nodes that drive it, which come before it. The
inputs have the truth values `bits`, in order. -/
def value (net : Netlist) (bits : List Bool) (id : NodeId) : Option Bool := do
  let n ← net.nodes[id]?
  match n.kind with
  | .input => bits[net.inputs.toList.idxOf id]?
  | .output => do
    let child ← n.children.head?
    if _h : child < id then value net bits child else none
  | .gate g => do
    let bs ← n.children.mapM fun child => if _h : child < id then value net bits child else none
    g.value? bs
termination_by id

/-- Every bit of the word that a node carries is its truth value for the bits at this place. -/
theorem Carries.value_eq {ws : List UInt64} {words : Array UInt64}
    (h : net.Carries (net.inputs.toList.zip ws) words) (hfirst : net.DriversFirst)
    (hlisted : net.Listed) (hlen : ws.length = net.inputs.size) {j : Nat} (hj : j < 64)
    (hn : net.nodes[id]? = some n) :
    ∃ w, words[id]? = some w ∧ net.value (ws.map (bitAt · j)) id = some (bitAt w j) := by
  induction id using Nat.strongRecOn generalizing n with
  | ind id ih =>
    obtain ⟨w, hw, hnode⟩ := h id n hn
    -- drivers are nodes before this one
    have hdriver : ∀ child ∈ n.children, ∀ v, words[child]? = some v →
        (if _h : child < id then net.value (ws.map (bitAt · j)) child else none) =
          some (bitAt v j) := by
      intro child hchild v hv
      have hlt := hfirst id n hn child hchild
      have hsize := (Array.getElem?_eq_some_iff.mp hn).1
      obtain ⟨v', hv', hvalue⟩ :=
        ih child hlt (Array.getElem?_eq_getElem (Nat.lt_trans hlt hsize))
      cases hv.symm.trans hv'
      rw [dif_pos hlt, hvalue]
    refine ⟨w, hw, ?_⟩
    rw [value, hn, Option.bind_eq_bind, Option.bind_some]
    cases hkind : n.kind with
    | input =>
      rw [hkind] at hnode
      have hid : id ∈ net.inputs.toList :=
        Array.mem_toList_iff.mpr ((hlisted.mem_inputs_iff hn).mpr hkind)
      have hindex : net.inputs.toList.idxOf id < ws.length := by
        rw [hlen, ← Array.length_toList]
        exact List.idxOf_lt_length_of_mem hid
      dsimp only at hnode ⊢
      rw [lookup_zip hid, List.getElem?_eq_getElem hindex] at hnode
      rw [List.getElem?_map, List.getElem?_eq_getElem hindex, hnode]
      rfl
    | output =>
      rw [hkind] at hnode
      obtain ⟨child, hhead, hv⟩ := hnode
      dsimp only
      rw [hhead]
      exact hdriver child (List.mem_of_head? hhead) w hv
    | gate g =>
      rw [hkind] at hnode
      obtain ⟨vs, hvs, heval⟩ := hnode
      have hbits : n.children.mapM (fun child =>
          if _h : child < id then net.value (ws.map (bitAt · j)) child else none) =
          some (vs.map (bitAt · j)) := by
        refine Option.mapM_eq_some_iff.mpr (List.forall₂_map_right_iff.mpr ?_)
        exact hvs.imp_of_mem hdriver
      dsimp only
      rw [hbits, Option.bind_eq_bind, Option.bind_some, Gate.value?_bitAt g vs hj, heval]
      rfl

/-- The outputs have the truth values that are the bits of their words. -/
theorem Sequential.value_outputs (h : net.Sequential) (hlisted : net.Listed) {ws : List UInt64}
    (hlen : ws.length = net.inputs.size) :
    ∃ outs, net.simulate ws = .ok outs ∧ ∀ j < 64,
      net.outputs.toList.mapM (net.value (ws.map (bitAt · j))) = some (outs.map (bitAt · j)) := by
  obtain ⟨words, outs, hcarries, hsimulate, houts⟩ := h.exists_simulate hlen
  refine ⟨outs, hsimulate, fun j hj => ?_⟩
  refine Option.mapM_eq_some_iff.mpr (List.forall₂_map_right_iff.mpr ?_)
  refine houts.imp_of_mem fun id hid w hw => ?_
  obtain ⟨v, hv, hvalue⟩ :=
    hcarries.value_eq h.first hlisted hlen hj (Array.getElem?_eq_getElem (h.output_lt id hid))
  cases hw.symm.trans hv
  exact hvalue

/-- A built netlist is sequential if its gates have drivers. -/
theorem Built.sequential (h : net.Built)
    (hgates : ∀ n ∈ net.nodes, n.kind ≠ .input → n.children ≠ []) : net.Sequential :=
  ⟨h.driversFirst, hgates, fun _ => h.listed.lt_size_of_mem_outputs⟩

end Netlist

/-- Words are 64 truth values side by side, whichever evaluator finds them: of an expression of
gates over operands, of the circuit synthesized for one, and of a netlist built of gates that have
drivers. Each bit is the truth value for the bits of the inputs at this place, and a word is there
as soon as the inputs have words. -/
theorem bits_of_words :
    (∀ (e : Expr) (values : Valuation), e.Proper → e.CallFree →
      ((∃ w, e.eval values = .ok w) ↔ ∀ name ∈ e.occurrences, ∃ w, values name = some w) ∧
      ∀ j < 64, (e.eval values).toOption.map (bitAt · j) = e.value (values.bits j)) ∧
    (∀ (s : Synthesizer) (e : Expr) (m : Mapping) (values : Valuation), e.Proper → e.CallFree →
      s.synthesize e = .ok m →
      ((∃ w, m.eval values = .ok w) ↔ ∀ name ∈ e.occurrences, ∃ w, values name = some w) ∧
      ∀ j < 64, (m.eval values).toOption.map (bitAt · j) = m.value (values.bits j) ∧
        m.value (values.bits j) = e.value (values.bits j)) ∧
    ∀ (net : Netlist) (words : List UInt64), net.Built →
      (∀ n ∈ net.nodes, n.kind ≠ .input → n.children ≠ []) → words.length = net.inputs.size →
      ∃ outs, net.simulate words = .ok outs ∧ ∀ j < 64,
        net.outputs.toList.mapM (net.value (words.map (bitAt · j))) =
          some (outs.map (bitAt · j)) ∧
        net.simulateSingle (words.map (bitAt · j)) = .ok (outs.map (bitAt · j)) := by
  refine ⟨?expr, ?circuit, ?netlist⟩
  case expr =>
    intro e values he hcalls
    exact ⟨Expr.eval_isOk_iff he hcalls values, fun j hj => (e.value_bitAt values hj).symm⟩
  case circuit =>
    intro s e m values he hcalls hm
    have hwell := Synthesizer.wellFormed_of_synthesize he hm
    have heval := Synthesizer.eval_of_synthesize he hm values
    refine ⟨?_, fun j hj => ⟨(hwell.value_bitAt values hj).symm, ?_⟩⟩
    · rw [heval]
      exact Expr.eval_isOk_iff he hcalls values
    · rw [hwell.value_bitAt values hj, heval, e.value_bitAt values hj]
  case netlist =>
    intro net words hbuilt hgates hlen
    obtain ⟨outs, hsimulate, hvalues⟩ :=
      (hbuilt.sequential hgates).value_outputs hbuilt.listed hlen
    refine ⟨outs, hsimulate, fun j hj => ⟨hvalues j hj, ?_⟩⟩
    rw [Netlist.simulateSingle_bits net hj, hsimulate]
    rfl

/-- The parity of two words, by itself, over inverted conjunctions, and as a netlist of one gate. -/
theorem bits_of_words_xor :
    let e := Expr.gate .xor [.var "A", .var "B"]
    let values := Valuation.ofList [("A", 6), ("B", 3)]
    let net : Netlist := {
      nodes := #[⟨.input, [], 0, 0, some "A"⟩, ⟨.input, [], 0, 0, some "B"⟩,
        ⟨.gate .xor, [0, 1], 1, 0, none⟩, ⟨.output, [2], 2, 0, some "Y"⟩]
      wires := #[⟨0, 0, 2, 0⟩, ⟨1, 0, 2, 1⟩, ⟨2, 0, 3, 0⟩]
      inputs := #[0, 1]
      outputs := #[3] }
    (∃ w, e.eval values = .ok w) ∧
    (∃ m, (Synthesizer.mk (.ofList [.nand]) 30).synthesize e = .ok m ∧
      ∀ j < 64, (m.eval values).toOption.map (bitAt · j) = e.value (values.bits j)) ∧
    net.Built ∧ ∃ outs, net.simulate [6, 3] = .ok outs ∧
      ∀ j < 64, net.simulateSingle ([6, 3].map (bitAt · j)) = .ok (outs.map (bitAt · j)) := by
  intro e values net
  have hproper : e.Proper := by decide
  have hcalls : e.CallFree := by decide
  obtain ⟨m, hm⟩ : ∃ m, (Synthesizer.mk (.ofList [.nand]) 30).synthesize e = .ok m := ⟨_, rfl⟩
  have hbuilt : net.Built := by
    have hinputs := (Netlist.Built.empty.addInput "A").addInput "B"
    obtain ⟨gates, hgate, houtput⟩ : ∃ gates,
        ((Netlist.empty.addInput "A").2.addInput "B").2.addGate (.gate .xor) [0, 1] 0 =
            .ok (2, gates) ∧
          gates.addOutput 2 "Y" 0 = .ok (3, net) := ⟨_, rfl, rfl⟩
    exact (hinputs.addGate hgate).addOutput houtput
  obtain ⟨hexpr, hcircuit, hnetlist⟩ := bits_of_words
  obtain ⟨outs, hsimulate, hbits⟩ := hnetlist net [6, 3] hbuilt (by decide) rfl
  refine ⟨(hexpr e values hproper hcalls).1.mpr ?_, ⟨m, hm, fun j hj => ?_⟩, hbuilt, outs,
    hsimulate, fun j hj => (hbits j hj).2⟩
  · intro name hname
    rcases List.mem_pair.mp hname with rfl | rfl
    · exact ⟨6, rfl⟩
    · exact ⟨3, rfl⟩
  · obtain ⟨hm', hsame⟩ := (hcircuit _ e m values hproper hcalls hm).2 j hj
    exact hm'.trans hsame

end LogicSchematic
