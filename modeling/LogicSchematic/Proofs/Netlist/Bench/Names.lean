import LogicSchematic.Proofs.Netlist.Bench.Description

/-!
# Names in .bench files

A file is read as a circuit only if no line introduces a name that is there already. The names that
lines introduce are those defined as inputs, gates and outputs (`definedNames_perm`), and in the
file of a netlist those of its nodes (`introduced_perm`). So the file of a netlist is a circuit
exactly when it defines no name twice (`exists_circuit_iff`).

Labels are not kept apart: an output may have the label of an input, of another output, or that of a
gate (`synthesize_bench_twice`). For the file of a run to be a circuit it takes labels that are
written differently, the outputs also unlike the gates, and this is enough
(`definedNames_nodup_iff`).
-/

namespace LogicSchematic

namespace Bench

/-- The names that lines introduce are those of inputs, gates and outputs. -/
theorem definedNames_perm (ss : List Statement) :
    (definedNames ss).Perm (ss.filterMap Statement.introduced?) := by
  induction ss with
  | nil => exact .nil
  | cons s ss ih =>
    cases s with
    | input name => exact ih.cons name
    | output name => exact ih
    | define name kind operands =>
      refine List.Perm.trans ?_ (ih.cons name)
      -- a definition stands among the gates, or among the outputs
      by_cases hkind : kind = "BUF"
      · simp only [definedNames, List.filterMap_cons, Statement.inputName?, Statement.gateName?,
          Statement.outputName?, if_pos hkind]
        exact List.perm_middle
      · simp only [definedNames, List.filterMap_cons, Statement.inputName?, Statement.gateName?,
          Statement.outputName?, if_neg hkind]
        exact List.perm_middle.append_right _

theorem findIdxs_eq_map {α : Type} (p : α → Bool) (xs : List α) :
    xs.findIdxs p = (xs.zipIdx.filter fun q => p q.1).map Prod.snd := by
  rw [List.findIdxs_eq_filterMap_zipIdx, ← List.filterMap_eq_map, List.filterMap_filter]
  refine List.filterMap_congr fun q _ => ?_
  cases p q.1 <;> rfl

variable {net : Netlist}

/-- The names that the file of a netlist introduces are those of the nodes. -/
theorem introduced_perm (hlisted : net.Listed)
    (hlabelled : ∀ n ∈ net.nodes, n.kind = .input → ∃ label, n.label = some label) :
    ((statements net).filterMap Statement.introduced?).Perm (emittedNames net) := by
  have hinputs : net.inputs.toList.map (signalName net) =
      (net.nodes.toList.zipIdx.filter fun p => p.1.kind == .input).map
        fun p => emittedName p.1 p.2 := by
    rw [hlisted.inputs, Netlist.kinds, List.findIdxs_map, findIdxs_eq_map, List.map_map]
    refine List.map_congr_left fun p hp => ?_
    obtain ⟨hp, hkind⟩ := List.mem_filter.mp hp
    rw [List.mk_mem_zipIdx_iff_getElem?, Array.getElem?_toList] at hp
    have hkind : p.1.kind = .input := eq_of_beq hkind
    refine signalName_eq_emittedName (hlabelled p.1 (Array.mem_of_getElem? hp)) hp ?_
    rw [hkind]
    decide
  have hdefinitions : (net.nodes.toList.zipIdx.filterMap fun p =>
      (definition? net p.2 p.1).bind Statement.introduced?) =
      (net.nodes.toList.zipIdx.filter fun p => !(p.1.kind == .input)).map
        fun p => emittedName p.1 p.2 := by
    rw [← List.filterMap_eq_map, List.filterMap_filter]
    refine List.filterMap_congr fun p _ => ?_
    cases hkind : p.1.kind <;>
      simp [definition?, emittedName, outputName, Statement.introduced?, hkind]
  rw [filterMap_statements, hdefinitions]
  simp only [Statement.introduced?, List.filterMap_none, List.append_nil, List.filterMap_eq_map']
  rw [hinputs, ← List.map_append]
  exact (List.filter_append_perm _ _).map _

/-- The file of a netlist is a circuit exactly when it defines no name twice. -/
theorem exists_circuit_iff (hnet : net.Consistent)
    (hlabelled : ∀ n ∈ net.nodes, n.kind = .input → ∃ label, n.label = some label) :
    (∃ c, Circuit.ofStatements? (statements net) = some c) ↔
      (definedNames (statements net)).Nodup := by
  rw [(definedNames_perm _).nodup_iff]
  constructor
  · rintro ⟨c, hc⟩
    exact Circuit.nodup_of_ofStatements? hc
  · intro hnodup
    have hdescribed : Described net :=
      ⟨hnet, hlabelled, (introduced_perm hnet.listed hlabelled).nodup_iff.mp hnodup⟩
    exact ⟨_, hdescribed.ofStatements?_eq.2⟩

end Bench

/-! ## Runs -/

variable {α : Type} {config : Config α} {text : String} {equations : List Equation} {net : Netlist}

/-- The file of a run consists of remarks, blank lines and lines `INPUT(x)`, `OUTPUT(z)` and
`y = K(a, b)`. Its gates are named unlike each other and unlike the inputs. It defines no name twice
exactly when the labels of inputs and outputs are all written differently and no output is written
like a gate; and exactly then it can be read as a circuit. -/
theorem definedNames_nodup_iff (h : (synthesize config text).result = .ok (equations, net)) :
    ∃ ss, Bench.read? (Bench.text net) = some ss ∧
      (ss.filterMap Bench.Statement.gateName?).Nodup ∧
      (ss.filterMap Bench.Statement.inputName?).Disjoint
        (ss.filterMap Bench.Statement.gateName?) ∧
      ((Bench.definedNames ss).Nodup ↔
        ((net.inputLabels ++ equations.map Equation.label).map Bench.safeName).Nodup ∧
          ∀ e ∈ equations, ∀ id n g, net.nodes[id]? = some n → n.kind = .gate g →
            Bench.safeName e.label ≠ nodeName id) ∧
      ((∃ c, Bench.Circuit.ofStatements? ss = some c) ↔ (Bench.definedNames ss).Nodup) := by
  obtain ⟨inputs, himp⟩ := implements_of_synthesize h
  have hcircuit := Bench.exists_circuit_iff (consistent_of_synthesize h)
    (exists_label_of_synthesize h)
  have hgates := Bench.nodup_gateNames net
  have hinputs : (net.inputLabels.map Bench.safeName).Disjoint
      (net.nodes.toList.zipIdx.filterMap Bench.gateSignal?) := by
    refine (Bench.disjoint_gateNames_iff.mpr fun label hlabel id _ _ _ _ => ?_).symm
    exact Bench.safeName_ne_nodeName (isLower_of_mem_inputLabels h hlabel) id
  have houtputs : (net.nodes.toList.zipIdx.filterMap Bench.gateSignal?).Disjoint
      ((equations.map Equation.label).map Bench.safeName) ↔
      ∀ e ∈ equations, ∀ id n g, net.nodes[id]? = some n → n.kind = .gate g →
        Bench.safeName e.label ≠ nodeName id := by
    rw [Bench.disjoint_gateNames_iff, List.forall_mem_map]
  refine ⟨Bench.statements net, Bench.read?_text himp.driven, ?_, ?_, ?_, hcircuit⟩
  · rwa [Bench.gateNames_statements]
  · rwa [Bench.inputNames_statements, Bench.gateNames_statements, himp.signalNames_eq]
  · rw [Bench.definedNames, Bench.inputNames_statements, Bench.gateNames_statements,
      Bench.outputNames_statements, himp.signalNames_eq, himp.outputNames_eq, ← houtputs,
      List.map_append, List.nodup_append', List.nodup_append', List.nodup_append',
      List.disjoint_append_left]
    tauto

/-- An output that is written like a node, but like no gate: it is node 2 itself. -/
theorem definedNames_nodup_iff_not :
    ∃ equations net ss, (synthesize (Config.standard : Config Float) "n2 = NOT A").result =
        .ok (equations, net) ∧
      Bench.read? (Bench.text net) = some ss ∧
      (ss.filterMap Bench.Statement.gateName?).Nodup ∧
      (ss.filterMap Bench.Statement.inputName?).Disjoint
        (ss.filterMap Bench.Statement.gateName?) ∧
      (Bench.definedNames ss).Nodup ∧ ∃ c, Bench.Circuit.ofStatements? ss = some c := by
  let net : Netlist := {
    nodes := #[⟨.input, [], 0, 0, some "A"⟩, ⟨.gate .not, [0], 1, 0, none⟩,
      ⟨.output, [1], 2, 0, some "n2"⟩]
    wires := #[⟨0, 0, 1, 0⟩, ⟨1, 0, 2, 0⟩]
    inputs := #[0]
    outputs := #[2] }
  have hparse : (Equation.parseAll false "n2 = NOT A").result =
      .ok [(1, ⟨"n2", .gate .not [.var "A"]⟩)] := by
    cbv
  have hrun : (synthesize (Config.standard : Config Float) "n2 = NOT A").result =
      .ok ([⟨"n2", .gate .not [.var "A"]⟩], net) :=
    synthesize_eq_ok_iff.mpr ⟨rfl, ⟨_, hparse, rfl⟩, by decide⟩
  obtain ⟨ss, hread, hgates, hinputs, hiff, hcircuit⟩ := definedNames_nodup_iff hrun
  have hnodup : (Bench.definedNames ss).Nodup := by
    refine hiff.mpr ⟨by decide, ?_⟩
    intro e he id n g hn hkind
    cases List.mem_singleton.mp he
    rcases id with _ | _ | _ | id
    · cases hn
      cases hkind
    · decide
    · cases hn
      cases hkind
    · cases hn
  exact ⟨_, _, ss, hrun, hread, hgates, hinputs, hnodup, hcircuit.mpr hnodup⟩

/-- An output with the label of an input: the file introduces it twice, and is no circuit. -/
theorem synthesize_bench_twice :
    ∃ equations net ss, (synthesize (Config.standard : Config Float) "A = NOT A").result =
        .ok (equations, net) ∧
      Bench.read? (Bench.text net) = some ss ∧ Bench.definedNames ss = ["A", "n1", "A"] ∧
      ¬ (Bench.definedNames ss).Nodup ∧ Bench.Circuit.ofStatements? ss = none := by
  let net : Netlist := {
    nodes := #[⟨.input, [], 0, 0, some "A"⟩, ⟨.gate .not, [0], 1, 0, none⟩,
      ⟨.output, [1], 2, 0, some "A"⟩]
    wires := #[⟨0, 0, 1, 0⟩, ⟨1, 0, 2, 0⟩]
    inputs := #[0]
    outputs := #[2] }
  have hparse : (Equation.parseAll false "A = NOT A").result =
      .ok [(1, ⟨"A", .gate .not [.var "A"]⟩)] := by
    cbv
  have hrun : (synthesize (Config.standard : Config Float) "A = NOT A").result =
      .ok ([⟨"A", .gate .not [.var "A"]⟩], net) :=
    synthesize_eq_ok_iff.mpr ⟨rfl, ⟨_, hparse, rfl⟩, by decide⟩
  exact ⟨_, _, _, hrun, Bench.read?_text (by decide), by decide, by decide, by decide⟩

end LogicSchematic
