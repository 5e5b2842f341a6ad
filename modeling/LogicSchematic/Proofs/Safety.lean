import LogicSchematic.Proofs.Generation
import LogicSchematic.Proofs.Layout.Checked
import LogicSchematic.Proofs.Mapping.Checked
import LogicSchematic.Proofs.Netlist.Building
import LogicSchematic.Proofs.Synthesis.Rewriting

/-!
# Runs do not go wrong

Whatever the text and the configuration, a run ends in a result or in an error about the text or the
gate set, and nothing it relies on along the way fails (`run_safe`). Parsed expressions have
operands under every operator, so that mapping a line never makes a gate over no operands or takes
the first of none (`Synthesizer.runs_of_proper`), and finishing its circuit finds all gates
(`Synthesizer.finish?_of_mapExpr`). Building the netlist finds all nodes, and its check passes
(`netlistOfLines_cases`). The netlist of a run is consistent, so simulation and layout find the
nodes they look up, and the bounds of a bend are in order (`Schematic.ofNetlist?_eq`).
-/

namespace LogicSchematic

namespace Synthesizer

variable {s : Synthesizer} {e : Expr}

/-- The circuit of a proper expression is finished without a missing gate. -/
theorem finish?_of_mapExpr (he : e.Proper) {root : Operand} {a : Arena}
    (h : s.mapExpr e 0 Arena.empty = .ok (root, a)) : a.finish? root = some (a.finish root) := by
  have hpos : ∀ (g : Gate) (n : Nat), g.Fits n → 0 < n := fun _ _ hn => hn.bounds.1
  have hdenotes := mapExpr_denotes hpos (s := s) (he.mono fun _ _ hn => ⟨hn, fun _ => hn⟩)
  obtain ⟨hsound, -, hstands⟩ := hdenotes 0 Arena.empty (Arena.sound_empty _) root a h
  exact hsound.finish?_eq hstands.1

/-- What does not go wrong with an expression: its operators have operands, and so have the gates
that are put in their places; and finishing the circuit finds all gates. -/
structure Safe (s : Synthesizer) (e : Expr) : Prop where
  operands : e.Proper
  runs : s.Runs e.flatten
  finish : ∀ root a, s.mapExpr e.flatten 0 Arena.empty = .ok (root, a) →
    a.finish? root = some (a.finish root)

theorem safe_of_proper (he : e.Proper) : s.Safe e where
  operands := he
  runs := runs_of_proper (Expr.flatten_proper he)
  finish _ _ h := finish?_of_mapExpr (Expr.flatten_proper he) h

end Synthesizer

variable {α : Type} {config : Config α} {text : String}

/-- A run gives a consistent netlist, or an error that is no fault. -/
theorem synthesize_cases (config : Config α) (text : String) :
    (∃ equations net, (synthesize config text).result = .ok (equations, net) ∧ net.Consistent) ∨
      ∃ e, (synthesize config text).result = .error e ∧ ∀ fault, e ≠ .fault fault := by
  cases hgates : config.gates.isEmpty with
  | true => exact .inr ⟨_, synthesize_of_isEmpty hgates text, fun _ h => by cases h⟩
  | false =>
    cases hlines : (Equation.parseAll config.strict text).result with
    | error e =>
      exact .inr ⟨_, synthesize_of_parseAll_error hgates hlines, fun _ h => by cases h⟩
    | ok lines =>
      rw [synthesize_of_parseAll_ok hgates hlines]
      rcases netlistOfLines_cases (s := config.synthesizer) (wellShaped_of_parseAll hlines) with
        ⟨net, hnet, hconsistent⟩ | ⟨index, line, cause, -, hnet, -⟩
      · exact .inl ⟨lines.map Prod.snd, net, by rw [hnet]; rfl, hconsistent⟩
      · exact .inr ⟨.synthesis line cause, by rw [hnet]; rfl, fun _ h => by cases h⟩

theorem consistent_of_synthesize {equations : List Equation} {net : Netlist}
    (h : (synthesize config text).result = .ok (equations, net)) : net.Consistent := by
  rcases synthesize_cases config text with ⟨equations', net', h', hconsistent⟩ | ⟨e, he, -⟩
  · cases h.symm.trans h'
    exact hconsistent
  · cases h.symm.trans he

variable [Scalar α]

/-- What does not go wrong with the netlist of a run: it passes its check, its inputs and outputs
are nodes, the layout finds all it looks up and bounds bends in order, and so does the simulation of
any patterns against the equations. -/
structure Netlist.Safe (config : Config α) (equations : List Equation) (net : Netlist) : Prop where
  check : net.check = .ok ()
  inputs : ∀ id ∈ net.inputs.toList, id < net.nodes.size
  outputs : ∀ id ∈ net.outputs.toList, id < net.nodes.size
  layout : Schematic.ofNetlist? net config.placement config.routing standardPins =
    some (net.schematic config)
  equivalence : ∀ seed, net.checkEquivalence equations seed = .ok none

/-- What does not go wrong with a text: its lines, strictly or leniently read, can be mapped, what
is returned is safe to use, and the error of a run is no fault of the netlist. -/
structure SafeRun (config : Config α) (text : String) : Prop where
  lines : ∀ strict lines, (Equation.parseAll strict text).result = .ok lines →
    ∀ p ∈ lines, config.synthesizer.Safe p.2.expr
  netlist : ∀ equations net, (synthesize config text).result = .ok (equations, net) →
    net.Safe config equations
  synthesize_error : ∀ fault, (synthesize config text).result ≠ .error (.fault fault)
  generate_error : ∀ fault, (generate config text).result ≠ .error (.fault fault)

theorem safe_of_synthesize {equations : List Equation} {net : Netlist}
    (h : (synthesize config text).result = .ok (equations, net)) : net.Safe config equations where
  check := (consistent_of_synthesize h).check
  inputs _ := (consistent_of_synthesize h).listed.lt_size_of_mem_inputs
  outputs _ := (consistent_of_synthesize h).listed.lt_size_of_mem_outputs
  layout := Schematic.ofNetlist?_eq (consistent_of_synthesize h) _ _ _
  equivalence := (synthesize_simulates h).2.2

/-- No text makes a run go wrong. -/
theorem run_safe (config : Config α) (text : String) : SafeRun config text where
  lines _ _ h p hp := Synthesizer.safe_of_proper (wellShaped_of_parseAll h p hp).proper
  netlist _ _ h := safe_of_synthesize h
  synthesize_error fault h := by
    rcases synthesize_cases config text with ⟨equations, net, hok, -⟩ | ⟨e, he, hfault⟩
    · cases h.symm.trans hok
    · cases h.symm.trans he
      exact hfault fault rfl
  generate_error fault h := by
    rw [generate] at h
    rcases synthesize_cases config text with ⟨equations, net, hok, -⟩ | ⟨e, he, hfault⟩
    · rw [Reading.bind_of_ok hok] at h
      cases h
    · rw [Reading.bind_of_error he] at h
      cases h
      exact hfault fault rfl

/-- A run that succeeds: its netlist is laid out, and no check of equivalence finds a difference. -/
theorem run_safe_and :
    let config : Config Float := { Config.standard with gates := .ofList [.nand] }
    ∃ equations net, (synthesize config "A AND B").result = .ok (equations, net) ∧
      Schematic.ofNetlist? net config.placement config.routing standardPins =
        some (net.schematic config) ∧
      ∀ seed, net.checkEquivalence equations seed = .ok none := by
  intro config
  have hsafe := (run_safe config "A AND B").netlist _ _ synthesize_and
  exact ⟨_, _, synthesize_and, hsafe.layout, hsafe.equivalence⟩

end LogicSchematic
