import LogicSchematic.Generation
import LogicSchematic.Proofs.Expr.Parsed
import LogicSchematic.Proofs.Netlist.Equivalence

/-!
# What a run gives

A run goes one of three ways: there is no gate, a line is no equation, or the outcome is that of the
netlist of the lines (`synthesize_of_isEmpty`, `synthesize_of_parseAll_error`,
`synthesize_of_parseAll_ok`).

A run that succeeds has parsed equations, which are well shaped (`exists_parse_of_synthesize`,
`wellShaped_of_synthesize`), and built their netlist (`synthesize_eq_ok_iff`), which implements them
with allowed gates (`implements_of_synthesize`). So the netlist computes the equations, for all
words of its inputs (`synthesize_simulates`), and its gates are allowed and have no more drivers
than pins (`gates_fit_pins`).
-/

namespace LogicSchematic

theorem addLines_eq_ok_iff {s : Synthesizer} {b c : NetlistBuilder} {group : Nat}
    {lines : List (Nat × Equation)} :
    addLines s b group lines = .ok c ↔ b.addEquations s group (lines.map Prod.snd) = .ok c := by
  induction lines generalizing b group with
  | nil => simp [addLines, NetlistBuilder.addEquations]
  | cons line lines ih =>
    obtain ⟨number, e⟩ := line
    rw [addLines, List.map_cons, NetlistBuilder.addEquations, Except.bind_eq_ok_iff,
      Except.bind_eq_ok_iff]
    simp only [Except.mapError_eq_ok_iff, ih]

/-- The numbers of the lines matter to errors only. -/
theorem netlistOfLines_eq_ok_iff {s : Synthesizer} {lines : List (Nat × Equation)} {net : Netlist} :
    netlistOfLines s lines = .ok net ↔ buildNetlist s (lines.map Prod.snd) = .ok net := by
  rw [netlistOfLines, buildNetlist, List.map_map, Except.bind_eq_ok_iff, Except.bind_eq_ok_iff]
  simp only [addLines_eq_ok_iff, Except.mapError_eq_ok_iff]
  exact Iff.rfl

variable {α : Type} {config : Config α} {text : String} {equations : List Equation} {net : Netlist}

/-! ## The three ways of a run -/

/-- Without a gate, the text is not looked at. -/
theorem synthesize_of_isEmpty (hgates : config.gates.isEmpty = true) (text : String) :
    (synthesize config text).result = .error .emptyGateSet := by
  rw [synthesize, if_pos hgates]
  rfl

/-- A line that is no equation ends the run before any circuit is looked for. -/
theorem synthesize_of_parseAll_error (hgates : config.gates.isEmpty = false)
    {e : Equation.LineError} (h : (Equation.parseAll config.strict text).result = .error e) :
    (synthesize config text).result = .error (.parse e.line e.cause) := by
  have herror : ((Equation.parseAll config.strict text).mapError RunError.ofLine).result =
      .error (.parse e.line e.cause) := by
    rw [Reading.mapError, h]
    rfl
  rw [synthesize, if_neg (by rw [hgates]; exact Bool.false_ne_true), Reading.bind_of_error herror]

/-- When all lines are equations, the outcome is that of their netlist. -/
theorem synthesize_of_parseAll_ok (hgates : config.gates.isEmpty = false)
    {lines : List (Nat × Equation)}
    (h : (Equation.parseAll config.strict text).result = .ok lines) :
    (synthesize config text).result =
      (netlistOfLines config.synthesizer lines).map fun net => (lines.map Prod.snd, net) := by
  rw [synthesize, if_neg (by rw [hgates]; exact Bool.false_ne_true),
    Reading.bind_of_ok (Reading.mapError_result_eq_ok_iff.mpr h)]
  cases hnet : netlistOfLines config.synthesizer lines with
  | ok net => rfl
  | error e => rfl

/-- A run succeeds when there is a gate, every line is an equation, and the netlist is built. -/
theorem synthesize_eq_ok_iff : (synthesize config text).result = .ok (equations, net) ↔
    config.gates.isEmpty = false ∧
      (∃ lines, (Equation.parseAll config.strict text).result = .ok lines ∧
        lines.map Prod.snd = equations) ∧
      buildNetlist config.synthesizer equations = .ok net := by
  constructor
  · intro h
    cases hgates : config.gates.isEmpty with
    | true => cases (synthesize_of_isEmpty hgates text).symm.trans h
    | false =>
      cases hlines : (Equation.parseAll config.strict text).result with
      | error e => cases (synthesize_of_parseAll_error hgates hlines).symm.trans h
      | ok lines =>
        rw [synthesize_of_parseAll_ok hgates hlines, Except.map_eq_ok_iff] at h
        obtain ⟨net', hnet, h⟩ := h
        cases h
        exact ⟨rfl, ⟨lines, rfl, rfl⟩, netlistOfLines_eq_ok_iff.mp hnet⟩
  · rintro ⟨hgates, ⟨lines, hlines, rfl⟩, hnet⟩
    rw [synthesize_of_parseAll_ok hgates hlines, netlistOfLines_eq_ok_iff.mpr hnet]
    rfl

/-- A schematic is drawn from the netlist of a run. -/
theorem generate_eq_ok_iff [Scalar α] {schematic : Schematic α} :
    (generate config text).result = .ok schematic ↔
      ∃ equations net, (synthesize config text).result = .ok (equations, net) ∧
        schematic = net.schematic config := by
  unfold generate
  rw [Reading.bind_result_eq_ok_iff]
  constructor
  · rintro ⟨⟨equations, net⟩, hrun, h⟩
    cases h
    exact ⟨equations, net, hrun, rfl⟩
  · rintro ⟨equations, net, hrun, rfl⟩
    exact ⟨(equations, net), hrun, rfl⟩

/-! ## Runs that succeed -/

/-- The expressions of a run are parsed from parts of its text. -/
theorem exists_parse_of_synthesize (h : (synthesize config text).result = .ok (equations, net)) :
    ∀ e ∈ equations, ∃ part, (Expr.parse config.strict part).result = .ok e.expr := by
  obtain ⟨-, ⟨lines, hlines, rfl⟩, -⟩ := synthesize_eq_ok_iff.mp h
  intro e he
  obtain ⟨p, hp, rfl⟩ := List.mem_map.mp he
  exact Equation.exists_of_mem_parseAll hlines p hp

/-- Lines that are read have operands everywhere, and one under every inverter. -/
theorem wellShaped_of_parseAll {strict : Bool} {lines : List (Nat × Equation)}
    (h : (Equation.parseAll strict text).result = .ok lines) :
    ∀ p ∈ lines, p.2.expr.WellShaped := by
  intro p hp
  obtain ⟨part, hpart⟩ := Equation.exists_of_mem_parseAll h p hp
  exact Expr.wellShaped_of_parse hpart

/-- The equations of a run have operands everywhere, and one under every inverter. -/
theorem wellShaped_of_synthesize (h : (synthesize config text).result = .ok (equations, net)) :
    ∀ e ∈ equations, e.expr.WellShaped := by
  intro e he
  obtain ⟨part, hpart⟩ := exists_parse_of_synthesize h e he
  exact Expr.wellShaped_of_parse hpart

/-- The netlist of a run implements its equations with allowed gates. -/
theorem implements_of_synthesize (h : (synthesize config text).result = .ok (equations, net)) :
    ∃ inputs, net.Implements config.synthesizer (fun g => config.gates.contains g = true)
      equations inputs := by
  have hshape := wellShaped_of_synthesize h
  obtain ⟨-, -, hnet⟩ := synthesize_eq_ok_iff.mp h
  have hallowed : ∀ e ∈ equations, ∀ m, config.synthesizer.synthesize e.expr.flatten = .ok m →
      ∀ g ∈ m.gates, config.gates.contains g.gate = true := by
    intro e he m hm g hg
    have hproper := (hshape e he).proper
    have hnot := Expr.flatten_unaryNot hproper (hshape e he).unaryNot
    exact (Synthesizer.fit_of_synthesize (Expr.flatten_proper hproper) hnot hm hg).1
  obtain ⟨b, -, himp⟩ :=
    buildNetlist_implements (K := fun g => config.gates.contains g = true) hallowed hnet
  exact ⟨b.inputs, himp⟩

/-- A text of one line, as it is read. -/
theorem parseAll_and (strict : Bool) : (Equation.parseAll strict "A AND B").result =
    .ok [(1, ⟨"Y1", .gate .and [.var "A", .var "B"]⟩)] := by
  have hlines : Equation.numberedLines "A AND B" = [(1, "A AND B")] := by decide
  have htokens : tokenize "A AND B" = [.ident "A", .keyword .and, .ident "B"] := by decide
  have hexpr : (Expr.parse strict "A AND B").result = .ok (.gate .and [.var "A", .var "B"]) := by
    rw [Expr.parse, htokens]
    simp [Expr.ofTokens, Expr.readExpr, Expr.readTerm, Expr.readTerms, Expr.readFactor,
      Expr.readFactors, Expr.isTight, bind, Reading.bind, pure]
  have hline : (Equation.parse strict 0 "A AND B").result =
      .ok ⟨"Y1", .gate .and [.var "A", .var "B"]⟩ :=
    Reading.bind_result_eq_ok_iff.mpr ⟨_, hexpr, rfl⟩
  rw [Equation.parseAll, hlines]
  refine Reading.bind_result_eq_ok_iff.mpr ⟨_, Reading.mapError_result_eq_ok_iff.mpr hline, ?_⟩
  exact Reading.bind_result_eq_ok_iff.mpr ⟨[], rfl, rfl⟩

/-- A run with one kind of gate: a conjunction is an inverted conjunction that is inverted. -/
theorem synthesize_and : (synthesize
      ({ Config.standard with gates := .ofList [.nand] } : Config Float) "A AND B").result =
    .ok ([⟨"Y1", .gate .and [.var "A", .var "B"]⟩], {
      nodes := #[⟨.input, [], 0, 0, some "A"⟩, ⟨.input, [], 0, 0, some "B"⟩,
        ⟨.gate .nand, [0, 1], 1, 0, none⟩, ⟨.gate .nand, [2, 2], 2, 0, none⟩,
        ⟨.output, [3], 3, 0, some "Y1"⟩]
      wires := #[⟨0, 0, 2, 0⟩, ⟨1, 0, 2, 1⟩, ⟨2, 0, 3, 0⟩, ⟨2, 0, 3, 1⟩, ⟨3, 0, 4, 0⟩]
      inputs := #[0, 1]
      outputs := #[4] }) :=
  synthesize_eq_ok_iff.mpr ⟨rfl, ⟨_, parseAll_and _, rfl⟩, rfl⟩

/-- The netlist of a run computes its equations: the labels of the inputs are pairwise different,
for all words of the inputs every output yields the word of its equation under these labels, and no
check of equivalence finds a difference. -/
theorem synthesize_simulates (h : (synthesize config text).result = .ok (equations, net)) :
    net.inputLabels.Nodup ∧
      (∀ words : List UInt64, words.length = net.inputs.size →
        ∃ outs, net.simulate words = .ok outs ∧ List.Forall₂
          (fun e w => e.expr.eval (bindWords net.inputLabels words) = .ok w) equations outs) ∧
      ∀ seed, net.checkEquivalence equations seed = .ok none := by
  obtain ⟨inputs, himp⟩ := implements_of_synthesize h
  have hproper : ∀ e ∈ equations, e.expr.Proper :=
    fun e he => (wellShaped_of_synthesize h e he).proper
  refine ⟨?_, fun words hlen => himp.exists_simulate hproper hlen, himp.checkEquivalence hproper⟩
  rw [himp.inputLabels_eq]
  exact himp.names_nodup

/-- The run on a conjunction: its netlist yields one word for all words of the inputs. -/
theorem synthesize_simulates_and :
    let config : Config Float := { Config.standard with gates := .ofList [.nand] }
    ∃ equations net, (synthesize config "A AND B").result = .ok (equations, net) ∧
      net.inputLabels.Nodup ∧
      (∀ words : List UInt64, words.length = net.inputs.size →
        ∃ outs, net.simulate words = .ok outs ∧ List.Forall₂
          (fun e w => e.expr.eval (bindWords net.inputLabels words) = .ok w) equations outs) ∧
      ∀ seed, net.checkEquivalence equations seed = .ok none :=
  ⟨_, _, synthesize_and, synthesize_simulates synthesize_and⟩

/-- Only allowed gates are used, with as many operands as they have pins for: in every circuit, and
so in every netlist of a run. -/
theorem gates_fit_pins :
    (∀ (s : Synthesizer) (e : Expr) (m : Mapping), e.Proper → e.UnaryNot →
      s.synthesize e = .ok m → ∀ g ∈ m.gates,
        s.allowed.contains g.gate = true ∧ g.gate.Fits g.operands.length) ∧
    (∀ (α : Type) (config : Config α) (text : String) (equations : List Equation) (net : Netlist),
      (synthesize config text).result = .ok (equations, net) →
      ∀ n ∈ net.nodes, ∀ g, n.kind = .gate g →
        config.gates.contains g = true ∧ n.children.length ≤ g.inputPins) := by
  constructor
  · intro s e m he hnot h g hg
    exact Synthesizer.fit_of_synthesize he hnot h hg
  · intro α config text equations net h n hn g hkind
    obtain ⟨inputs, himp⟩ := implements_of_synthesize h
    obtain ⟨id, hid⟩ := Array.getElem?_of_mem hn
    refine ⟨himp.kinds n hn g hkind, ?_⟩
    have hpins := ((Netlist.check_eq_ok_iff.mp himp.consistent).1 id n hid).pins
    rw [hkind] at hpins
    exact hpins

/-- A conjunction of three operands as a circuit, and one of two as a run. -/
theorem gates_fit_pins_and :
    let s : Synthesizer := ⟨.ofList [.nand4, .not], 30⟩
    let config : Config Float := { Config.standard with gates := .ofList [.nand] }
    (∃ m, s.synthesize (.gate .and [.var "A", .var "B", .var "C"]) = .ok m ∧
      ∀ g ∈ m.gates, s.allowed.contains g.gate = true ∧ g.gate.Fits g.operands.length) ∧
    ∃ equations net, (synthesize config "A AND B").result = .ok (equations, net) ∧
      ∀ n ∈ net.nodes, ∀ g, n.kind = .gate g →
        config.gates.contains g = true ∧ n.children.length ≤ g.inputPins := by
  intro s config
  have hm : s.synthesize (.gate .and [.var "A", .var "B", .var "C"]) = .ok
      ⟨[⟨.nand4, [.var "A", .var "B", .var "C", .var "C"]⟩, ⟨.not, [.gate 0]⟩], .gate 1⟩ := rfl
  refine ⟨⟨_, hm, ?_⟩, ⟨_, _, synthesize_and, ?_⟩⟩
  · exact gates_fit_pins.1 s _ _ (by decide) (by decide) hm
  · exact gates_fit_pins.2 Float config _ _ _ synthesize_and

end LogicSchematic
