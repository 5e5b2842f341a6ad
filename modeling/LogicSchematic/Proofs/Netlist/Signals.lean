import LogicSchematic.Proofs.Generation
import LogicSchematic.Proofs.Netlist.Bench
import LogicSchematic.Proofs.Netlist.Composition

/-!
# The signals of .bench files

A .bench file introduces names as inputs, as gates and as outputs (`definedNames`). The file of a
netlist takes the first and the last from labels, in which many characters are written alike
(`signalNames_eq`, `outputNames_eq`), and numbers the gates. So gates are not named alike
(`nodup_gateNames`), nor like an input, since the labels of inputs are in upper case
(`safeName_ne_nodeName`, `isLower_of_mem_inputLabels`).
-/

namespace LogicSchematic

namespace Bench

/-- The name that a statement declares as an input. -/
def Statement.inputName? : Statement → Option String
  | .input name => some name
  | _ => none

/-- The name that a statement defines as a gate. -/
def Statement.gateName? : Statement → Option String
  | .define name kind _ => if kind = "BUF" then none else some name
  | _ => none

/-- The name that a statement defines as an output, by a buffer. -/
def Statement.outputName? : Statement → Option String
  | .define name kind _ => if kind = "BUF" then some name else none
  | _ => none

/-- The names that statements introduce: inputs, gates and outputs. -/
def definedNames (ss : List Statement) : List String :=
  ss.filterMap Statement.inputName? ++ ss.filterMap Statement.gateName? ++
    ss.filterMap Statement.outputName?

/-! ## Names of nodes and labels -/

theorem nodeName_injective {id id' : NodeId} (h : nodeName id = nodeName id') : id = id' := by
  have hrepr : Nat.repr id = Nat.repr id' := (String.append_right_inj "n").mp h
  rw [Nat.repr, Nat.repr, String.ofList_inj] at hrepr
  have hdigits := congrArg (Nat.ofDigitChars 10 · 0) hrepr
  simpa only [Nat.ofDigitChars_ten_toDigits] using hdigits

/-- A label without small letters is not written like a node. -/
theorem safeName_ne_nodeName {label : String} (h : ∀ c ∈ label.toList, c.isLower = false)
    (id : NodeId) : safeName label ≠ nodeName id := by
  intro heq
  have hn : 'n' ∈ (safeName label).toList := by
    rw [heq, nodeName, String.toList_append]
    exact List.mem_append_left _ (by decide)
  rw [safeName, String.toList_ofList, List.mem_map] at hn
  obtain ⟨c, hc, hn⟩ := hn
  have hlower := h c hc
  split at hn
  · rw [hn] at hlower
    cases hlower
  · cases hn

/-! ## The names of a netlist -/

variable {net : Netlist}

theorem filterMap_statements (f : Statement → Option String) (net : Netlist) :
    (statements net).filterMap f =
      (net.inputs.toList.filterMap fun id => f (.input (signalName net id))) ++
      ((net.outputs.toList.filterMap (net.nodes[·]?)).filterMap fun n =>
        f (.output (outputName n))) ++
      net.nodes.toList.zipIdx.filterMap fun p => (definition? net p.2 p.1).bind f := by
  simp only [statements, inputs, outputs, definitions, List.filterMap_append, List.filterMap_map,
    List.filterMap_filterMap]
  rfl

theorem inputNames_statements (net : Netlist) :
    (statements net).filterMap Statement.inputName? =
      net.inputs.toList.map (signalName net) := by
  have hdefinitions : (net.nodes.toList.zipIdx.filterMap fun p =>
      (definition? net p.2 p.1).bind Statement.inputName?) = [] := by
    rw [List.filterMap_eq_nil_iff]
    rintro ⟨n, id⟩ -
    cases hkind : n.kind <;> simp [definition?, hkind, Statement.inputName?]
  rw [filterMap_statements, hdefinitions]
  simp [Statement.inputName?]

theorem gateName_ne_buf (g : Gate) : gateName g ≠ "BUF" := by
  cases g <;> decide

/-- The name of a node that is a gate. -/
def gateSignal? : Node × NodeId → Option String
  | (n, id) =>
    match n.kind with
    | .gate _ => some (nodeName id)
    | _ => none

theorem gateNames_statements (net : Netlist) :
    (statements net).filterMap Statement.gateName? =
      net.nodes.toList.zipIdx.filterMap gateSignal? := by
  rw [filterMap_statements]
  simp only [Statement.gateName?, List.filterMap_none, List.nil_append]
  refine List.filterMap_congr ?_
  rintro ⟨n, id⟩ -
  cases hkind : n.kind <;>
    simp [definition?, gateSignal?, hkind, Statement.gateName?, gateName_ne_buf]

theorem outputNames_statements (net : Netlist) :
    (statements net).filterMap Statement.outputName? =
      (net.nodes.toList.filter (·.kind == .output)).map outputName := by
  have houtputs : (net.nodes.toList.filter (·.kind == .output)).map outputName =
      net.nodes.toList.zipIdx.filterMap fun p =>
        if p.1.kind == .output then some (outputName p.1) else none := by
    conv_lhs => rw [← List.zipIdx_map_fst 0 net.nodes.toList]
    rw [← List.filterMap_eq_map, List.filterMap_filter, List.filterMap_map]
    rfl
  rw [filterMap_statements, houtputs]
  simp only [Statement.outputName?, List.filterMap_none, List.nil_append]
  refine List.filterMap_congr ?_
  rintro ⟨n, id⟩ -
  cases hkind : n.kind <;>
    simp [definition?, hkind, Statement.outputName?, gateName_ne_buf]

theorem gateSignal?_eq_some_iff {n : Node} {id : NodeId} {name : String} :
    gateSignal? (n, id) = some name ↔ ∃ g, n.kind = .gate g ∧ nodeName id = name := by
  cases hkind : n.kind <;> simp [gateSignal?, hkind]

theorem mem_gateNames {name : String} : name ∈ net.nodes.toList.zipIdx.filterMap gateSignal? ↔
    ∃ id n g, net.nodes[id]? = some n ∧ n.kind = .gate g ∧ nodeName id = name := by
  simp only [List.mem_filterMap, Prod.exists, List.mk_mem_zipIdx_iff_getElem?,
    Array.getElem?_toList, gateSignal?_eq_some_iff]
  constructor
  · rintro ⟨n, id, hn, g, hkind, hname⟩
    exact ⟨id, n, g, hn, hkind, hname⟩
  · rintro ⟨id, n, g, hn, hkind, hname⟩
    exact ⟨n, id, hn, g, hkind, hname⟩

/-- Gates have numbers of their own, and so names of their own. -/
theorem nodup_gateNames (net : Netlist) :
    (net.nodes.toList.zipIdx.filterMap gateSignal?).Nodup := by
  have hids : (net.nodes.toList.zipIdx.map Prod.snd).Nodup := by
    rw [List.zipIdx_map_snd]
    exact List.nodup_range' 1
  refine List.pairwise_filterMap.mpr ((List.pairwise_map.mp hids).imp ?_)
  rintro ⟨n, id⟩ ⟨n', id'⟩ hne name hname name' hname' heq
  obtain ⟨g, -, rfl⟩ := gateSignal?_eq_some_iff.mp hname
  obtain ⟨g', -, rfl⟩ := gateSignal?_eq_some_iff.mp hname'
  exact hne (nodeName_injective heq)

/-- Labels are written unlike the gates when none is written like the number of one. -/
theorem disjoint_gateNames_iff {labels : List String} :
    (net.nodes.toList.zipIdx.filterMap gateSignal?).Disjoint (labels.map safeName) ↔
      ∀ label ∈ labels, ∀ id n g, net.nodes[id]? = some n → n.kind = .gate g →
        safeName label ≠ nodeName id := by
  constructor
  · intro hdisjoint label hlabel id n g hn hkind heq
    refine hdisjoint (mem_gateNames.mpr ⟨id, n, g, hn, hkind, heq.symm⟩) ?_
    exact List.mem_map_of_mem hlabel
  · intro hne name hgate hname
    obtain ⟨id, n, g, hn, hkind, rfl⟩ := mem_gateNames.mp hgate
    obtain ⟨label, hlabel, heq⟩ := List.mem_map.mp hname
    exact hne label hlabel id n g hn hkind heq

end Bench

/-! ## Labels -/

theorem map_getElem?_findIdxs {α : Type} (p : α → Bool) (xs : List α) :
    (xs.findIdxs p).map (xs[·]?) = (xs.filter p).map some := by
  induction xs using List.reverseRecOn with
  | nil => rfl
  | append_singleton xs x ih =>
    have hsame : (xs.findIdxs p).map ((xs ++ [x])[·]?) = (xs.findIdxs p).map (xs[·]?) := by
      refine List.map_congr_left fun i hi => List.getElem?_append_left ?_
      simpa using List.lt_add_of_mem_findIdxs i hi
    rw [List.findIdxs_append, List.map_append, hsame, ih, List.filter_append, List.map_append,
      List.findIdxs_singleton]
    cases hx : p x <;> simp [hx]

namespace Netlist.Implements

variable {s : Synthesizer} {K : Gate → Prop} {equations : List Equation}
  {inputs : List (String × NodeId)} {net : Netlist}

/-- Inputs go by their labels. -/
theorem signalNames_eq (h : net.Implements s K equations inputs) :
    net.inputs.toList.map (Bench.signalName net) = net.inputLabels.map Bench.safeName := by
  rw [h.inputLabels_eq, h.inputs_eq, List.map_map, List.map_map]
  refine List.map_congr_left fun p hp => ?_
  obtain ⟨⟨kind, children, level, group, label⟩, hn, hkind, hlabel⟩ := h.input_node p.1 p.2 hp
  dsimp only at hkind hlabel
  subst hkind hlabel
  simp [Bench.signalName, hn]

/-- The outputs have the labels of the equations, in order. -/
theorem outputNames_eq (h : net.Implements s K equations inputs) :
    (net.nodes.toList.filter (·.kind == .output)).map Bench.outputName =
      (equations.map Equation.label).map Bench.safeName := by
  have hnodes : net.outputs.toList.map (net.nodes.toList[·]?) =
      (net.nodes.toList.filter (·.kind == .output)).map some := by
    rw [h.listed.outputs, Netlist.kinds, List.findIdxs_map]
    exact map_getElem?_findIdxs _ _
  have hlabels : List.Forall₂ (fun e o => ∃ n : Node, o = some n ∧ n.label = some e.label)
      equations (net.outputs.toList.map (net.nodes.toList[·]?)) := by
    refine List.forall₂_map_right_iff.mpr (h.outputs.imp ?_)
    rintro e id ⟨_, _, _, _, n, hn, -, -, hlabel⟩
    exact ⟨n, by rw [Array.getElem?_toList, hn], hlabel⟩
  rw [hnodes, List.forall₂_map_right_iff] at hlabels
  rw [List.map_map, ← List.forall₂_eq_eq_eq, List.forall₂_map_left_iff,
    List.forall₂_map_right_iff]
  refine hlabels.flip.imp ?_
  rintro n e ⟨_, ⟨⟩, hlabel⟩
  rw [Bench.outputName, hlabel]
  rfl

theorem driven (h : net.Implements s K equations inputs) :
    ∀ n ∈ net.nodes, n.kind ≠ .input → n.children ≠ [] := by
  intro n hn
  obtain ⟨id, hid⟩ := Array.getElem?_of_mem hn
  exact ((Netlist.check_eq_ok_iff.mp h.consistent).1 id n hid).driven

end Netlist.Implements

/-! ## Runs -/

variable {α : Type} {config : Config α} {text : String} {equations : List Equation} {net : Netlist}

/-- The labels of the inputs of a run have no small letters of ASCII. -/
theorem isLower_of_mem_inputLabels (h : (synthesize config text).result = .ok (equations, net))
    {label : String} (hlabel : label ∈ net.inputLabels) :
    ∀ c ∈ label.toList, c.isLower = false := by
  have hproper : ∀ e ∈ equations, e.expr.Proper :=
    fun e he => (wellShaped_of_synthesize h e he).proper
  rw [buildNetlist_inputLabels hproper (synthesize_eq_ok_iff.mp h).2.2, List.mem_eraseDups,
    List.mem_flatMap] at hlabel
  obtain ⟨e, he, hname⟩ := hlabel
  obtain ⟨part, hpart⟩ := exists_parse_of_synthesize h e he
  exact (Expr.isWord_of_parse hpart label hname).isLower

end LogicSchematic
