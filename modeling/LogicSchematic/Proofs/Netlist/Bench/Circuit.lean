import LogicSchematic.Proofs.Except
import LogicSchematic.Proofs.Netlist.Bench

/-!
# Circuits in .bench files

What a .bench file means. `INPUT(A)` declares an input, `n2 = NAND(A, B)` defines a signal by a
primitive over signals that are there, `BUF` being the identity, and `OUTPUT(Y)` lists an output. A
file is read as a circuit line by line (`Circuit.ofStatements?`), which fails where a primitive is
unknown, a name is introduced twice or an operand has not been introduced before. A circuit is
simulated in the order of its definitions (`Circuit.simulate?`).

Both go well for definitions in order (`Ordered`): reading them gives them back
(`ofStatements?_statements`), and if signals can be given words that agree with every definition,
these are the words that the simulation finds (`simulate?_eq`).
-/

namespace LogicSchematic.Bench

/-- What a line computes from its operands. -/
inductive Primitive where
  | buffer
  /-- A gate over any number of operands. -/
  | gate (g : Gate)
  deriving DecidableEq, Repr

namespace Primitive

/-- The name of a primitive. -/
def name : Primitive → String
  | .buffer => "BUF"
  | .gate g => g.name

/-- The primitives of the format; a wide gate goes by the name of the narrow one. -/
def all : List Primitive :=
  [.buffer, .gate .and, .gate .or, .gate .not, .gate .nand, .gate .nor, .gate .xor, .gate .xnor]

/-- The primitive of a name. -/
def ofName? (kind : String) : Option Primitive := all.find? (·.name == kind)

/-- The word of a primitive from those of its operands. -/
def eval? : Primitive → List UInt64 → Option UInt64
  | .buffer, [w] => some w
  | .buffer, _ => none
  | .gate g, ws => g.eval? ws

theorem ofName?_name : ∀ p ∈ all, ofName? p.name = some p := by
  decide

end Primitive

/-- A signal that is computed from others. -/
structure Definition where
  name : String
  primitive : Primitive
  operands : List String
  deriving DecidableEq, Repr

/-- The line of a definition. -/
def Definition.statement (d : Definition) : Statement :=
  .define d.name d.primitive.name d.operands

/-- The name that a line introduces; outputs are only listed. -/
def Statement.introduced? : Statement → Option String
  | .input name | .define name _ _ => some name
  | .output _ => none

/-- What a file describes, in the order of its lines. -/
structure Circuit where
  inputs : List String
  outputs : List String
  definitions : List Definition
  deriving DecidableEq, Repr

namespace Circuit

/-- The circuit of a file that says nothing. -/
def empty : Circuit := ⟨[], [], []⟩

/-- The signals of a circuit. -/
def names (c : Circuit) : List String := c.inputs ++ c.definitions.map Definition.name

/-- Adds what a line says. A name is introduced once, and operands before they are used. -/
def add? (c : Circuit) : Statement → Option Circuit
  | .input name =>
    if name ∈ c.names then none
    else some { c with inputs := c.inputs ++ [name] }
  | .output name => some { c with outputs := c.outputs ++ [name] }
  | .define name kind operands => do
    let primitive ← Primitive.ofName? kind
    if name ∉ c.names ∧ ∀ o ∈ operands, o ∈ c.names then
      some { c with definitions := c.definitions ++ [⟨name, primitive, operands⟩] }
    else none

/-- The circuit of a file. -/
def ofStatements? (ss : List Statement) : Option Circuit := ss.foldlM add? empty

/-- Computes the next signal from the words of those before. -/
def define? (values : List (String × UInt64)) (d : Definition) :
    Option (List (String × UInt64)) := do
  let ws ← d.operands.mapM fun o => values.lookup o
  let w ← d.primitive.eval? ws
  return values ++ [(d.name, w)]

/-- Simulates a circuit: one word per input, one word per output. -/
def simulate? (c : Circuit) (words : List UInt64) : Option (List UInt64) :=
  if words.length = c.inputs.length then do
    let values ← c.definitions.foldlM define? (c.inputs.zip words)
    c.outputs.mapM fun o => values.lookup o
  else none

/-! ## Lines in order -/

variable {c c' : Circuit} {s : Statement} {ss : List Statement}

/-- What a line can add. A name is new, and the operands of a definition are there. -/
theorem add?_cases (h : c.add? s = some c') :
    (∃ name, s = .input name ∧ name ∉ c.names ∧ c' = { c with inputs := c.inputs ++ [name] }) ∨
    (∃ name, s = .output name ∧ c' = { c with outputs := c.outputs ++ [name] }) ∨
    ∃ name kind operands primitive, s = .define name kind operands ∧ name ∉ c.names ∧
      (∀ o ∈ operands, o ∈ c.names) ∧
      c' = { c with definitions := c.definitions ++ [⟨name, primitive, operands⟩] } := by
  cases s with
  | input name =>
    rw [add?] at h
    split at h
    next => cases h
    next hnew => exact .inl ⟨name, rfl, hnew, (Option.some.inj h).symm⟩
  | output name => exact .inr (.inl ⟨name, rfl, (Option.some.inj h).symm⟩)
  | define name kind operands =>
    obtain ⟨primitive, -, h⟩ := Option.bind_eq_some_iff.mp h
    split at h
    next hfits =>
      refine .inr (.inr ⟨name, kind, operands, primitive, rfl, hfits.1, hfits.2, ?_⟩)
      exact (Option.some.inj h).symm
    next => cases h

/-- A line adds the name that it introduces. -/
theorem perm_names_of_add? (h : c.add? s = some c') :
    c'.names.Perm (c.names ++ s.introduced?.toList) := by
  obtain ⟨name, rfl, -, rfl⟩ | ⟨name, rfl, rfl⟩ | ⟨name, kind, operands, p, rfl, -, -, rfl⟩ :=
    add?_cases h
  · -- the inputs stand before the definitions, whenever they are declared
    simp only [names, Statement.introduced?, Option.toList_some, List.append_assoc]
    exact List.perm_append_comm.append_left c.inputs
  · simp [names, Statement.introduced?]
  · simp [names, Statement.introduced?]

/-- A name is introduced once. -/
theorem not_mem_names_of_add? (h : c.add? s = some c') {name : String}
    (hname : s.introduced? = some name) : name ∉ c.names := by
  obtain ⟨_, rfl, hnew, -⟩ | ⟨_, rfl, -⟩ | ⟨_, _, _, _, rfl, hnew, -, -⟩ := add?_cases h
  · cases hname
    exact hnew
  · cases hname
  · cases hname
    exact hnew

/-- So names that are all different stay so. -/
theorem nodup_names_of_add? (h : c.add? s = some c') (hnodup : c.names.Nodup) :
    c'.names.Nodup := by
  rw [(perm_names_of_add? h).nodup_iff]
  cases hname : s.introduced? with
  | none => rwa [Option.toList_none, List.append_nil]
  | some name =>
    have hnew := not_mem_names_of_add? h hname
    rw [Option.toList_some, List.nodup_append_comm, List.singleton_append]
    exact List.nodup_cons.mpr ⟨hnew, hnodup⟩

/-- Lines add the names that they introduce, and these are all different. -/
theorem names_of_foldlM_add? (h : ss.foldlM add? c = some c') :
    c'.names.Perm (c.names ++ ss.filterMap Statement.introduced?) ∧
      (c.names.Nodup → c'.names.Nodup) := by
  induction ss generalizing c with
  | nil =>
    cases h
    exact ⟨by simp, id⟩
  | cons s ss ih =>
    rw [List.foldlM_cons] at h
    obtain ⟨c₁, hs, h⟩ := Option.bind_eq_some_iff.mp h
    obtain ⟨hperm, hnodup⟩ := ih h
    refine ⟨?_, fun hc => hnodup (nodup_names_of_add? hs hc)⟩
    have hlines : s.introduced?.toList ++ ss.filterMap Statement.introduced? =
        (s :: ss).filterMap Statement.introduced? := by
      cases hname : s.introduced? <;> simp [hname]
    rw [← hlines, ← List.append_assoc]
    exact hperm.trans ((perm_names_of_add? hs).append_right _)

/-- In a file that is read as a circuit, no name is introduced twice. -/
theorem nodup_of_ofStatements? (h : ofStatements? ss = some c) :
    (ss.filterMap Statement.introduced?).Nodup := by
  obtain ⟨hperm, hnodup⟩ := names_of_foldlM_add? h
  exact hperm.nodup_iff.mp (hnodup List.nodup_nil)

/-- In a file that is read as a circuit, operands are introduced on earlier lines. -/
theorem introduced_of_ofStatements? {before after : List Statement} {name kind : String}
    {operands : List String}
    (h : ofStatements? (before ++ .define name kind operands :: after) = some c) :
    ∀ o ∈ operands, ∃ s ∈ before, s.introduced? = some o := by
  rw [ofStatements?, List.foldlM_append] at h
  obtain ⟨c₁, hbefore, h⟩ := Option.bind_eq_some_iff.mp h
  rw [List.foldlM_cons] at h
  obtain ⟨c₂, hadd, -⟩ := Option.bind_eq_some_iff.mp h
  obtain ⟨_, ⟨⟩, -⟩ | ⟨_, ⟨⟩, -⟩ | ⟨_, _, _, _, ⟨⟩, -, hoperands, -⟩ := add?_cases hadd
  intro o ho
  exact List.mem_filterMap.mp ((names_of_foldlM_add? hbefore).1.mem_iff.mp (hoperands o ho))

/-! ## Definitions in order -/

/-- Whether definitions introduce new names, over names that are known or come before. -/
def Ordered : List String → List Definition → Prop
  | _, [] => True
  | known, d :: ds =>
    d.name ∉ known ∧ (∀ o ∈ d.operands, o ∈ known) ∧ Ordered (known ++ [d.name]) ds

theorem foldlM_add?_inputs {xs : List String} (hnodup : (c.inputs ++ xs).Nodup)
    (hnone : c.definitions = []) :
    (xs.map Statement.input).foldlM add? c = some { c with inputs := c.inputs ++ xs } := by
  induction xs generalizing c with
  | nil => simp
  | cons x xs ih =>
    have hx : x ∉ c.names := by
      rw [names, hnone, List.map_nil, List.append_nil]
      intro hmem
      exact (List.nodup_append.mp hnodup).2.2 x hmem x List.mem_cons_self rfl
    rw [List.append_cons] at hnodup
    rw [List.map_cons, List.foldlM_cons, add?, if_neg hx, Option.bind_eq_bind, Option.bind_some,
      ih (c := { c with inputs := c.inputs ++ [x] }) hnodup hnone, ← List.append_cons]

theorem foldlM_add?_outputs (xs : List String) :
    (xs.map Statement.output).foldlM add? c = some { c with outputs := c.outputs ++ xs } := by
  induction xs generalizing c with
  | nil => simp
  | cons x xs ih =>
    rw [List.map_cons, List.foldlM_cons, add?, Option.bind_eq_bind, Option.bind_some, ih,
      ← List.append_cons]

theorem foldlM_add?_definitions {ds : List Definition}
    (hknown : ∀ d ∈ ds, d.primitive ∈ Primitive.all) (hord : Ordered c.names ds) :
    (ds.map Definition.statement).foldlM add? c =
      some { c with definitions := c.definitions ++ ds } := by
  induction ds generalizing c with
  | nil => simp
  | cons d ds ih =>
    obtain ⟨hnew, hoperands, hord⟩ := hord
    rw [List.forall_mem_cons] at hknown
    have hadd : c.add? d.statement = some { c with definitions := c.definitions ++ [d] } := by
      rw [Definition.statement, add?, Primitive.ofName?_name _ hknown.1, Option.bind_eq_bind,
        Option.bind_some, if_pos ⟨hnew, hoperands⟩]
    rw [List.map_cons, List.foldlM_cons, hadd, Option.bind_eq_bind, Option.bind_some, ih hknown.2,
      ← List.append_cons]
    rwa [names, List.map_append, ← List.append_assoc]

/-- Lines in order are read as what they are lines of. -/
theorem ofStatements?_statements (hnodup : c.inputs.Nodup)
    (hknown : ∀ d ∈ c.definitions, d.primitive ∈ Primitive.all)
    (hord : Ordered c.inputs c.definitions) :
    ofStatements? (c.inputs.map Statement.input ++ c.outputs.map Statement.output ++
      c.definitions.map Definition.statement) = some c := by
  rw [ofStatements?, List.foldlM_append, List.foldlM_append,
    foldlM_add?_inputs (c := empty) hnodup rfl, Option.bind_eq_bind, Option.bind_some,
    foldlM_add?_outputs, Option.bind_some, foldlM_add?_definitions hknown]
  · rfl
  · simpa [names, empty] using hord

/-! ## Words that agree with the definitions -/

variable {v : String → UInt64} {known : List String} {ds : List Definition}

theorem lookup_known {o : String} (h : o ∈ known) :
    (known.map fun name => (name, v name)).lookup o = some (v o) :=
  List.lookup_graph v h

theorem foldlM_define? (hord : Ordered known ds)
    (hv : ∀ d ∈ ds, d.primitive.eval? (d.operands.map v) = some (v d.name)) :
    ds.foldlM define? (known.map fun name => (name, v name)) =
      some ((known ++ ds.map Definition.name).map fun name => (name, v name)) := by
  induction ds generalizing known with
  | nil => simp
  | cons d ds ih =>
    obtain ⟨-, hoperands, hord⟩ := hord
    rw [List.forall_mem_cons] at hv
    -- the operands are known, so the words found for them are those given
    have hws : (d.operands.mapM fun o => (known.map fun name => (name, v name)).lookup o) =
        some (d.operands.map v) :=
      Option.mapM_eq_some_map fun o ho => lookup_known (hoperands o ho)
    have hstep : define? (known.map fun name => (name, v name)) d =
        some ((known ++ [d.name]).map fun name => (name, v name)) := by
      rw [define?, hws, Option.bind_eq_bind, Option.bind_some, hv.1]
      simp
    rw [List.foldlM_cons, hstep, Option.bind_eq_bind, Option.bind_some, ih hord hv.2,
      List.map_cons, ← List.append_cons]

/-- A circuit in order has the words that agree with its definitions. -/
theorem simulate?_eq (hord : Ordered c.inputs c.definitions)
    (hv : ∀ d ∈ c.definitions, d.primitive.eval? (d.operands.map v) = some (v d.name))
    (houtputs : ∀ o ∈ c.outputs, o ∈ c.names) :
    c.simulate? (c.inputs.map v) = some (c.outputs.map v) := by
  rw [simulate?, if_pos (List.length_map _), ← List.map_prod_left_eq_zip, foldlM_define? hord hv,
    Option.bind_eq_bind, Option.bind_some]
  exact Option.mapM_eq_some_map fun o ho => lookup_known (houtputs o ho)

end Circuit

end LogicSchematic.Bench
