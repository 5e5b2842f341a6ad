import LogicSchematic.Netlist

/-!
# Netlists as .bench files

The text form of the ISCAS benchmarks: `INPUT(A)` and `OUTPUT(Y)` declare inputs and outputs, and
`n2 = NAND(A, B)` defines a signal. Inputs and outputs are named after their labels, in which every
character but letters, digits and underscores is replaced; gates are named after their numbers. An
output is a buffer behind its driver.
-/
namespace LogicSchematic.Bench

/-- Whether a character may stand in a name. -/
def isSafe (c : Char) : Bool := c.isAlphanum || c == '_'

/-- A label as a name; other characters are replaced by underscores. -/
def safeName (label : String) : String :=
  String.ofList (label.toList.map fun c => if isSafe c then c else '_')

/-- The name of the signal of a node: an input with a label has it as its name. -/
def signalName (net : Netlist) (id : NodeId) : String :=
  match net.nodes[id]? with
  | some ⟨.input, _, _, _, some label⟩ => safeName label
  | _ => nodeName id

/-- The name of a gate; the number of operands tells the wide gate apart. -/
def gateName : Gate → String
  | .nand4 => Gate.name .nand
  | g => g.name

/-- The name of an output. -/
def outputName (n : Node) : String :=
  safeName (n.label.getD "")

/-- A call on a line of its own. -/
def call (name : String) (arguments : List String) : String :=
  name ++ "(" ++ ", ".intercalate arguments ++ ")\n"

/-- The line that defines a node; inputs have none. -/
def definition (net : Netlist) (id : NodeId) (n : Node) : String :=
  let drivers := n.children.map (signalName net)
  match n.kind with
  | .input => ""
  | .gate g => nodeName id ++ " = " ++ call (gateName g) drivers
  | .output => outputName n ++ " = " ++ call "BUF" drivers

/-- The text of a netlist. -/
def text (net : Netlist) : String :=
  let outputs := net.outputs.toList.filterMap (net.nodes[·]?)
  "# .bench (ISCAS) file\n# Generated by gatemap\n" ++
    String.join (net.inputs.toList.map fun id => call "INPUT" [signalName net id]) ++ "\n" ++
    String.join (outputs.map fun n => call "OUTPUT" [outputName n]) ++ "\n" ++
    String.join (net.nodes.toList.zipIdx.map fun (n, id) => definition net id n)

theorem isSafe_of_mem_safeName {label : String} {c : Char} (h : c ∈ (safeName label).toList) :
    isSafe c = true := by
  simp only [safeName, String.toList_ofList, List.mem_map] at h
  obtain ⟨d, -, rfl⟩ := h
  split
  · assumption
  · decide

end LogicSchematic.Bench
