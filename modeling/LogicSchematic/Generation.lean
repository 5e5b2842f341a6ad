import LogicSchematic.Config
import LogicSchematic.Netlist.Builder
import LogicSchematic.Schematic

/-!
# Runs

From a text of equations to a netlist and a schematic. A run is all or nothing: the first error ends
it. An empty gate set is refused before the text is looked at, and all lines are read before the
first one is synthesized.
-/
namespace LogicSchematic

/-- Why a run gives nothing. -/
inductive RunError where
  /-- No gate is allowed. -/
  | emptyGateSet
  /-- A line is no equation. -/
  | parse (line : Nat) (cause : ParseError)
  /-- The equation of a line cannot be built. -/
  | synthesis (line : Nat) (cause : SynthesisError)
  /-- The netlist is not consistent. -/
  | fault (cause : NetlistFault)
  deriving DecidableEq, Repr

namespace RunError

/-- A message about a line. -/
def atLine (line : Nat) (message : String) : String :=
  "line " ++ Nat.repr line ++ ": " ++ message

/-- The text of an error. -/
def message : RunError → String
  | .emptyGateSet => "at least one gate kind must be allowed"
  | .parse line cause => atLine line cause.message
  | .synthesis line cause => atLine line cause.message
  | .fault cause => cause.message

/-- The error of a line that is no equation. -/
def ofLine (e : Equation.LineError) : RunError := .parse e.line e.cause

/-- The error of an equation that cannot be built. -/
def ofBuild (line : Nat) : BuildError → RunError
  | .synthesis cause => .synthesis line cause
  | .fault cause => .fault cause

end RunError

/-- Adds the equations of lines in turn; the number of the first is `group`. -/
def addLines (s : Synthesizer) (b : NetlistBuilder) (group : Nat) :
    List (Nat × Equation) → Except RunError NetlistBuilder
  | [] => .ok b
  | (line, e) :: rest => do
    let (_, b) ← (b.addEquation s e group).mapError (RunError.ofBuild line)
    addLines s b (group + 1) rest

/-- The netlist of the equations of lines. -/
def netlistOfLines (s : Synthesizer) (lines : List (Nat × Equation)) : Except RunError Netlist := do
  let b := NetlistBuilder.announce (lines.map fun (_, e) => e.expr)
  let b ← addLines s b 0 lines
  b.finish.mapError RunError.fault

variable {α : Type}

/-- The equations of a text, and their netlist. -/
def synthesize (config : Config α) (text : String) :
    Reading RunError (List Equation × Netlist) := do
  if config.gates.isEmpty then
    Reading.fail .emptyGateSet
  else
    let lines ← (Equation.parseAll config.strict text).mapError RunError.ofLine
    let net ← Reading.ofExcept (netlistOfLines config.synthesizer lines)
    return (lines.map Prod.snd, net)

/-- The schematic of a netlist, with the usual symbols. -/
def Netlist.schematic [Scalar α] (config : Config α) (net : Netlist) : Schematic α :=
  Schematic.ofNetlist net config.placement config.routing standardPins

/-- The schematic of a text of equations. -/
def generate [Scalar α] (config : Config α) (text : String) : Reading RunError (Schematic α) := do
  let (_, net) ← synthesize config text
  return net.schematic config

end LogicSchematic
