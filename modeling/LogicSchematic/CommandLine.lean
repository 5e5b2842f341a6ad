import LogicSchematic.CommandLine.Arguments
import LogicSchematic.CommandLine.Log
import LogicSchematic.Config.Json
import LogicSchematic.Equivalence
import LogicSchematic.Files
import LogicSchematic.Generation
import LogicSchematic.Netlist.Stats

/-!
# Runs from the command line

A run reads the configuration and the equations, synthesizes, and does what its command says. It is
an action over the access to files that it is given, and collects what it prints and what it logs;
an error ends it and is logged last. What was printed and written before stays.
-/
namespace LogicSchematic.CommandLine

/-- The name of the program, with which it gives its version. -/
def programName : String := "gatemap"

/-- The version of the program. -/
def versionNumber : String := "0.1.0"

/-- The version of a command or of the whole. -/
def versionText : Option CommandName → String
  | some c => programName ++ "-" ++ c.word ++ " " ++ versionNumber ++ "\n"
  | none => programName ++ " " ++ versionNumber ++ "\n"

/-- How the program is called. -/
def helpText : String :=
  "Usage: " ++ programName ++ " [-v]... [-q] <generate|show|check> [OPTIONS] <FILE>\n\n" ++
    "All commands: -g, --gates <GATES>; -c, --config <CONFIG>; --strict\n" ++
    "generate: -o, --output <OUTPUT>; --bench <BENCH>\n" ++
    "show: --nodes\n" ++
    "check: --seed <SEED>\n"

/-- Why a run fails. -/
inductive Failure where
  /-- A file is not read or written. -/
  | file (cause : FileError)
  /-- The configuration is not understood. -/
  | configuration
  /-- The equations have no netlist. -/
  | run (cause : RunError)
  /-- The netlist cannot be simulated. -/
  | simulation (cause : SimulationError)

/-- The text of a failure. -/
def Failure.message : Failure → String
  | .file cause => cause.message
  | .configuration => "invalid configuration"
  | .run cause => cause.message
  | .simulation cause => cause.message

/-- What a run has shown so far. -/
structure Shown where
  /-- What is printed. -/
  output : String
  warnings : List Defect

/-- A step of a run: it may fail, and shows something on the way. -/
abbrev Run (m : Type → Type) := ExceptT Failure (StateT Shown m)

variable {m : Type → Type} [Monad m]

/-- Prints a text. -/
def print (text : String) : Run m Unit :=
  modify fun shown => { shown with output := shown.output ++ text }

/-- Notes the defects of equations. -/
def warn (defects : List Defect) : Run m Unit :=
  modify fun shown => { shown with warnings := shown.warnings ++ defects }

/-- Goes on with an outcome. -/
def accept {ε α : Type} (failure : ε → Failure) (outcome : Except ε α) : Run m α :=
  match outcome with
  | .ok a => return a
  | .error e => throw (failure e)

/-- Reaches files. -/
def reach {α : Type} (action : m (Except FileError α)) : Run m α := do
  accept .file (← (action : StateT Shown m _))

/-- Reads a configuration. What can be opened but not read as a configuration is not understood. -/
def readConfig (files : FileAccess m) (path : String) : Run m (Config Float) := do
  match ← (files.read path : StateT Shown m _) with
  | .ok bytes =>
    match Config.ofJson? bytes with
    | some config => return config
    | none => throw .configuration
  | .error .isDirectory => throw .configuration
  | .error e => throw (.file e)

/-- The configuration of an invocation: that of its file or the usual one, with the changes that its
switches make. -/
def configOf (files : FileAccess m) (i : Invocation) : Run m (Config Float) := do
  let config ← match i.config with
    | some path => readConfig files path
    | none => pure Config.standard
  return { config with
    gates := i.gates.getD config.gates
    strict := config.strict || i.strict }

/-- The netlist of the equations of an invocation. -/
def netlistOf (files : FileAccess m) (config : Config Float) (i : Invocation) :
    Run m (List Equation × Netlist) := do
  let text ← reach (files.readText i.file)
  let reading := synthesize config text
  warn reading.defects
  accept .run reading.result

/-- Writes a schematic, and the netlist if there is a path for it. -/
def writeResults (files : FileAccess m) (schematic : Schematic Float) (net : Netlist)
    (output bench : Option String) : Run m Unit := do
  match output with
  | some path => reach (files.writeSchematic path schematic)
  | none => print schematic.json
  match bench with
  | some path => reach (files.writeNetlist path net)
  | none => return

/-- Prints the statistics of a netlist, and its nodes if asked to. -/
def printNetlist (net : Netlist) (nodes : Bool) : Run m Unit := do
  print ("Netlist stats:\n" ++ net.stats.text ++ "\n")
  if nodes then
    print (net.text ++ "\n")

/-- Checks a netlist and tells whether it matches its equations. -/
def printCheck (equations : List Equation) (net : Netlist) (seed : UInt64) : Run m Bool := do
  match ← accept .simulation (net.checkEquivalence equations seed) with
  | none =>
    print "Netlist matches the equations\n"
    return true
  | some c =>
    print ("Netlist does not match the equations: " ++ c.message ++ "\n")
    return false

/-- Does what an invocation says and tells whether all is well. -/
def perform (files : FileAccess m) (i : Invocation) : Run m Bool := do
  let config ← configOf files i
  let (equations, net) ← netlistOf files config i
  match i.command with
  | .generate output bench =>
    writeResults files (net.schematic config) net output bench
    return true
  | .statistics nodes =>
    printNetlist net nodes
    return true
  | .check seed => printCheck equations net seed

/-- What a run leaves, besides files. -/
structure Outcome where
  code : Nat
  output : String
  log : List String
  deriving DecidableEq, Repr

/-- The lines of the log: the warnings, unless they are left out, and the error that ended the
run. -/
def logLines (quiet : Bool) (warnings : List Defect) (failure : Option Failure) : List String :=
  (if quiet then [] else warnings.map fun d => warningLine d.message) ++
    failure.toList.map fun f => errorLine f.message

/-- The outcome of arguments that name nothing to run. -/
def Stop.outcome : Stop → Outcome
  | .misuse => ⟨2, "", []⟩
  | .help => ⟨0, helpText, []⟩
  | .version c => ⟨0, versionText c, []⟩

/-- Runs the program with arguments. -/
def run (files : FileAccess m) (arguments : List String) : m Outcome := do
  match parse arguments with
  | .error stop => return stop.outcome
  | .ok i =>
    let (result, shown) ← (perform files i).run.run ⟨"", []⟩
    match result with
    | .ok good => return ⟨if good then 0 else 1, shown.output, logLines i.quiet shown.warnings none⟩
    | .error failure =>
      return ⟨1, shown.output, logLines i.quiet shown.warnings (some failure)⟩

/-- Arguments that name nothing to run touch no file. -/
theorem run_of_stop [LawfulMonad m] (files : FileAccess m) {arguments : List String} {stop : Stop}
    (h : parse arguments = .error stop) : run files arguments = pure stop.outcome := by
  simp [run, h]

end LogicSchematic.CommandLine
