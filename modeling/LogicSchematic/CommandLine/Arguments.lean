import LogicSchematic.GateSet

/-!
# Arguments

The command line is a command with its switches and one file. Arguments are first read into items,
each for itself; the items are then taken in order, and the first one that cannot be taken, or that
asks for help or the version, ends it. What contradicts itself only as a whole, such as two switches
that exclude each other or a missing file, is found last.

A switch is written with two dashes and its name, or with one dash and its letter, where it has one;
letters may share a dash. A value follows after an equality sign, after a letter directly, or as the
next argument, which must not begin with a dash then. After `--` nothing is a switch; `items_mark`
puts it so.
-/
namespace LogicSchematic.CommandLine

/-- The commands. -/
inductive CommandName where
  | generate
  | statistics
  | check
  deriving DecidableEq, Repr

/-- The word of a command. -/
def CommandName.word : CommandName → String
  | .generate => "generate"
  | .statistics => "show"
  | .check => "check"

/-- The command of a word; one has a short word too. -/
def CommandName.ofWord? : String → Option CommandName
  | "generate" | "gen" => some .generate
  | "show" => some .statistics
  | "check" => some .check
  | _ => none

/-- The switches of all commands. -/
inductive Switch where
  | verbose
  | quiet
  | help
  | version
  | gates
  | config
  | strict
  | output
  | bench
  | nodes
  | seed
  deriving DecidableEq, Repr

namespace Switch

/-- The name of a switch. -/
def name : Switch → String
  | .verbose => "verbose"
  | .quiet => "quiet"
  | .help => "help"
  | .version => "version"
  | .gates => "gates"
  | .config => "config"
  | .strict => "strict"
  | .output => "output"
  | .bench => "bench"
  | .nodes => "nodes"
  | .seed => "seed"

/-- The letter of a switch. -/
def letter? : Switch → Option Char
  | .verbose => some 'v'
  | .quiet => some 'q'
  | .help => some 'h'
  | .version => some 'V'
  | .gates => some 'g'
  | .config => some 'c'
  | .output => some 'o'
  | .strict | .bench | .nodes | .seed => none

/-- Whether a switch has a value. -/
def hasValue : Switch → Bool
  | .gates | .config | .output | .bench | .seed => true
  | _ => false

/-- The switches that may stand before the command, and also after it. -/
def global : List Switch := [.verbose, .quiet, .help, .version]

end Switch

/-- The switches of a command. -/
def CommandName.switches (c : CommandName) : List Switch :=
  [.gates, .config, .strict] ++ Switch.global ++ match c with
    | .generate => [.output, .bench]
    | .statistics => [.nodes]
    | .check => [.seed]

/-- What an argument, or a part of one, may be. -/
inductive Item where
  /-- A word that is no switch. -/
  | word (text : String)
  /-- A switch and its value; a missing value is seen when the item is taken. -/
  | switch (s : Switch) (value : Option String)
  /-- The mark after which nothing is a switch. -/
  | mark
  /-- A switch that is not known, or has a value that it should not have. -/
  | unknown
  deriving DecidableEq, Repr

/-- Whether an argument is a word by its form: a dash alone is one. -/
def isWord (argument : String) : Bool :=
  argument.toList.head? ≠ some '-' || argument = "-"

/-- What an argument comes to: its items, of which the last may be a switch that still lacks its
value. -/
structure ArgumentItems where
  items : List Item
  waiting : Option Switch

/-- Reads a switch that is written by name. -/
def readNamed (known : List Switch) (text : List Char) : ArgumentItems :=
  let (name, value) := match Text.splitFirst? '=' text with
    | some (name, value) => (name, some (String.ofList value))
    | none => (text, none)
  match known.find? (·.name.toList == name), value with
  | some s, some value => ⟨[if s.hasValue then .switch s (some value) else .unknown], none⟩
  | some s, none => if s.hasValue then ⟨[], some s⟩ else ⟨[.switch s none], none⟩
  | none, _ => ⟨[.unknown], none⟩

/-- A value that follows its letter directly, or after an equality sign. -/
def attachedValue : List Char → String
  | '=' :: value => String.ofList value
  | value => String.ofList value

/-- Reads switches that are written by their letters. -/
def readLetters (known : List Switch) : List Char → ArgumentItems
  | [] => ⟨[], none⟩
  | c :: rest =>
    match known.find? (·.letter? == some c) with
    | some s =>
      if s.hasValue then
        if rest = [] then ⟨[], some s⟩ else ⟨[.switch s (some (attachedValue rest))], none⟩
      else
        let ⟨items, waiting⟩ := readLetters known rest
        ⟨.switch s none :: items, waiting⟩
    | none => ⟨[.unknown], none⟩

/-- Reads an argument that is no word and not the mark. -/
def readSwitches (known : List Switch) (argument : String) : ArgumentItems :=
  match argument.toList with
  | '-' :: '-' :: name => readNamed known name
  | '-' :: letters => readLetters known letters
  | _ => ⟨[.unknown], none⟩

/-- The items that arguments come to. -/
def items (known : List Switch) : List String → List Item
  | [] => []
  | argument :: rest =>
    if argument = "--" then .mark :: rest.map .word
    else if isWord argument then .word argument :: items known rest
    else
      let read := readSwitches known argument
      match read.waiting with
      | none => read.items ++ items known rest
      | some s =>
        match rest with
        | [] => read.items ++ [.switch s none]
        | value :: others =>
          if isWord value then read.items ++ .switch s (some value) :: items known others
          else read.items ++ .switch s none :: items known (value :: others)

/-- What a switch sets. -/
inductive Setting where
  /-- A switch without value. -/
  | on (s : Switch)
  | gates (set : GateSet)
  | config (path : String)
  | output (path : String)
  | bench (path : String)
  | seed (n : UInt64)

/-- The switch of a setting. -/
def Setting.switch : Setting → Switch
  | .on s => s
  | .gates _ => .gates
  | .config _ => .config
  | .output _ => .output
  | .bench _ => .bench
  | .seed _ => .seed

/-- The number that digits stand for, if they are digits. -/
def digits? : List Char → Option Nat
  | [] => none
  | cs => if cs.all Char.isDigit then some (Nat.ofDigitChars 10 cs 0) else none

/-- A number of 64 bits, with or without a plus sign. -/
def word64? (text : String) : Option UInt64 := do
  let digits := match text.toList with
    | '+' :: digits => digits
    | digits => digits
  let n ← digits? digits
  if n < UInt64.size then return n.toUInt64 else none

/-- A path, which must not be empty. -/
def path? (text : String) : Option String :=
  if text = "" then none else some text

/-- The setting of a switch with its value. -/
def Setting.ofSwitch? : Switch → Option String → Option Setting
  | .gates, some v => (GateSet.ofText? v).toOption.map .gates
  | .config, some v => (path? v).map .config
  | .output, some v => (path? v).map .output
  | .bench, some v => (path? v).map .bench
  | .seed, some v => (word64? v).map .seed
  | s, none => if s.hasValue then none else some (.on s)
  | _, some _ => none

/-- Why arguments name nothing to run. -/
inductive Stop where
  /-- They are not understood. -/
  | misuse
  /-- They ask for help. -/
  | help
  /-- They ask for the version, of a command or of the whole. -/
  | version (c : Option CommandName)
  deriving DecidableEq, Repr

/-- The items taken so far. -/
structure Given where
  file : Option String
  /-- What is set, the last one first. -/
  settings : List Setting

namespace Given

/-- No item taken. -/
def empty : Given := ⟨none, []⟩

/-- Whether a switch is set. -/
def has (g : Given) (s : Switch) : Bool :=
  g.settings.any (·.switch == s)

/-- The value of a setting, if there is one. -/
def value? {α : Type} (g : Given) (f : Setting → Option α) : Option α :=
  g.settings.findSome? f

/-- Takes what a switch sets. A switch is given once, unless it counts. -/
def set (g : Given) (s : Switch) (value : Option String) : Except Stop Given :=
  if s ≠ .verbose ∧ g.has s then .error .misuse
  else
    match Setting.ofSwitch? s value with
    | some setting => .ok { g with settings := setting :: g.settings }
    | none => .error .misuse

/-- Takes an item that stands before the command. -/
def takeGlobal (g : Given) : Item → Except Stop Given
  | .switch .help _ => .error .help
  | .switch .version _ => .error (.version none)
  | .switch s value => g.set s value
  | .word _ | .mark | .unknown => .error .misuse

/-- Takes an item that stands after the command. The one word is the file. -/
def take (c : CommandName) (g : Given) : Item → Except Stop Given
  | .word text =>
    match g.file with
    | some _ => .error .misuse
    | none => if text = "" then .error .misuse else .ok { g with file := some text }
  | .switch .help _ => .error .help
  | .switch .version _ => .error (.version (some c))
  | .switch s value => g.set s value
  | .mark => .ok g
  | .unknown => .error .misuse

/-- Refuses switches that exclude each other. -/
def checkConflicts (g : Given) : Except Stop Unit :=
  if g.has .quiet ∧ g.has .verbose then .error .misuse else .ok ()

end Given

/-- A command and what only it is told. -/
inductive Command where
  /-- Writes the schematic, to a file or else to the output, and the netlist if asked to. -/
  | generate (output bench : Option String)
  /-- Prints the statistics of the netlist, and its nodes if asked to. -/
  | statistics (nodes : Bool)
  /-- Checks the netlist against its equations. -/
  | check (seed : UInt64)
  deriving DecidableEq, Repr

/-- A command with its file and what all commands are told. -/
structure Invocation where
  command : Command
  /-- The file of equations. -/
  file : String
  gates : Option GateSet
  /-- The file of the configuration. -/
  config : Option String
  strict : Bool
  /-- Whether warnings are left out. -/
  quiet : Bool

/-- The seed of random patterns when none is given. -/
def standardSeed : UInt64 := 1

/-- The command that items name. -/
def Given.command (g : Given) : CommandName → Command
  | .generate =>
    .generate (g.value? fun | .output path => some path | _ => none)
      (g.value? fun | .bench path => some path | _ => none)
  | .statistics => .statistics (g.has .nodes)
  | .check => .check ((g.value? fun | .seed n => some n | _ => none).getD standardSeed)

/-- The invocation of a command with arguments. -/
def parseCommand (c : CommandName) (arguments : List String) : Except Stop Invocation := do
  let g ← (items c.switches arguments).foldlM (Given.take c) Given.empty
  g.checkConflicts
  match g.file with
  | some file =>
    return {
      command := g.command c
      file
      gates := g.value? fun | .gates set => some set | _ => none
      config := g.value? fun | .config path => some path | _ => none
      strict := g.has .strict
      quiet := g.has .quiet }
  | none => throw .misuse

/-- What a request for help comes to: it names one command at most, or itself. -/
def parseHelp : List String → Stop
  | [] => .help
  | [word] => if (CommandName.ofWord? word).isSome ∨ word = "help" then .help else .misuse
  | _ => .misuse

/-- The invocation that arguments name. -/
def parse (arguments : List String) : Except Stop Invocation := do
  let (before, rest) := arguments.span (!isWord ·)
  let g ← (items Switch.global before).foldlM Given.takeGlobal Given.empty
  match rest with
  | [] => throw .misuse
  | word :: arguments =>
    match CommandName.ofWord? word with
    | some c =>
      let i ← parseCommand c arguments
      g.checkConflicts
      return { i with quiet := i.quiet || g.has .quiet }
    | none => throw (if word = "help" then parseHelp arguments else .misuse)

/-- After the mark every argument is a word. -/
theorem items_mark (known : List Switch) (rest : List String) :
    items known ("--" :: rest) = .mark :: rest.map .word := by
  rw [items, if_pos rfl]

/-- A setting is that of the switch it was read from. -/
theorem Setting.switch_of_ofSwitch? {s : Switch} {value : Option String} {setting : Setting}
    (h : Setting.ofSwitch? s value = some setting) : setting.switch = s := by
  unfold Setting.ofSwitch? at h
  split at h
  · obtain ⟨_, -, rfl⟩ := Option.map_eq_some_iff.mp h
    rfl
  · obtain ⟨_, -, rfl⟩ := Option.map_eq_some_iff.mp h
    rfl
  · obtain ⟨_, -, rfl⟩ := Option.map_eq_some_iff.mp h
    rfl
  · obtain ⟨_, -, rfl⟩ := Option.map_eq_some_iff.mp h
    rfl
  · obtain ⟨_, -, rfl⟩ := Option.map_eq_some_iff.mp h
    rfl
  · split at h
    · cases h
    · cases h
      rfl
  · cases h

/-- A switch that is set stays set. -/
theorem Given.has_of_set {g g' : Given} {s : Switch} {value : Option String}
    (h : g.set s value = .ok g') (t : Switch) : g'.has t = (s == t || g.has t) := by
  unfold Given.set at h
  split at h
  · cases h
  · split at h
    · rename_i setting hs
      cases h
      simp [Given.has, Setting.switch_of_ofSwitch? hs]
    · cases h

end LogicSchematic.CommandLine
