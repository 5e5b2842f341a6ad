import LogicSchematic.Files

/-!
# Directories in memory

A directory that holds files and nothing else: what a path with more than one step down leads to
does not exist. The directories above exist, up to the root, but nothing is known of what they hold;
what is written there is kept beside the files of the directory. The null device is read as empty,
and forgets what is written to it. `read_write` says that a file that was written is read back.
-/
namespace LogicSchematic

/-- The files of a directory, and those that were written above it, by name. The name of a file
above the directory begins with the steps that lead up, or with the slash of the root. -/
structure Directory where
  files : List (String × Bytes)
  deriving DecidableEq, Repr

namespace Directory

/-- What a path leads to in a directory. -/
inductive Place where
  /-- A directory that exists. -/
  | directory
  /-- A file, which may exist. The path may end in a slash. -/
  | file (name : String) (slash : Bool)
  /-- A file with a name that no file can have. The path may end in a slash. -/
  | overlong (slash : Bool)
  /-- Something below a file or directory of this name. -/
  | below (name : String)
  /-- The null device. -/
  | nullDevice
  deriving DecidableEq, Repr

/-- What the steps of a path lead to. They begin at the root if the path is absolute, and `last` is
what follows the last slash of the path. Steps up are taken first. -/
def placeOf (absolute : Bool) (last : List Char) (steps : List (List Char)) :
    Except FileError Place :=
  let up := steps.takeWhile (· = ['.', '.'])
  match steps.dropWhile (· = ['.', '.']) with
  | [] => return .directory
  | step :: rest =>
    let start := if absolute then [""] else up.map String.ofList
    let name := "/".intercalate (start ++ [String.ofList step])
    if absolute ∧ last ≠ [] ∧ (step :: rest).map String.ofList = ["dev", "null"] then
      return .nullDevice
    else if rest ≠ [] ∨ last = ['.'] then
      if Path.isOverlong step then .error .nameTooLong else return .below name
    else if Path.isOverlong step then return .overlong (last = [])
    else return .file name (last = [])

/-- What a path leads to. Its characters and its length are looked at first. -/
def locate (path : String) : Except FileError Place :=
  let pieces := Text.split '/' path.toList
  if '\x00' ∈ path.toList then .error .nulInName
  else if Path.maxPathBytes < path.utf8ByteSize then .error .nameTooLong
  else if path = "" then .error .notFound
  else placeOf (pieces.head? = some []) (pieces.getLast?.getD []) (Path.steps path)

/-- The bytes of a file. -/
def get? (d : Directory) (name : String) : Option Bytes := d.files.lookup name

/-- Gives a file new bytes; it is made if it is not there yet. -/
def put (d : Directory) (name : String) (bytes : Bytes) : Directory :=
  ⟨(name, bytes) :: d.files.filter (·.1 ≠ name)⟩

/-- The files of the directory itself. -/
def inside (d : Directory) : List (String × Bytes) :=
  d.files.filter fun (name, _) => '/' ∉ name.toList

/-- Why what lies below a name cannot be reached. -/
def belowError (d : Directory) (name : String) : FileError :=
  if (d.get? name).isSome then .notDirectory else .notFound

/-- Reads a file. -/
def read (d : Directory) (path : String) : Except FileError Bytes :=
  match locate path with
  | .error e => .error e
  | .ok .directory => .error .isDirectory
  | .ok .nullDevice => .ok []
  | .ok (.below name) => .error (d.belowError name)
  | .ok (.overlong _) => .error .nameTooLong
  | .ok (.file name slash) =>
    match d.get? name with
    | some bytes => if slash then .error .notDirectory else .ok bytes
    | none => .error .notFound

/-- Writes a file. -/
def write (d : Directory) (path : String) (text : String) : Except FileError Directory :=
  match locate path with
  | .error e => .error e
  | .ok .directory => .error .isDirectory
  | .ok .nullDevice => .ok d
  | .ok (.below name) => .error (d.belowError name)
  | .ok (.overlong slash) => .error (if slash then .isDirectory else .nameTooLong)
  | .ok (.file name slash) =>
    if slash then .error .isDirectory else .ok (d.put name text.toUTF8.toList)

/-- Access to the files of a directory that is passed along. -/
def access : FileAccess (StateM Directory) where
  read path := return (← get).read path
  write path text := do
    match (← get).write path text with
    | .ok d =>
      set d
      return .ok ()
    | .error e => return .error e

theorem read_write {d d' : Directory} {path text : String} (h : d.write path text = .ok d')
    (hn : locate path ≠ .ok .nullDevice) : d'.read path = .ok text.toUTF8.toList := by
  unfold write at h
  unfold read
  split at h
  · cases h
  · cases h
  · exact absurd ‹_› hn
  · cases h
  · cases h
  · split at h
    · cases h
    · cases h
      simp_all [get?, put]

end Directory

end LogicSchematic
