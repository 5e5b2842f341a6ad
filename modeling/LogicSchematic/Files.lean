import LogicSchematic.Netlist.Bench
import LogicSchematic.Schematic.Json
import LogicSchematic.Text.Split

/-!
# Files

Reading texts and writing netlists and schematics. Files are reached through two operations that a
caller provides, so that the same code works on a file system and on a `Directory` in memory.
-/
namespace LogicSchematic

/-- Why a file is not read or written. -/
inductive FileError where
  /-- There is no such file, or no directory for it. -/
  | notFound
  /-- The path is that of a directory. -/
  | isDirectory
  /-- The path leads through a file. -/
  | notDirectory
  /-- The path, or one of the names in it, has more bytes than a file system takes. -/
  | nameTooLong
  /-- The path has a NUL character in it, which no file system takes. -/
  | nulInName
  /-- The bytes of the file are no text. -/
  | notText
  /-- The extension of the name is that of no known format. -/
  | unknownExtension (extension : String)
  /-- The name has no extension. -/
  | noExtension
  /-- Another reason, in words. -/
  | other (reason : String)
  deriving DecidableEq, Repr

/-- The text of a file error. -/
def FileError.message (e : FileError) : String :=
  "IO error: " ++ match e with
    | .notFound => "No such file or directory (os error 2)"
    | .isDirectory => "Is a directory (os error 21)"
    | .notDirectory => "Not a directory (os error 20)"
    | .nameTooLong => "File name too long (os error 36)"
    | .nulInName => "file name contained an unexpected NUL byte"
    | .notText => "stream did not contain valid UTF-8"
    | .unknownExtension extension => "unknown extension " ++ extension
    | .noExtension => "no extension given"
    | .other reason => reason

/-- The bytes of a file. -/
abbrev Bytes := List UInt8

/-- How files are read and written. -/
structure FileAccess (m : Type → Type) where
  read : String → m (Except FileError Bytes)
  write : String → String → m (Except FileError Unit)

namespace Path

/-- The most bytes that a path has. -/
def maxPathBytes : Nat := 4095

/-- The most bytes that a name in a path has. -/
def maxNameBytes : Nat := 255

/-- Whether a name has more bytes than the name of a file. -/
def isOverlong (name : List Char) : Bool :=
  maxNameBytes < (String.ofList name).utf8ByteSize

/-- The steps of a path: what stands between slashes, without empty steps and steps that stay. -/
def steps (path : String) : List (List Char) :=
  (Text.split '/' path.toList).filter fun step => step ≠ [] ∧ step ≠ ['.']

/-- The extension of a file name: what follows its last point, unless the name begins there. -/
def extensionOf? (name : List Char) : Option String :=
  let reversed := name.reverse
  match Text.splitFirst? '.' reversed with
  | some (_, []) => none
  | some (last, _) => some (String.ofList last.reverse)
  | none => none

/-- The extension of the file that a path leads to. A path that ends in `..` leads to no file. -/
def extension? (path : String) : Option String :=
  match (steps path).getLast? with
  | some name => if name = ['.', '.'] then none else extensionOf? name
  | none => none

end Path

namespace FileAccess

variable {m : Type → Type} [Monad m] (files : FileAccess m)

/-- Reads a file of text. -/
def readText (path : String) : m (Except FileError String) := do
  match ← files.read path with
  | .error e => return .error e
  | .ok bytes =>
    match String.fromUTF8? ⟨bytes.toArray⟩ with
    | some text => return .ok text
    | none => return .error .notText

/-- Writes a netlist in the format that the extension of the path names; there is one, `.bench`. -/
def writeNetlist (path : String) (net : Netlist) : m (Except FileError Unit) :=
  match Path.extension? path with
  | some extension =>
    if extension = "bench" then files.write path (Bench.text net)
    else return .error (.unknownExtension extension)
  | none => return .error .noExtension

/-- Writes a schematic. -/
def writeSchematic (path : String) (s : Schematic Float) : m (Except FileError Unit) :=
  files.write path s.json

end FileAccess

end LogicSchematic
