import LogicSchematic.CommandLine

/-!
# The program

Runs the command line on the files of the system.
-/
namespace LogicSchematic

/-- What a failure of the system means for a file. -/
def FileError.ofSystem : IO.Error → FileError
  | .noFileOrDirectory .. => .notFound
  | .inappropriateType _ code _ =>
    if code = 20 ∨ code = 0 - 20 then .notDirectory else .isDirectory
  | .invalidArgument (some name) code _ =>
    if code = 36 ∨ code = 0 - 36 then .nameTooLong
    else if '\x00' ∈ name.toList then .nulInName
    else .other "Invalid argument (os error 22)"
  | e => .other (toString e)

/-- Turns the failures of an action on files into outcomes. -/
def attempt {α : Type} (action : IO α) : IO (Except FileError α) := do
  try
    return .ok (← action)
  catch e =>
    return .error (FileError.ofSystem e)

/-- Access to the files of the system. -/
def systemFiles : FileAccess IO where
  read path := attempt do return (← IO.FS.readBinFile path).toList
  write path text := attempt (IO.FS.writeFile path text)

end LogicSchematic

open LogicSchematic

/-- Runs the program: it prints what the run prints, logs to the error output, and ends with the
code of the outcome. -/
def main (arguments : List String) : IO UInt32 := do
  let outcome ← CommandLine.run systemFiles arguments
  (← IO.getStdout).putStr outcome.output
  for line in outcome.log do
    IO.eprintln line
  if outcome.code = 2 then
    IO.eprint CommandLine.helpText
  return outcome.code.toUInt32
