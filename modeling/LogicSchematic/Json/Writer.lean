/-!
# Writing JSON

The texts of JSON values, in two forms: in one line without blanks, and over several lines with two
spaces for each level of nesting. An empty list takes one line in both forms. Text is quoted with
the short escapes where there are some; other control characters are written with their code.
-/
namespace LogicSchematic.Json

/-- A digit of the hexadecimal code of a control character. -/
def hexDigit (n : Nat) : Char := Nat.digitChar n

/-- A character as it stands in a quoted text. -/
def escape (c : Char) : List Char :=
  if c = '"' then ['\\', '"']
  else if c = '\\' then ['\\', '\\']
  else if c = '\n' then ['\\', 'n']
  else if c = '\r' then ['\\', 'r']
  else if c = '\t' then ['\\', 't']
  else if c.toNat = 8 then ['\\', 'b']
  else if c.toNat = 12 then ['\\', 'f']
  else if c.toNat < 32 then
    ['\\', 'u', '0', '0', hexDigit (c.toNat / 16), hexDigit (c.toNat % 16)]
  else [c]

/-- A quoted text. -/
def quote (text : String) : String :=
  "\"" ++ String.ofList (text.toList.flatMap escape) ++ "\""

/-- A truth value. -/
def boolText (b : Bool) : String := if b then "true" else "false"

/-- A list in one line. -/
def compactList (items : List String) : String :=
  "[" ++ ",".intercalate items ++ "]"

/-- An object in one line. -/
def compactObject (members : List (String × String)) : String :=
  "\x7b" ++ ",".intercalate (members.map fun (name, value) => quote name ++ ":" ++ value) ++ "\x7d"

/-- A value over several lines, which depends on how deep it is nested. -/
abbrev Indented := Nat → String

/-- A value that fits one line. -/
def inLine (text : String) : Indented := fun _ => text

/-- The beginning of a line. -/
def newLine (depth : Nat) : String := "\n" ++ String.join (List.replicate depth "  ")

/-- Values on lines of their own, between brackets. -/
def block (opening closing : String) (items : List Indented) : Indented := fun depth =>
  if items.isEmpty then opening ++ closing
  else
    let lines := items.map fun item => newLine (depth + 1) ++ item (depth + 1)
    opening ++ ",".intercalate lines ++ newLine depth ++ closing

/-- A list over several lines. -/
def indentedList (items : List Indented) : Indented :=
  block "[" "]" items

/-- An object over several lines. -/
def indentedObject (members : List (String × Indented)) : Indented :=
  block "\x7b" "\x7d" (members.map fun (name, value) depth => quote name ++ ": " ++ value depth)

end LogicSchematic.Json
