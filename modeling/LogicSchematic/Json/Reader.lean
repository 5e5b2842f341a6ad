/-!
# Reading JSON

A strict reader of JSON documents in bytes. The document it gives keeps strings and numbers as they
are written, since their readers differ: `Json.stringText?` decodes a string, which may fail
although the document is well formed, and `Json.Numeral` has the readings of a number.

A string is well formed when its escapes are, whatever code points they name, and it holds no
control character; a document is one value with nothing but blanks around it. Every reader gives
back the bytes that are left, together with the proof that they are fewer.
-/
namespace LogicSchematic

namespace Json

/-- A number as it is written, with its digits as numbers below ten. -/
structure Numeral where
  negative : Bool
  whole : List Nat
  /-- The digits after the point, if there is one. -/
  fraction : Option (List Nat)
  /-- The sign (true for minus) and the digits of the exponent, if there is one. -/
  exponent : Option (Bool × List Nat)
  deriving DecidableEq, Repr

/-- What stands between the quotes of a string. -/
abbrev Quoted := List UInt8

end Json

/-- A JSON document as it is written. -/
inductive Json where
  | null
  | bool (b : Bool)
  | number (n : Json.Numeral)
  | string (s : Json.Quoted)
  | array (items : List Json)
  /-- The members of an object, in order and with repetitions: their names, and their values. -/
  | object (names : List Json.Quoted) (values : List Json)

namespace Json

/-- The byte of an ASCII character. -/
def byte (c : Char) : UInt8 := c.toNat.toUInt8

/-- The bytes that may stand between tokens. -/
def isBlank (b : UInt8) : Bool :=
  b == byte ' ' || b == byte '\t' || b == byte '\n' || b == byte '\r'

/-- What was read, and a rest that is shorter. -/
abbrev Read (α : Type) (s : List UInt8) := { p : α × List UInt8 // p.2.length < s.length }

/-- What was read, possibly nothing, and the rest. -/
abbrev ReadMore (α : Type) (s : List UInt8) := { p : α × List UInt8 // p.2.length ≤ s.length }

/-- Skips blanks. -/
def skipBlanks : (s : List UInt8) → { r : List UInt8 // r.length ≤ s.length }
  | [] => ⟨[], Nat.le_refl _⟩
  | b :: s =>
    if isBlank b then
      let ⟨r, h⟩ := skipBlanks s
      ⟨r, Nat.le_succ_of_le h⟩
    else ⟨b :: s, Nat.le_refl _⟩

/-- The value of a decimal digit. -/
def digit? (b : UInt8) : Option Nat :=
  if byte '0' ≤ b ∧ b ≤ byte '9' then some (b - byte '0').toNat else none

/-- The value of a hexadecimal digit. -/
def hexDigit? (b : UInt8) : Option Nat :=
  if byte '0' ≤ b ∧ b ≤ byte '9' then some (b - byte '0').toNat
  else if byte 'a' ≤ b ∧ b ≤ byte 'f' then some (b - byte 'a' + 10).toNat
  else if byte 'A' ≤ b ∧ b ≤ byte 'F' then some (b - byte 'A' + 10).toNat
  else none

/-- Reads digits, possibly none. -/
def readDigits : (s : List UInt8) → ReadMore (List Nat) s
  | [] => ⟨([], []), Nat.le_refl _⟩
  | b :: s =>
    match digit? b with
    | some d =>
      let ⟨(ds, r), h⟩ := readDigits s
      ⟨(d :: ds, r), Nat.le_succ_of_le h⟩
    | none => ⟨([], b :: s), Nat.le_refl _⟩

/-- Reads the digits before the point: one zero, or digits of which the first is no zero. -/
def readWhole (s : List UInt8) : Option (Read (List Nat) s) :=
  match s with
  | [] => none
  | b :: s =>
    match digit? b with
    | some 0 =>
      match readDigits s with
      | ⟨([], r), h⟩ => some ⟨([0], r), Nat.lt_succ_of_le h⟩
      | _ => none
    | some d =>
      let ⟨(ds, r), h⟩ := readDigits s
      some ⟨(d :: ds, r), Nat.lt_succ_of_le h⟩
    | none => none

/-- Reads a point and the digits after it, if there is a point. -/
def readFraction (s : List UInt8) : Option (ReadMore (Option (List Nat)) s) :=
  match s with
  | [] => some ⟨(none, []), Nat.le_refl _⟩
  | b :: s =>
    if b = byte '.' then
      match readDigits s with
      | ⟨([], _), _⟩ => none
      | ⟨(ds, r), h⟩ => some ⟨(some ds, r), Nat.le_succ_of_le h⟩
    else some ⟨(none, b :: s), Nat.le_refl _⟩

/-- Reads the sign of an exponent, if there is one. -/
def readSign (s : List UInt8) : ReadMore Bool s :=
  match s with
  | [] => ⟨(false, []), Nat.le_refl _⟩
  | b :: s =>
    if b = byte '-' then ⟨(true, s), Nat.le_succ _⟩
    else if b = byte '+' then ⟨(false, s), Nat.le_succ _⟩
    else ⟨(false, b :: s), Nat.le_refl _⟩

/-- Reads an exponent, if there is one. -/
def readExponent (s : List UInt8) : Option (ReadMore (Option (Bool × List Nat)) s) :=
  match s with
  | [] => some ⟨(none, []), Nat.le_refl _⟩
  | b :: s =>
    if b = byte 'e' ∨ b = byte 'E' then
      let ⟨(negative, r), h⟩ := readSign s
      match readDigits r with
      | ⟨([], _), _⟩ => none
      | ⟨(ds, r'), h'⟩ =>
        some ⟨(some (negative, ds), r'), Nat.le_succ_of_le (Nat.le_trans h' h)⟩
    else some ⟨(none, b :: s), Nat.le_refl _⟩

/-- Reads a number without its sign. -/
def readUnsigned (negative : Bool) (s : List UInt8) : Option (Read Numeral s) := do
  let ⟨(whole, r), h⟩ ← readWhole s
  let ⟨(fraction, r), h'⟩ ← readFraction r
  let ⟨(exponent, r), h''⟩ ← readExponent r
  return ⟨(⟨negative, whole, fraction, exponent⟩, r), by grind⟩

/-- Reads a number. -/
def readNumeral (s : List UInt8) : Option (Read Numeral s) :=
  match s with
  | [] => none
  | b :: s =>
    if b = byte '-' then do
      let ⟨(n, r), h⟩ ← readUnsigned true s
      return ⟨(n, r), Nat.lt_succ_of_lt h⟩
    else readUnsigned false (b :: s)

/-- Whether an escape is one backslash and this byte. -/
def isShortEscape (b : UInt8) : Bool :=
  b == byte '"' || b == byte '\\' || b == byte '/' || b == byte 'b' || b == byte 'f' ||
    b == byte 'n' || b == byte 'r' || b == byte 't'

/-- Reads a string up to its closing quote, when its opening one has been read. -/
def readQuoted : (s : List UInt8) → Option (Read Quoted s)
  | [] => none
  | b :: s =>
    if b = byte '"' then some ⟨([], s), Nat.lt_succ_self _⟩
    else if b < byte ' ' then none
    else if b = byte '\\' then
      match s with
      | [] => none
      | e :: s =>
        if isShortEscape e then do
          let ⟨(q, r), h⟩ ← readQuoted s
          return ⟨(b :: e :: q, r), Nat.lt_succ_of_lt (Nat.lt_succ_of_lt h)⟩
        else if e = byte 'u' then
          match s with
          | w :: x :: y :: z :: s =>
            if [w, x, y, z].all (hexDigit? · |>.isSome) then do
              let ⟨(q, r), h⟩ ← readQuoted s
              return ⟨(b :: e :: w :: x :: y :: z :: q, r), by simp at h ⊢; omega⟩
            else none
          | _ => none
        else none
    else do
      let ⟨(q, r), h⟩ ← readQuoted s
      return ⟨(b :: q, r), Nat.lt_succ_of_lt h⟩

/-- Reads a string. -/
def readString (s : List UInt8) : Option (Read Quoted s) :=
  match s with
  | [] => none
  | b :: s =>
    if b = byte '"' then do
      let ⟨(q, r), h⟩ ← readQuoted s
      return ⟨(q, r), Nat.lt_succ_of_lt h⟩
    else none

/-- Reads a fixed word. -/
def readWord (word : List Char) (s : List UInt8) :
    Option { r : List UInt8 // r.length ≤ s.length } :=
  match word, s with
  | [], s => some ⟨s, Nat.le_refl _⟩
  | _ :: _, [] => none
  | c :: word, b :: s =>
    if b = byte c then do
      let ⟨r, h⟩ ← readWord word s
      return ⟨r, Nat.le_succ_of_le h⟩
    else none

mutual

/-- Reads a value, with blanks before it. -/
def readValue (s : List UInt8) : Option (Read Json s) :=
  match skipBlanks s with
  | ⟨[], _⟩ => none
  | ⟨b :: r, h⟩ =>
    if b = byte '"' then do
      let ⟨(q, r), h'⟩ ← readQuoted r
      return ⟨(.string q, r), by grind⟩
    else if b = byte '[' then
      match skipBlanks r with
      | ⟨[], _⟩ => none
      | ⟨c :: r', h'⟩ =>
        if c = byte ']' then some ⟨(.array [], r'), by grind⟩
        else do
          let ⟨(items, r''), h''⟩ ← readItems r
          return ⟨(.array items, r''), by grind⟩
    else if b = byte '\x7b' then
      match skipBlanks r with
      | ⟨[], _⟩ => none
      | ⟨c :: r', h'⟩ =>
        if c = byte '\x7d' then some ⟨(.object [] [], r'), by grind⟩
        else do
          let ⟨((names, values), r''), h''⟩ ← readMembers r
          return ⟨(.object names values, r''), by grind⟩
    else if b = byte 't' then do
      let ⟨r, h'⟩ ← readWord ['r', 'u', 'e'] r
      return ⟨(.bool true, r), by grind⟩
    else if b = byte 'f' then do
      let ⟨r, h'⟩ ← readWord ['a', 'l', 's', 'e'] r
      return ⟨(.bool false, r), by grind⟩
    else if b = byte 'n' then do
      let ⟨r, h'⟩ ← readWord ['u', 'l', 'l'] r
      return ⟨(.null, r), by grind⟩
    else do
      let ⟨(n, r), h'⟩ ← readNumeral (b :: r)
      return ⟨(.number n, r), by grind⟩
termination_by (s.length, 1)
decreasing_by all_goals grind

/-- Reads the items of an array, at least one, and its closing bracket. -/
def readItems (s : List UInt8) : Option (Read (List Json) s) := do
  let ⟨(item, r), h⟩ ← readValue s
  match skipBlanks r with
  | ⟨[], _⟩ => none
  | ⟨c :: r', h'⟩ =>
    if c = byte ']' then return ⟨([item], r'), by grind⟩
    else if c = byte ',' then
      let ⟨(items, r''), h''⟩ ← readItems r'
      return ⟨(item :: items, r''), by grind⟩
    else none
termination_by (s.length, 2)
decreasing_by all_goals grind

/-- Reads the members of an object, at least one, and its closing brace. -/
def readMembers (s : List UInt8) : Option (Read (List Quoted × List Json) s) := do
  let ⟨start, h⟩ := skipBlanks s
  let ⟨(name, r), h'⟩ ← readString start
  match skipBlanks r with
  | ⟨[], _⟩ => none
  | ⟨c :: r, h''⟩ =>
    if c = byte ':' then
      let ⟨(value, r), h₃⟩ ← readValue r
      match skipBlanks r with
      | ⟨[], _⟩ => none
      | ⟨c :: r, h₄⟩ =>
        if c = byte '\x7d' then return ⟨(([name], [value]), r), by grind⟩
        else if c = byte ',' then
          let ⟨((names, values), r), h₅⟩ ← readMembers r
          return ⟨((name :: names, value :: values), r), by grind⟩
        else none
    else none
termination_by (s.length, 2)
decreasing_by all_goals grind

end

/-- Reads a document. -/
def parse? (s : List UInt8) : Option Json := do
  let ⟨(value, r), _⟩ ← readValue s
  if (skipBlanks r).val = [] then return value else none

/-- The number written with four hexadecimal digits. -/
def hexNumber? (digits : List UInt8) : Option Nat :=
  (digits.mapM hexDigit?).map fun ds => ds.foldl (16 * · + ·) 0

/-- The bytes of a character. -/
def utf8 (code : Nat) : List UInt8 := (Char.ofNat code).toString.toUTF8.toList

/-- The bytes that a string stands for. An escape that names half of a surrogate pair stands for
nothing, and there is no string then. -/
def unescape? : Quoted → Option (List UInt8)
  | [] => some []
  | b :: q =>
    if b = byte '\\' then
      match q with
      | [] => none
      | e :: q =>
        if e = byte 'u' then
          match q with
          | w :: x :: y :: z :: q => do
            let code ← hexNumber? [w, x, y, z]
            if 0xD800 ≤ code ∧ code < 0xDC00 then
              match q with
              | b' :: e' :: w' :: x' :: y' :: z' :: q => do
                let low ← hexNumber? [w', x', y', z']
                if b' = byte '\\' ∧ e' = byte 'u' ∧ 0xDC00 ≤ low ∧ low < 0xE000 then
                  let rest ← unescape? q
                  return utf8 (0x10000 + (code - 0xD800) * 0x400 + (low - 0xDC00)) ++ rest
                else none
              | _ => none
            else if 0xDC00 ≤ code ∧ code < 0xE000 then none
            else
              let rest ← unescape? q
              return utf8 code ++ rest
          | _ => none
        else do
          let rest ← unescape? q
          if e = byte 'b' then return 8 :: rest
          else if e = byte 'f' then return 12 :: rest
          else if e = byte 'n' then return 10 :: rest
          else if e = byte 'r' then return 13 :: rest
          else if e = byte 't' then return 9 :: rest
          else return e :: rest
    else do
      let rest ← unescape? q
      return b :: rest

/-- The text of a string, if its escapes name characters and its bytes are a text. -/
def stringText? (q : Quoted) : Option String := do
  let bytes ← unescape? q
  String.fromUTF8? ⟨bytes.toArray⟩

end Json

end LogicSchematic
