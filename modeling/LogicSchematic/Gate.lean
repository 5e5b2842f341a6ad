/-!
# Gate kinds

The eight primitives a circuit may be built from, with their names, their pin counts, and what
they compute. A gate computes on words of 64 bits, each bit position an assignment of its own;
`ofName?_name` says that every gate is found by its name, and `eval_isSome_iff` when a gate has a
value.
-/
namespace LogicSchematic

/-- A logic primitive. -/
inductive Gate where
  | and
  | or
  | not
  | nand
  | nor
  | xor
  | xnor
  /-- The inverted conjunction with four input pins. -/
  | nand4
  deriving DecidableEq, Repr

namespace Gate

/-- All gate kinds, in the order in which they are listed everywhere. -/
def all : List Gate := [.and, .or, .not, .nand, .nor, .xor, .xnor, .nand4]

/-- The upper-case name used in expressions and files. -/
def name : Gate → String
  | .and => "AND"
  | .or => "OR"
  | .not => "NOT"
  | .nand => "NAND"
  | .nor => "NOR"
  | .xor => "XOR"
  | .xnor => "XNOR"
  | .nand4 => "NAND4"

/-- The operator keyword of a gate. The wide gate has none and is written as a call. -/
def keyword? : Gate → Option String
  | .nand4 => none
  | g => some g.name

/-- The gate of a name, in upper or lower case (of the letters of ASCII). -/
def ofName? (name : String) : Option Gate :=
  let capitals := name.toList.map Char.toUpper
  all.find? fun g => g.name.toList == capitals

/-- The gate of an operator keyword, in upper case. -/
def ofKeyword? (word : String) : Option Gate :=
  all.find? fun g => g.keyword? == some word

/-- The number of input pins. -/
def inputPins : Gate → Nat
  | .not => 1
  | .nand4 => 4
  | _ => 2

/-- Whether nested gates of this kind may be regrouped. -/
def isAssociative : Gate → Bool
  | .and | .or | .xor => true
  | _ => false

/-- The gate whose complement this gate computes, for the inverted kinds. -/
def inverted? : Gate → Option Gate
  | .nand | .nand4 => some .and
  | .nor => some .or
  | .xnor => some .xor
  | _ => none

/-- The conjunction of words; all ones when there is none. -/
def conjunction (ws : List UInt64) : UInt64 := ws.foldl (· &&& ·) (~~~0)

/-- The disjunction of words; zero when there is none. -/
def disjunction (ws : List UInt64) : UInt64 := ws.foldl (· ||| ·) 0

/-- The parity of words; zero when there is none. -/
def parity (ws : List UInt64) : UInt64 := ws.foldl (· ^^^ ·) 0

/-- The word a gate computes from its operands, of any number. An inverter inverts its first
operand, and has no value without one. -/
def eval? : Gate → List UInt64 → Option UInt64
  | .and, ws => some (conjunction ws)
  | .or, ws => some (disjunction ws)
  | .not, [] => none
  | .not, w :: _ => some (~~~w)
  | .nand, ws => some (~~~(conjunction ws))
  | .nor, ws => some (~~~(disjunction ws))
  | .xor, ws => some (parity ws)
  | .xnor, ws => some (~~~(parity ws))
  | .nand4, ws => some (~~~(conjunction ws))

theorem mem_all (g : Gate) : g ∈ all := by
  cases g <;> decide

theorem ofName?_name (g : Gate) : ofName? g.name = some g := by
  cases g <;> decide

theorem ofKeyword?_keyword {g : Gate} {word : String} (h : g.keyword? = some word) :
    ofKeyword? word = some g := by
  cases g <;> first | (cases h; decide) | cases h

theorem keyword?_of_ofKeyword? {g : Gate} {word : String} (h : ofKeyword? word = some g) :
    g.keyword? = some word := by
  simpa using List.find?_some h

theorem eval_isSome_iff (g : Gate) (ws : List UInt64) :
    (g.eval? ws).isSome ↔ g ≠ .not ∨ ws ≠ [] := by
  cases g <;> cases ws <;> simp [eval?]

end Gate

end LogicSchematic
