import LogicSchematic.Gate
import LogicSchematic.Text.Blank
import LogicSchematic.Text.Split

/-!
# Sets of gate kinds

The gates a circuit may use. A set is written as the names of its members in listing order, with
commas between; read in any order, any case and with blanks around the names.
-/
namespace LogicSchematic

/-- A set of gate kinds, given by which kinds it contains. -/
structure GateSet where
  contains : Gate → Bool

/-- A word that names no gate. -/
structure UnknownGate where
  name : String
  deriving DecidableEq, Repr

/-- What is said of a word that names no gate. -/
def UnknownGate.message (e : UnknownGate) : String :=
  "Unknown gate kind " ++ e.name

/-- Reads the name of a gate, with blanks around it. -/
def Gate.ofText? (text : String) : Except UnknownGate Gate :=
  let word := Text.trimString text
  match Gate.ofName? word with
  | some g => .ok g
  | none => .error ⟨word⟩

namespace GateSet

instance : Membership Gate GateSet := ⟨fun s g => s.contains g = true⟩

/-- The set without members. -/
def empty : GateSet := ⟨fun _ => false⟩

/-- The set of all gate kinds. -/
def full : GateSet := ⟨fun _ => true⟩

/-- Allows one kind more. -/
def insert (s : GateSet) (g : Gate) : GateSet := ⟨fun k => k == g || s.contains k⟩

/-- Forbids a kind. -/
def erase (s : GateSet) (g : Gate) : GateSet := ⟨fun k => k != g && s.contains k⟩

/-- The set of the listed kinds. -/
def ofList (gs : List Gate) : GateSet := ⟨gs.contains⟩

/-- The members, in listing order. -/
def toList (s : GateSet) : List Gate := Gate.all.filter s.contains

/-- The number of members. -/
def size (s : GateSet) : Nat := s.toList.length

/-- Whether there is no member. -/
def isEmpty (s : GateSet) : Bool := s.toList.isEmpty

/-- The set used when none is chosen: all kinds but the wide gate and the equivalence. -/
def standard : GateSet := ofList [.and, .or, .not, .nand, .nor, .xor]

/-- The members' names, in listing order, with commas between. -/
def text (s : GateSet) : String := ",".intercalate (s.toList.map Gate.name)

/-- Reads gate names with commas between; blank pieces count for nothing. The first word that names
no gate is the error. -/
def ofText? (text : String) : Except UnknownGate GateSet := do
  let words := (Text.split ',' text.toList).map Text.trim
  let gates ← (words.filter (· ≠ [])).mapM fun word => Gate.ofText? (String.ofList word)
  return ofList gates

@[simp] theorem contains_empty (g : Gate) : empty.contains g = false := rfl

@[simp] theorem contains_full (g : Gate) : full.contains g = true := rfl

@[simp] theorem contains_insert (s : GateSet) (g k : Gate) :
    (s.insert g).contains k = (k == g || s.contains k) := rfl

@[simp] theorem contains_erase (s : GateSet) (g k : Gate) :
    (s.erase g).contains k = (k != g && s.contains k) := rfl

@[simp] theorem contains_ofList (gs : List Gate) (g : Gate) :
    (ofList gs).contains g = gs.contains g := rfl

@[simp] theorem mem_toList {s : GateSet} {g : Gate} : g ∈ s.toList ↔ s.contains g = true := by
  simp [toList, Gate.mem_all]

theorem isEmpty_iff (s : GateSet) : s.isEmpty = true ↔ ∀ g, s.contains g = false := by
  simp only [isEmpty, List.isEmpty_iff, List.eq_nil_iff_forall_not_mem, mem_toList,
    Bool.not_eq_true]

/-- A set is the set of its listed members. -/
@[simp] theorem ofList_toList (s : GateSet) : ofList s.toList = s := by
  have h : ∀ g, s.toList.contains g = s.contains g := by
    intro g
    rw [Bool.eq_iff_iff, List.contains_iff_mem, mem_toList]
  show GateSet.mk s.toList.contains = s
  rw [show s.toList.contains = s.contains from funext h]

end GateSet

end LogicSchematic
