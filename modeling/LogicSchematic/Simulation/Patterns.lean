import LogicSchematic.Simulation.Random

/-!
# Input patterns

The words that inputs are tried with, one list a round, one word a variable. Up to sixteen variables
every assignment is tried; beyond, random words are. In exhaustive patterns an assignment is a
number: bit `b` of the word of variable `i` in round `w` is bit `i` of `64 * w + b`. Patterns that
no memory can hold are refused.
-/
namespace LogicSchematic

/-- The most variables for which all assignments are tried. -/
def maxExhaustive : Nat := 16

/-- The number of rounds with random words. -/
def randomRounds : Nat := 64

/-- The words of the first six variables, whose bits enumerate their assignments. -/
def variableMasks : List UInt64 := [
  0xAAAAAAAAAAAAAAAA, 0xCCCCCCCCCCCCCCCC, 0xF0F0F0F0F0F0F0F0,
  0xFF00FF00FF00FF00, 0xFFFF0000FFFF0000, 0xFFFFFFFF00000000]

/-- The word of variable `i` in round `w`. From the seventh variable on, all bits are equal: they
are a bit of the number of the round, a 64-bit word whose bits are counted around. -/
def exhaustiveWord (w i : Nat) : UInt64 :=
  match variableMasks[i]? with
  | some mask => mask
  | none => if w.testBit ((i - 6) % 64) then ~~~0 else 0

/-- The number of rounds that try every assignment of `n` variables: the number of a round has a bit
for every variable from the seventh on, counted around in 64 bits. -/
def exhaustiveRounds (n : Nat) : Nat := Nat.pow 2 ((n - 6) % 64)

/-- The words that try every assignment of `n` variables, for `n` up to 69. With fewer than six
variables the assignments repeat within the one round; from 70 on the bits of a round no longer
suffice, and not all assignments are tried. -/
def exhaustivePatterns (n : Nat) : List (List UInt64) :=
  (List.range (exhaustiveRounds n)).map fun w => (List.range n).map (exhaustiveWord w)

/-- Random words for `n` variables in several rounds. -/
def randomPatterns (n rounds : Nat) (seed : UInt64) : List (List UInt64) :=
  RandomState.takeRows n rounds (RandomState.ofSeed seed)

/-- The words that `n` variables are tried with. -/
def patterns (n : Nat) (seed : UInt64) : List (List UInt64) :=
  if n ≤ maxExhaustive then exhaustivePatterns n else randomPatterns n randomRounds seed

/-- The bytes that can be addressed. -/
def addressableBytes : Nat := 9223372036854775808

/-- Whether patterns for `n` variables in several rounds can be held: a round takes 24 bytes beside
its words, and a word 8. -/
def patternsFit (n rounds : Nat) : Bool :=
  24 * rounds < addressableBytes && (rounds == 0 || 8 * n < addressableBytes)

/-- `exhaustivePatterns`, if they can be held. -/
def exhaustivePatterns? (n : Nat) : Option (List (List UInt64)) :=
  if patternsFit n (exhaustiveRounds n) then some (exhaustivePatterns n) else none

/-- `randomPatterns`, if they can be held. -/
def randomPatterns? (n rounds : Nat) (seed : UInt64) : Option (List (List UInt64)) :=
  if patternsFit n rounds then some (randomPatterns n rounds seed) else none

theorem length_exhaustivePatterns (n : Nat) :
    (exhaustivePatterns n).length = exhaustiveRounds n := by
  simp [exhaustivePatterns]

theorem length_of_mem_exhaustivePatterns {n : Nat} {words : List UInt64}
    (h : words ∈ exhaustivePatterns n) : words.length = n := by
  obtain ⟨w, -, rfl⟩ := List.mem_map.mp h
  rw [List.length_map, List.length_range]

theorem length_randomPatterns (n rounds : Nat) (seed : UInt64) :
    (randomPatterns n rounds seed).length = rounds :=
  RandomState.length_takeRows n rounds _

end LogicSchematic
