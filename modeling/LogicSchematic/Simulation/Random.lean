/-!
# Random words

The generator xoshiro256++ and its seeding: a seed of 64 bits is spread over the state with the
generator PCG32. Equal seeds give equal sequences.
-/
namespace LogicSchematic

/-- The state of the generator. -/
structure RandomState where
  s0 : UInt64
  s1 : UInt64
  s2 : UInt64
  s3 : UInt64
  deriving DecidableEq, Repr

/-- Rotates a word to the left by `k` bits, for `k` from 1 to 63. -/
def rotateLeft64 (x : UInt64) (k : UInt64) : UInt64 := (x <<< k) ||| (x >>> (64 - k))

/-- Rotates a word to the right by `k` bits, for `k` below 32. -/
def rotateRight32 (x : UInt32) (k : UInt32) : UInt32 :=
  if k = 0 then x else (x >>> k) ||| (x <<< (32 - k))

/-- A generator of 32-bit words whose state is one 64-bit word. -/
def seedStep (state : UInt64) : UInt32 × UInt64 :=
  let state := state * 6364136223846793005 + 11634580027462260723
  let x := (((state >>> 18) ^^^ state) >>> 27).toUInt32
  (rotateRight32 x (state >>> 59).toUInt32, state)

/-- Two 32-bit words joined, the low one drawn first. -/
def seedWord (state : UInt64) : UInt64 × UInt64 :=
  let (low, state) := seedStep state
  let (high, state) := seedStep state
  (low.toUInt64 ||| (high.toUInt64 <<< 32), state)

namespace RandomState

/-- The state for a seed. -/
def ofSeed (seed : UInt64) : RandomState :=
  let (s0, state) := seedWord seed
  let (s1, state) := seedWord state
  let (s2, state) := seedWord state
  let (s3, _) := seedWord state
  ⟨s0, s1, s2, s3⟩

/-- Draws a word. -/
def next (r : RandomState) : UInt64 × RandomState :=
  let word := rotateLeft64 (r.s0 + r.s3) 23 + r.s0
  let t := r.s1 <<< 17
  let s2 := r.s2 ^^^ r.s0
  let s3 := r.s3 ^^^ r.s1
  let s1 := r.s1 ^^^ s2
  let s0 := r.s0 ^^^ s3
  (word, ⟨s0, s1, s2 ^^^ t, rotateLeft64 s3 45⟩)

/-- Draws several words. -/
def take : (count : Nat) → RandomState → List UInt64 × RandomState
  | 0, r => ([], r)
  | count + 1, r =>
    let (w, r) := r.next
    let (ws, r) := take count r
    (w :: ws, r)

/-- Draws several rows of words. -/
def takeRows (columns : Nat) : (rows : Nat) → RandomState → List (List UInt64)
  | 0, _ => []
  | rows + 1, r =>
    let (row, r) := take columns r
    row :: takeRows columns rows r

theorem length_take (count : Nat) (r : RandomState) : (take count r).1.length = count := by
  induction count generalizing r with
  | zero => rfl
  | succ count ih => simp [take, ih]

theorem length_takeRows (columns rows : Nat) (r : RandomState) :
    (takeRows columns rows r).length = rows := by
  induction rows generalizing r with
  | zero => rfl
  | succ rows ih => simp [takeRows, ih]

end RandomState

end LogicSchematic
