import LogicSchematic.Mapping.Arena

/-!
# Synthesis

Building a circuit of allowed gates for an expression. A gate that is not allowed is built from
others by identities of De Morgan and of the universal gates, in a fixed order of preference; the
circuit computes the same function but need not be the smallest.

The identities nest, and the nesting is limited. Every operand is therefore mapped by an action that
still waits for the depth it will stand at (`Pending`), so that an identity can put operands it has
not looked at under new gates. `invert`, `conjoin`, … build one gate each over operands that are
mapped already; each uses only those before it, which is why building ends whatever the limit.
-/
namespace LogicSchematic

/-- Why an expression has no circuit. -/
inductive SynthesisError where
  /-- Identities nested deeper than the limit. -/
  | depthExceeded (limit : Nat)
  /-- The operator of this name cannot be built from the allowed gates. -/
  | ungeneratable (name : String)
  deriving DecidableEq, Repr

/-- The text of a synthesis error. -/
def SynthesisError.message : SynthesisError → String
  | .depthExceeded limit => "logic conversion nested deeper than " ++ Nat.repr limit ++ " levels"
  | .ungeneratable name => "cannot generate gate " ++ name ++ " with the allowed gates"

/-- Says that it is `g` that cannot be built, when it is something that `g` was to be built from. -/
def SynthesisError.attribute (g : Gate) : SynthesisError → SynthesisError
  | .depthExceeded limit => .depthExceeded limit
  | .ungeneratable _ => .ungeneratable g.name

/-- What circuits may be made of, and how deep identities may nest. -/
structure Synthesizer where
  allowed : GateSet
  maxDepth : Nat

/-- The usual limit on the nesting of identities. -/
def Synthesizer.standardDepth : Nat := 30

/-- A step of building a circuit in an arena. -/
abbrev Build := StateT Arena (Except SynthesisError)

/-- An expression that is mapped once its depth is known. -/
abbrev Pending := Nat → Build Operand

/-- Repeats the last operand until there are `n`; no operand is made from none. -/
def padTo (n : Nat) (operands : List Operand) : List Operand :=
  match operands.getLast? with
  | some last => operands ++ List.replicate (n - operands.length) last
  | none => []

namespace Synthesizer

variable (s : Synthesizer)

/-- Whether a gate kind is allowed. -/
def allows (g : Gate) : Bool := s.allowed.contains g

/-- Refuses a depth beyond the limit. -/
def checkDepth (depth : Nat) : Build Unit :=
  if s.maxDepth < depth then throw (.depthExceeded s.maxDepth) else pure ()

/-- Puts a gate into the arena. -/
def add (g : Gate) (operands : List Operand) : Build Operand :=
  modifyGet (·.add ⟨g, operands⟩)

/-- Refuses an operator. -/
def refuse (g : Gate) : Build Operand :=
  throw (.ungeneratable g.name)

/-- Puts `g` into the arena if it is allowed, else replaces it. A replacement counts for the depth,
and when it cannot be built, it is `g` that cannot be built. -/
def addOr (g : Gate) (operands : List Operand) (depth : Nat) (replacement : Build Operand) :
    Build Operand :=
  if s.allows g then add g operands
  else do
    s.checkDepth depth
    fun arena => (replacement arena).mapError (·.attribute g)

/-- The inverse of an operand. -/
def invert (x : Operand) (depth : Nat) : Build Operand :=
  s.addOr .not [x] depth <|
    if s.allows .nand then add .nand [x, x]
    else if s.allows .nand4 then add .nand4 [x, x, x, x]
    else if s.allows .nor then add .nor [x, x]
    else refuse .not

/-- The conjunction of two operands. -/
def conjoin (a b : Operand) (depth : Nat) : Build Operand :=
  s.addOr .and [a, b] depth <|
    if s.allows .nand then do
      s.invert (← add .nand [a, b]) (depth + 1)
    else if s.allows .nor then do
      let na ← s.invert a (depth + 1)
      let nb ← s.invert b (depth + 1)
      add .nor [na, nb]
    else if s.allows .nand4 then do
      s.invert (← add .nand4 [a, b, a, b]) (depth + 1)
    else if s.allows .or then do
      let na ← s.invert a (depth + 1)
      let nb ← s.invert b (depth + 1)
      s.invert (← add .or [na, nb]) (depth + 1)
    else refuse .and

/-- The disjunction of two operands. -/
def disjoin (a b : Operand) (depth : Nat) : Build Operand :=
  s.addOr .or [a, b] depth <|
    if s.allows .nor then do
      s.invert (← add .nor [a, b]) (depth + 1)
    else if s.allows .nand then do
      let na ← s.invert a (depth + 1)
      let nb ← s.invert b (depth + 1)
      add .nand [na, nb]
    else if s.allows .nand4 then do
      let na ← s.invert a (depth + 1)
      let nb ← s.invert b (depth + 1)
      add .nand4 [na, nb, na, nb]
    else if s.allows .and then do
      let na ← s.invert a (depth + 1)
      let nb ← s.invert b (depth + 1)
      s.invert (← add .and [na, nb]) (depth + 1)
    else refuse .or

/-- Whether an inverter can be built without the gate `NAND`. -/
def invertsWithoutNand : Bool :=
  s.allows .not || s.allows .nand4 || s.allows .nor

/-- The inverted conjunction of two operands. -/
def nandOf (a b : Operand) (depth : Nat) : Build Operand :=
  s.addOr .nand [a, b] depth <|
    if s.allows .and && s.invertsWithoutNand then do
      s.invert (← add .and [a, b]) (depth + 1)
    else if s.allows .nand4 then add .nand4 [a, b, a, b]
    else do
      s.invert (← s.conjoin a b (depth + 1)) (depth + 1)

/-- The inverted disjunction of two operands. -/
def norOf (a b : Operand) (depth : Nat) : Build Operand :=
  s.addOr .nor [a, b] depth do
    s.invert (← s.disjoin a b (depth + 1)) (depth + 1)

/-- The exclusive disjunction of two operands. -/
def xorOf (a b : Operand) (depth : Nat) : Build Operand :=
  s.addOr .xor [a, b] depth do
    let nb ← s.invert b (depth + 1)
    let left ← s.conjoin a nb (depth + 1)
    let na ← s.invert a (depth + 1)
    let right ← s.conjoin na b (depth + 1)
    s.disjoin left right (depth + 1)

/-- The equivalence of two operands. -/
def xnorOf (a b : Operand) (depth : Nat) : Build Operand :=
  s.addOr .xnor [a, b] depth do
    s.invert (← s.xorOf a b (depth + 1)) (depth + 1)

/-- A gate over operands that are mapped already. Beside an allowed gate, only an inverter of one
operand and the other kinds over two operands can be built. -/
def build (g : Gate) (operands : List Operand) (depth : Nat) : Build Operand :=
  match g, operands with
  | .not, [x] => s.invert x depth
  | .and, [a, b] => s.conjoin a b depth
  | .or, [a, b] => s.disjoin a b depth
  | .nand, [a, b] => s.nandOf a b depth
  | .nor, [a, b] => s.norOf a b depth
  | .xor, [a, b] => s.xorOf a b depth
  | .xnor, [a, b] => s.xnorOf a b depth
  | g, operands => s.addOr g operands depth (refuse g)

/-- Maps a gate operand by operand. -/
def direct (g : Gate) (operands : List Pending) : Pending := fun depth => do
  s.checkDepth depth
  let xs ← operands.mapM (· (depth + 1))
  s.build g xs (depth + 1)

/-- The inverse of an operand that is not mapped yet. -/
def inverse (x : Pending) : Pending :=
  s.direct .not [x]

/-- Maps a wide gate as a chain of gates with two operands; the last operand comes first in the
list, and is the second operand of the outermost gate. -/
def chain (g : Gate) : List Pending → Pending
  | [] => fun _ => refuse g
  | [x] => x
  | x :: before => fun depth => do
    s.checkDepth depth
    let left ← chain g before (depth + 1)
    let right ← x (depth + 1)
    s.build g [left, right] (depth + 1)

/-- Maps a conjunction of at most four operands as an inverted wide gate. -/
def invertedNand4 (operands : List Pending) : Pending := fun depth => do
  s.checkDepth depth
  let xs ← operands.mapM (· (depth + 1))
  add .not [← add .nand4 (padTo 4 xs)]

/-- Maps an associative gate. Over one operand it is that operand, and a wide one becomes a chain,
unless it is a conjunction that fits an inverted wide gate. -/
def associative (g : Gate) (operands : List Pending) : Pending :=
  match operands with
  | [x] =>
    if s.allows g then s.direct g [x]
    else fun depth => do
      s.checkDepth depth
      x (depth + 1)
  | operands =>
    if operands.length ≤ 2 then s.direct g operands
    else if g = .and ∧ operands.length ≤ 4 ∧ s.allows .nand4 ∧ s.allows .not then
      s.invertedNand4 operands
    else s.chain g operands.reverse

/-- Maps the inverse of what another mapping yields; both count for the depth. -/
def complement (x : Pending) : Pending := fun depth => do
  s.checkDepth depth
  s.inverse x (depth + 1)

/-- Maps an inverted gate with the given base. Over one operand it is an inverter, and a wide one is
the inverse of the base. -/
def complemented (g base : Gate) (operands : List Pending) : Pending :=
  match operands with
  | [x] => if s.allows g then s.direct g [x] else s.complement x
  | operands =>
    if operands.length ≤ 2 then s.direct g operands
    else s.complement (s.associative base operands)

/-- Maps the gate with four pins; fewer operands are padded, more are an inverted conjunction. -/
def wideNand (operands : List Pending) : Pending :=
  if s.allows .nand4 ∧ operands.length ≤ 4 then fun depth => do
    s.checkDepth depth
    let xs ← operands.mapM (· (depth + 1))
    add .nand4 (padTo 4 xs)
  else s.complement (s.associative .and operands)

/-- Maps an inverter; of more than two operands nothing is made. -/
def inverter (operands : List Pending) : Pending :=
  if operands.length ≤ 2 then s.direct .not operands
  else fun depth => do
    s.checkDepth depth
    refuse .not

/-- Maps a gate over operands that are not mapped yet. -/
def mapGate : Gate → List Pending → Pending
  | .not, xs => s.inverter xs
  | .nand4, xs => s.wideNand xs
  | .nand, xs => s.complemented .nand .and xs
  | .nor, xs => s.complemented .nor .or xs
  | .xnor, xs => s.complemented .xnor .xor xs
  | g, xs => s.associative g xs

mutual

/-- Maps an expression. -/
def mapExpr : Expr → Pending
  | .var name => fun depth => do
    s.checkDepth depth
    return .var name
  | .op (.gate g) es => s.mapGate g (mapAll es)
  | .op (.call name) _ => fun depth => do
    s.checkDepth depth
    throw (.ungeneratable name)

/-- Maps several expressions. -/
def mapAll : List Expr → List Pending
  | [] => []
  | e :: es => mapExpr e :: mapAll es

end

/-- The circuit of an expression. Wide conjunctions and disjunctions are recognised when the
expression is flattened before. -/
def synthesize (e : Expr) : Except SynthesisError Mapping := do
  let (root, arena) ← (s.mapExpr e 0).run Arena.empty
  return arena.finish root

@[simp] theorem mapAll_eq_map (es : List Expr) : s.mapAll es = es.map s.mapExpr := by
  induction es <;> simp_all [mapAll]

end Synthesizer

end LogicSchematic
