import LogicSchematic.Gate
import LogicSchematic.Text.UpperCase

/-!
# Logic expressions

Trees of operators over named variables. An operator is a gate or a call of a name that is no gate;
it has an ordered list of operands, of any length. `flatten` merges nested conjunctions into one
wide conjunction, and nested disjunctions likewise; `flatten_var`, `flatten_gate` and
`flatten_call` give it by cases.
-/
namespace LogicSchematic

/-- An operator of an expression. -/
inductive Op where
  | gate (g : Gate)
  /-- The call of a name that is no gate. -/
  | call (name : String)
  deriving DecidableEq, Repr

/-- The name an operator is written with. -/
def Op.text : Op → String
  | .gate g => g.name
  | .call name => name

/-- A logic expression. -/
inductive Expr where
  /-- A variable, known by its name. -/
  | var (name : String)
  /-- An operator over its operands, in order. -/
  | op (o : Op) (operands : List Expr)
  deriving Repr

namespace Expr

mutual

/-- Decides whether two expressions are the same tree. -/
def beq : Expr → Expr → Bool
  | .var a, .var b => a == b
  | .op o es, .op p fs => o == p && beqAll es fs
  | _, _ => false

/-- Decides whether two lists of expressions are the same. -/
def beqAll : List Expr → List Expr → Bool
  | [], [] => true
  | e :: es, f :: fs => beq e f && beqAll es fs
  | _, _ => false

end

mutual

theorem eq_of_beq : ∀ {a b : Expr}, beq a b = true → a = b
  | .var _, .var _, h => by simpa [beq] using h
  | .op _ _, .op _ _, h => by
    simp only [beq, Bool.and_eq_true, beq_iff_eq] at h
    rw [h.1, eq_of_beqAll h.2]
  | .var _, .op _ _, h => by simp [beq] at h
  | .op _ _, .var _, h => by simp [beq] at h

theorem eq_of_beqAll : ∀ {as bs : List Expr}, beqAll as bs = true → as = bs
  | [], [], _ => rfl
  | _ :: _, _ :: _, h => by
    simp only [beqAll, Bool.and_eq_true] at h
    rw [eq_of_beq h.1, eq_of_beqAll h.2]
  | [], _ :: _, h => by simp [beqAll] at h
  | _ :: _, [], h => by simp [beqAll] at h

end

mutual

theorem beq_refl : ∀ a : Expr, beq a a = true
  | .var _ => by simp [beq]
  | .op _ es => by simp [beq, beqAll_refl es]

theorem beqAll_refl : ∀ as : List Expr, beqAll as as = true
  | [] => by simp [beqAll]
  | e :: es => by simp [beqAll, beq_refl e, beqAll_refl es]

end

instance : DecidableEq Expr := fun a b =>
  if h : beq a b = true then isTrue (eq_of_beq h)
  else isFalse fun e => h (e ▸ beq_refl a)

/-- The variable of a name, which is upper-cased. -/
def named (name : String) : Expr :=
  .var (String.ofList (Text.upperCase name.toList))

/-- A gate over its operands. -/
def gate (g : Gate) (operands : List Expr) : Expr :=
  .op (.gate g) operands

/-- The gate at the root, if there is one. -/
def gate? : Expr → Option Gate
  | .op (.gate g) _ => some g
  | _ => none

/-- The operands of the root; none for a variable. -/
def operands : Expr → List Expr
  | .var _ => []
  | .op _ es => es

mutual

/-- The text of an expression: every operator is written as a call, `AND(A, NOT(B))`. -/
def text : Expr → String
  | .var name => name
  | .op o es => o.text ++ "(" ++ ", ".intercalate (textAll es) ++ ")"

/-- The texts of several expressions. -/
def textAll : List Expr → List String
  | [] => []
  | e :: es => text e :: textAll es

end

mutual

/-- The names of all variables, from left to right, repetitions included. -/
def occurrences : Expr → List String
  | .var name => [name]
  | .op _ es => occurrencesAll es

/-- The names of all variables of several expressions, from left to right. -/
def occurrencesAll : List Expr → List String
  | [] => []
  | e :: es => occurrences e ++ occurrencesAll es

end

/-- The names of the distinct variables, in order of first appearance. -/
def variableNames (e : Expr) : List String :=
  e.occurrences.eraseDups

mutual

/-- The number of operators. -/
def opCount : Expr → Nat
  | .var _ => 0
  | .op _ es => 1 + opCountAll es

/-- The number of operators of several expressions. -/
def opCountAll : List Expr → Nat
  | [] => 0
  | e :: es => opCount e + opCountAll es

end

/-- Whether nested gates of this kind are merged into one wide gate. -/
def isMerged : Gate → Bool
  | .and | .or => true
  | _ => false

/-- The operands that an expression contributes to a gate `g` above it: its own operands when it is
the same gate, else itself. -/
def spliced (g : Gate) : Expr → List Expr
  | .op (.gate k) es => if k = g then es else [.op (.gate k) es]
  | e => [e]

/-- The operands of an operator over flattened expressions. -/
def merge : Op → List Expr → List Expr
  | .gate g, es => if isMerged g then es.flatMap (spliced g) else es
  | .call _, es => es

mutual

/-- Merges conjunctions directly under a conjunction, and disjunctions directly under a disjunction,
at every depth. The order of the operands is kept. -/
def flatten : Expr → Expr
  | .var name => .var name
  | .op o es => .op o (merge o (flattenAll es))

/-- Flattens several expressions. -/
def flattenAll : List Expr → List Expr
  | [] => []
  | e :: es => flatten e :: flattenAll es

end

@[simp] theorem textAll_eq_map (es : List Expr) : textAll es = es.map text := by
  induction es <;> simp_all [textAll]

@[simp] theorem occurrencesAll_eq_flatMap (es : List Expr) :
    occurrencesAll es = es.flatMap occurrences := by
  induction es <;> simp_all [occurrencesAll]

@[simp] theorem flattenAll_eq_map (es : List Expr) : flattenAll es = es.map flatten := by
  induction es <;> simp_all [flattenAll]

@[simp] theorem flatten_var (name : String) : flatten (.var name) = .var name := rfl

theorem flatten_gate (g : Gate) (es : List Expr) :
    flatten (.op (.gate g) es) = .op (.gate g)
      (if isMerged g then (es.map flatten).flatMap (spliced g) else es.map flatten) := by
  simp [flatten, merge]

theorem flatten_call (name : String) (es : List Expr) :
    flatten (.op (.call name) es) = .op (.call name) (es.map flatten) := by
  simp [flatten, merge]

end Expr

end LogicSchematic
