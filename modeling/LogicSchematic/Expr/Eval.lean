import LogicSchematic.Expr

/-!
# Values of expressions

An expression is evaluated on words of 64 bits, every bit position an assignment of its own. The
operands of a gate are evaluated from left to right and the first failure is the answer.
`eval_gate` and `evalAll_eq_mapM` say how a gate gets its value.
-/
namespace LogicSchematic

/-- The words given to names; a name may have none. -/
abbrev Valuation := String → Option UInt64

/-- The valuation of a list of pairs. A name that stands in several pairs has the last word. -/
def Valuation.ofList (pairs : List (String × UInt64)) : Valuation :=
  fun name => List.lookup name pairs.reverse

/-- Why an evaluation gives no word. -/
inductive EvalError where
  /-- A variable without a word, or a call of a name that is no gate. -/
  | undetermined
  /-- An inverter without an operand. -/
  | missingOperand
  deriving DecidableEq, Repr

/-- The word of a name. -/
def Valuation.get (values : Valuation) (name : String) : Except EvalError UInt64 :=
  match values name with
  | some w => .ok w
  | none => .error .undetermined

/-- The word a gate computes from operands that have words. -/
def Gate.eval (g : Gate) (ws : List UInt64) : Except EvalError UInt64 :=
  match g.eval? ws with
  | some w => .ok w
  | none => .error .missingOperand

namespace Expr

mutual

/-- The word of an expression. -/
def eval (values : Valuation) : Expr → Except EvalError UInt64
  | .var name => values.get name
  | .op (.gate g) es => do g.eval (← evalAll values es)
  | .op (.call _) _ => .error .undetermined

/-- The words of several expressions. -/
def evalAll (values : Valuation) : List Expr → Except EvalError (List UInt64)
  | [] => .ok []
  | e :: es => do
    let w ← eval values e
    let ws ← evalAll values es
    return w :: ws

end

theorem evalAll_eq_mapM (values : Valuation) (es : List Expr) :
    evalAll values es = es.mapM (eval values) := by
  induction es with
  | nil => rfl
  | cons e es ih => simp [evalAll, List.mapM_cons, ih]

@[simp] theorem eval_var (values : Valuation) (name : String) :
    eval values (.var name) = values.get name := rfl

theorem eval_gate (values : Valuation) (g : Gate) (es : List Expr) :
    eval values (.op (.gate g) es) = (do g.eval (← es.mapM (eval values))) := by
  rw [eval, evalAll_eq_mapM]

@[simp] theorem eval_call (values : Valuation) (name : String) (es : List Expr) :
    eval values (.op (.call name) es) = .error .undetermined := rfl

end Expr

end LogicSchematic
