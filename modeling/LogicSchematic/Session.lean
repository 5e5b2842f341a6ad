import LogicSchematic.Generation

/-!
# Sessions

A session keeps a configuration and the schematic of the last run that succeeded. A run that fails
changes nothing, and neither does a new configuration until the next run; `generate_config` and
`current_of_error` say so.
-/
namespace LogicSchematic

/-- A configuration and the current schematic. -/
structure Session (α : Type) where
  config : Config α
  current : Option (Schematic α)

namespace Session

variable {α : Type} [Scalar α]

/-- A session without schematic. -/
def start (config : Config α) : Session α := ⟨config, none⟩

/-- Changes the configuration of the runs to come. -/
def setConfig (s : Session α) (config : Config α) : Session α := { s with config }

/-- Runs on a text; a schematic replaces the current one. -/
def generate (s : Session α) (text : String) : Reading RunError (Schematic α) × Session α :=
  let outcome := LogicSchematic.generate s.config text
  match outcome.result with
  | .ok schematic => (outcome, { s with current := some schematic })
  | .error _ => (outcome, s)

@[simp] theorem generate_config (s : Session α) (text : String) :
    (s.generate text).2.config = s.config := by
  simp only [generate]
  split <;> rfl

theorem current_of_ok {s : Session α} {text : String} {schematic : Schematic α}
    (h : (LogicSchematic.generate s.config text).result = .ok schematic) :
    (s.generate text).2.current = some schematic := by
  simp [generate, h]

theorem current_of_error {s : Session α} {text : String} {e : RunError}
    (h : (LogicSchematic.generate s.config text).result = .error e) :
    (s.generate text).2 = s := by
  simp [generate, h]

end Session

end LogicSchematic
