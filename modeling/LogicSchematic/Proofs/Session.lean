import LogicSchematic.Session
import LogicSchematic.Proofs.Generation
import Mathlib.Data.List.Induction

/-!
# Sequences of runs

A session is asked for runs and is given configurations, in any order (`Operation`). What it should
hold then can be said without a session: the configuration that was set last (`configAfter`), and
the schematic of the last run that succeeded, where each run is taken by itself, with its text and
the configuration in force (`outcomeAt`, `IsCurrent`).

One operation more changes this as it changes a session: a run that succeeds takes the place of the
current one, and everything else leaves it (`IsCurrent.of_succeeds`, `IsCurrent.of_not_succeeds`).
So a session holds what it should after any operations (`config_after`, `isCurrent_after`), and
`trace_transactional` says this of every step of a sequence, together with what the step returns.
-/

namespace LogicSchematic.Session

variable {α : Type}

/-- What can be done with a session. -/
inductive Operation (α : Type) where
  | generate (text : String)
  | setConfig (config : Config α)

/-- The configuration that an operation sets. -/
def Operation.config? : Operation α → Option (Config α)
  | .generate _ => none
  | .setConfig config => some config

/-- The configuration in force after operations: the last one set, or else the one at the start. -/
def configAfter (config : Config α) (ops : List (Operation α)) : Config α :=
  (ops.filterMap Operation.config?).getLast?.getD config

variable [Scalar α]

/-- What an operation returns, if it is a run, and the session it leaves. -/
def step (s : Session α) : Operation α → Option (Reading RunError (Schematic α)) × Session α
  | .generate text => (some (s.generate text).1, (s.generate text).2)
  | .setConfig config => (none, s.setConfig config)

/-- The session after several operations. -/
def after (s : Session α) (ops : List (Operation α)) : Session α :=
  ops.foldl (fun s op => (s.step op).2) s

/-- What each of several operations returns, and the session it leaves. -/
def trace (s : Session α) :
    List (Operation α) → List (Option (Reading RunError (Schematic α)) × Session α)
  | [] => []
  | op :: ops => s.step op :: trace (s.step op).2 ops

/-- The outcome of the run with a given index among operations: that of its text, in the
configuration in force. -/
def outcomeAt (config : Config α) (ops : List (Operation α)) (index : Nat) :
    Option (Reading RunError (Schematic α)) :=
  match ops[index]? with
  | some (.generate text) =>
    some (LogicSchematic.generate (configAfter config (ops.take index)) text)
  | _ => none

/-- Whether the operation with a given index is a run that succeeds with a schematic. -/
def Succeeds (config : Config α) (ops : List (Operation α)) (index : Nat)
    (schematic : Schematic α) : Prop :=
  ∃ r, outcomeAt config ops index = some r ∧ r.result = .ok schematic

/-- Whether a schematic is that of the last run that succeeds; there is none if no run does. -/
def IsCurrent (config : Config α) (ops : List (Operation α)) : Option (Schematic α) → Prop
  | none => ∀ index schematic, ¬Succeeds config ops index schematic
  | some schematic => ∃ index, Succeeds config ops index schematic ∧
      ∀ later, index < later → ∀ schematic', ¬Succeeds config ops later schematic'

variable {config : Config α} {ops : List (Operation α)} {op : Operation α} {index : Nat}
  {schematic : Schematic α} {current : Option (Schematic α)}

/-! ## One operation more -/

omit [Scalar α] in
theorem configAfter_concat (config : Config α) (ops : List (Operation α)) (op : Operation α) :
    configAfter config (ops ++ [op]) = op.config?.getD (configAfter config ops) := by
  unfold configAfter
  rw [List.filterMap_append]
  cases op with
  | generate text => simp [Operation.config?]
  | setConfig config => simp [Operation.config?]

/-- A run returns what its text gives in the configuration of the session. -/
theorem fst_generate (s : Session α) (text : String) :
    (s.generate text).1 = LogicSchematic.generate s.config text := by
  unfold generate
  dsimp only
  split <;> rfl

theorem config_step (s : Session α) (op : Operation α) :
    (s.step op).2.config = op.config?.getD s.config := by
  cases op with
  | generate text => exact s.generate_config text
  | setConfig config => rfl

/-- A run leaves its schematic, if it has one; every other operation leaves the current one. -/
theorem current_step (s : Session α) (op : Operation α) :
    (∃ r schematic, (s.step op).1 = some r ∧ r.result = .ok schematic ∧
        (s.step op).2.current = some schematic) ∨
      ((∀ r schematic, (s.step op).1 = some r → r.result ≠ .ok schematic) ∧
        (s.step op).2.current = s.current) := by
  cases op with
  | setConfig config => exact .inr ⟨fun _ _ h => (nomatch h), rfl⟩
  | generate text =>
    rw [step, fst_generate]
    cases h : (LogicSchematic.generate s.config text).result with
    | ok schematic => exact .inl ⟨_, schematic, rfl, h, current_of_ok h⟩
    | error e =>
      refine .inr ⟨fun r schematic hr hok => ?_, ?_⟩
      · cases hr
        cases h.symm.trans hok
      · show (s.generate text).2.current = s.current
        rw [current_of_error h]

theorem outcomeAt_concat_of_lt (config : Config α) (op : Operation α) (h : index < ops.length) :
    outcomeAt config (ops ++ [op]) index = outcomeAt config ops index := by
  unfold outcomeAt
  rw [List.getElem?_append_left h, List.take_append_of_le_length (Nat.le_of_lt h)]

theorem outcomeAt_of_length_le (config : Config α) (h : ops.length ≤ index) :
    outcomeAt config ops index = none := by
  unfold outcomeAt
  rw [List.getElem?_eq_none h]

/-- A session whose configuration is the one in force returns the outcome. -/
theorem fst_step_eq_outcomeAt {s : Session α} (hs : s.config = configAfter config (ops.take index))
    (hop : ops[index]? = some op) : (s.step op).1 = outcomeAt config ops index := by
  unfold outcomeAt
  rw [hop]
  cases op with
  | setConfig config => rfl
  | generate text =>
    show some (s.generate text).1 = some _
    rw [fst_generate, hs]

theorem succeeds_concat_iff (h : index ≠ ops.length) :
    Succeeds config (ops ++ [op]) index schematic ↔ Succeeds config ops index schematic := by
  unfold Succeeds
  by_cases hlt : index < ops.length
  · rw [outcomeAt_concat_of_lt config op hlt]
  · have hle : (ops ++ [op]).length ≤ index := by
      rw [List.length_append, List.length_singleton]
      omega
    rw [outcomeAt_of_length_le config hle, outcomeAt_of_length_le config (Nat.le_of_not_lt hlt)]

/-- A run that succeeds last is the current one. -/
theorem IsCurrent.of_succeeds (h : Succeeds config (ops ++ [op]) ops.length schematic) :
    IsCurrent config (ops ++ [op]) (some schematic) := by
  refine ⟨ops.length, h, fun later hlater schematic' hsucceeds => ?_⟩
  rw [succeeds_concat_iff (Nat.ne_of_gt hlater)] at hsucceeds
  obtain ⟨r, hr, -⟩ := hsucceeds
  rw [outcomeAt_of_length_le config (Nat.le_of_lt hlater)] at hr
  cases hr

/-- An operation that is no run, or a run that fails, leaves the current one. -/
theorem IsCurrent.of_not_succeeds (hc : IsCurrent config ops current)
    (h : ∀ schematic, ¬Succeeds config (ops ++ [op]) ops.length schematic) :
    IsCurrent config (ops ++ [op]) current := by
  have hsame : ∀ index schematic, Succeeds config (ops ++ [op]) index schematic ↔
      Succeeds config ops index schematic := by
    intro index schematic
    by_cases hindex : index = ops.length
    · subst hindex
      refine iff_of_false (h schematic) ?_
      rintro ⟨r, hr, -⟩
      rw [outcomeAt_of_length_le config (Nat.le_refl _)] at hr
      cases hr
    · exact succeeds_concat_iff hindex
  cases current with
  | none => exact fun index schematic hs => hc index schematic ((hsame index schematic).mp hs)
  | some current =>
    obtain ⟨index, hs, hlast⟩ := hc
    refine ⟨index, (hsame index current).mpr hs, fun later hlater schematic hs => ?_⟩
    exact hlast later hlater schematic ((hsame later schematic).mp hs)

/-! ## Any operations -/

theorem after_concat (s : Session α) (ops : List (Operation α)) (op : Operation α) :
    s.after (ops ++ [op]) = ((s.after ops).step op).2 := by
  unfold after
  rw [List.foldl_append]
  rfl

/-- The configuration of a session is the last one set. -/
theorem config_after (config : Config α) (ops : List (Operation α)) :
    ((start config).after ops).config = configAfter config ops := by
  induction ops using List.reverseRecOn with
  | nil => rfl
  | append_singleton ops op ih => rw [after_concat, config_step, ih, configAfter_concat]

/-- The current schematic of a session is that of the last run that succeeded. -/
theorem isCurrent_after (config : Config α) (ops : List (Operation α)) :
    IsCurrent config ops ((start config).after ops).current := by
  induction ops using List.reverseRecOn with
  | nil =>
    rintro index schematic ⟨r, hr, -⟩
    cases hr
  | append_singleton ops op ih =>
    rw [after_concat]
    have houtcome : (((start config).after ops).step op).1 =
        outcomeAt config (ops ++ [op]) ops.length := by
      refine fst_step_eq_outcomeAt ?_ List.getElem?_concat_length
      rw [List.take_left', config_after]
      rfl
    rcases current_step ((start config).after ops) op with
      ⟨r, schematic, hr, hok, hcurrent⟩ | ⟨hfails, hcurrent⟩
    · rw [hcurrent]
      exact IsCurrent.of_succeeds ⟨r, houtcome.symm.trans hr, hok⟩
    · rw [hcurrent]
      refine ih.of_not_succeeds ?_
      rintro schematic ⟨r, hr, hok⟩
      exact hfails r schematic (houtcome.trans hr) hok

theorem length_trace (s : Session α) (ops : List (Operation α)) :
    (s.trace ops).length = ops.length := by
  induction ops generalizing s with
  | nil => rfl
  | cons op ops ih => rw [trace, List.length_cons, ih, List.length_cons]

/-- An operation in a sequence starts from the session after those before it. -/
theorem getElem?_trace (s : Session α) (ops : List (Operation α)) (index : Nat) :
    (s.trace ops)[index]? = ops[index]?.map fun op => (s.after (ops.take index)).step op := by
  induction ops generalizing s index with
  | nil => rfl
  | cons op ops ih =>
    cases index with
    | zero => rfl
    | succ index =>
      rw [trace, List.getElem?_cons_succ, List.getElem?_cons_succ, ih]
      rfl

/-- What holds of the operation with a given index among operations, which returns `outcome` and
leaves the session `s`. -/
structure Transactional (config : Config α) (ops : List (Operation α)) (index : Nat)
    (outcome : Option (Reading RunError (Schematic α))) (s : Session α) : Prop where
  /-- The configuration is the last one set. -/
  config_eq : s.config = configAfter config (ops.take (index + 1))
  /-- The current schematic is that of the last run that succeeded. -/
  current : IsCurrent config (ops.take (index + 1)) s.current
  /-- A run returns what its text gives in the configuration in force, whatever came before. -/
  outcome_eq : outcome = outcomeAt config ops index
  /-- What is no run that succeeds leaves the current schematic. -/
  unchanged : (∀ schematic, ¬Succeeds config ops index schematic) →
    s.current = ((start config).after (ops.take index)).current

/-- Whatever a session is asked to do, every step of it is transactional. -/
theorem trace_transactional (config : Config α) (ops : List (Operation α)) :
    ((start config).trace ops).length = ops.length ∧
      ∀ (index : Nat) (outcome : Option (Reading RunError (Schematic α))) (s : Session α),
        ((start config).trace ops)[index]? = some (outcome, s) →
          Transactional config ops index outcome s := by
  refine ⟨length_trace _ ops, fun index outcome s h => ?_⟩
  rw [getElem?_trace] at h
  obtain ⟨op, hop, hstep⟩ := Option.map_eq_some_iff.mp h
  have htake : ops.take (index + 1) = ops.take index ++ [op] := by
    rw [List.take_add_one, hop]
    rfl
  have hs : s = (start config).after (ops.take (index + 1)) := by
    rw [htake, after_concat, hstep]
  have houtcome : outcome = outcomeAt config ops index := by
    rw [← fst_step_eq_outcomeAt (config_after config (ops.take index)) hop, hstep]
  refine ⟨?_, ?_, houtcome, fun hfails => ?_⟩
  · rw [hs, config_after]
  · rw [hs]
    exact isCurrent_after config _
  · rcases current_step ((start config).after (ops.take index)) op with
      ⟨r, schematic, hr, hok, -⟩ | ⟨-, hcurrent⟩
    · rw [hstep, houtcome] at hr
      exact absurd ⟨r, hr, hok⟩ (hfails schematic)
    · rw [hstep] at hcurrent
      exact hcurrent

/-- A run, an empty gate set, and a run that is refused: the schematic of the first run stays. -/
theorem trace_transactional_refused :
    let config : Config Float := { Config.standard with gates := .ofList [.nand] }
    let ops : List (Operation Float) := [.generate "A AND B",
      .setConfig { config with gates := .empty }, .generate "A AND B"]
    ∃ r s schematic, ((start config).trace ops)[2]? = some (some r, s) ∧
      Transactional config ops 2 (some r) s ∧ r.result = .error .emptyGateSet ∧
      s.current = some schematic ∧
      (LogicSchematic.generate config "A AND B").result = .ok schematic := by
  intro config ops
  obtain ⟨schematic, hok⟩ : ∃ schematic,
      (LogicSchematic.generate config "A AND B").result = .ok schematic :=
    ⟨_, generate_eq_ok_iff.mpr ⟨_, _, synthesize_and, rfl⟩⟩
  have hfirst : ((start config).generate "A AND B").2 = ⟨config, some schematic⟩ := by
    unfold generate
    dsimp only [start]
    rw [hok]
  have htrace : ((start config).trace ops)[2]? =
      some (some ⟨.error .emptyGateSet, []⟩, ⟨{ config with gates := .empty }, some schematic⟩) := by
    rw [getElem?_trace]
    show some ((((start config).generate "A AND B").2.setConfig _).step _) = _
    rw [hfirst]
    rfl
  exact ⟨_, _, schematic, htrace, (trace_transactional config ops).2 2 _ _ htrace, rfl, rfl, hok⟩

end LogicSchematic.Session
