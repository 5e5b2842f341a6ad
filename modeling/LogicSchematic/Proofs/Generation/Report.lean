import LogicSchematic.Proofs.Generation
import LogicSchematic.Proofs.Netlist.Building
import Mathlib

/-!
# What a run reports

Errors of three stages compete: the gate set, the lines, the circuits. Lines have two numbers: the
number in the text, which blank lines count for, and the index among the lines that are not blank
(`IsLine`, `getElem?_numberedLines`). Reading stops at the first line that is no equation, whatever
comes after it (`parseLines_cases`), and building stops at the first equation without a circuit, the
same one with and without the numbers of lines (`netlistOfLines_cases`). So a run reports the first
error of the first stage that has one, and otherwise gives the netlist that is built from the
equations alone (`synthesize_report`).
-/

namespace LogicSchematic

namespace Equation

/-- Whether one of the lines that come after the line numbered `start` has the number `number` and
is not blank, and `index` of the lines between are not blank. -/
def IsLineFrom (start : Nat) (ls : List (List Char)) (index number : Nat) (line : String) : Prop :=
  ∃ above, number = start + above + 1 ∧ ls[above]? = some line.toList ∧
    line.toList.all Text.isBlank = false ∧
    (ls.take above).countP (fun l => !l.all Text.isBlank) = index

/-- Whether a line of a text has a given number, counted from one, and a given index among those
that are not blank, counted from zero. -/
def IsLine (text : String) (index number : Nat) (line : String) : Prop :=
  IsLineFrom 0 (Text.lines text.toList) index number line

/-- Whether the line with a given index among those that are not blank has a given number in the
text and is read with a given result. -/
def Reads (strict : Bool) (text : String) (index number : Nat)
    (result : Except ParseError Equation) : Prop :=
  ∃ line, IsLine text index number line ∧ (parse strict index line).result = result

/-- Whether all lines are read as equations, and which ones, with their numbers in the text. -/
def AllRead (R : Nat → Nat → Except ParseError Equation → Prop) (lines : List (Nat × Equation)) :
    Prop :=
  ∀ index number result,
    R index number result ↔ ∃ e, result = .ok e ∧ lines[index]? = some (number, e)

/-- Whether the line with a given index is the first that is no equation. -/
structure FirstUnread (R : Nat → Nat → Except ParseError Equation → Prop) (index number : Nat)
    (cause : ParseError) : Prop where
  fails : R index number (.error cause)
  before : ∀ earlier < index, ∀ number' result, R earlier number' result → ∃ e, result = .ok e

/-! ## Line numbers -/

section IsLineFrom

variable {start index number : Nat} {l : List Char} {ls : List (List Char)} {line : String}

theorem not_isLineFrom_nil : ¬IsLineFrom start [] index number line := by
  rintro ⟨above, -, h, -⟩
  cases h

/-- A blank line counts for the numbers of those after it, but not for their indices. -/
theorem isLineFrom_cons_of_blank (hl : l.all Text.isBlank = true) :
    IsLineFrom start (l :: ls) index number line ↔
      IsLineFrom (start + 1) ls index number line := by
  unfold IsLineFrom
  rw [← Nat.or_exists_add_one, or_iff_right]
  · simp only [List.getElem?_cons_succ, List.take_succ_cons, List.countP_cons, hl, Bool.not_true,
      Nat.add_right_comm start, Nat.add_assoc]
    rfl
  · rintro ⟨-, hline, hblank, -⟩
    cases hline
    cases hl.symm.trans hblank

theorem isLineFrom_cons_zero (hl : l.all Text.isBlank = false) :
    IsLineFrom start (l :: ls) 0 number line ↔ number = start + 1 ∧ l = line.toList := by
  constructor
  · rintro ⟨above, rfl, hline, -, hcount⟩
    cases above with
    | zero => exact ⟨rfl, Option.some.inj hline⟩
    | succ above =>
      rw [List.take_succ_cons, List.countP_cons_of_pos (by rw [hl]; rfl)] at hcount
      cases hcount
  · rintro ⟨rfl, rfl⟩
    exact ⟨0, rfl, rfl, hl, rfl⟩

/-- A line that is not blank counts for the numbers and the indices of those after it. -/
theorem isLineFrom_cons_succ (hl : l.all Text.isBlank = false) :
    IsLineFrom start (l :: ls) (index + 1) number line ↔
      IsLineFrom (start + 1) ls index number line := by
  unfold IsLineFrom
  rw [← Nat.or_exists_add_one, or_iff_right]
  · simp only [List.getElem?_cons_succ, List.take_succ_cons, List.countP_cons, hl, Bool.not_false,
      Nat.add_right_comm start, Nat.add_assoc, if_true, Nat.add_right_cancel_iff]
  · rintro ⟨-, -, -, hcount⟩
    cases hcount

/-- The lines that are kept are those that are not blank, with their numbers. -/
theorem getElem?_filterMap_zipIdx :
    ((ls.zipIdx start).filterMap fun (l, i) =>
        if l.all Text.isBlank then none else some (i + 1, String.ofList l))[index]? =
      some (number, line) ↔ IsLineFrom start ls index number line := by
  induction ls generalizing start index with
  | nil => exact iff_of_false (fun h => by cases h) not_isLineFrom_nil
  | cons l ls ih =>
    rw [List.zipIdx_cons, List.filterMap_cons]
    dsimp only
    cases hl : l.all Text.isBlank with
    | true =>
      rw [if_pos rfl, isLineFrom_cons_of_blank hl]
      exact ih
    | false =>
      rw [if_neg Bool.false_ne_true]
      cases index with
      | zero =>
        rw [isLineFrom_cons_zero hl, List.getElem?_cons_zero, Option.some_inj, Prod.mk.injEq]
        constructor
        · rintro ⟨rfl, rfl⟩
          exact ⟨rfl, String.toList_ofList.symm⟩
        · rintro ⟨rfl, rfl⟩
          exact ⟨rfl, String.ofList_toList⟩
      | succ index =>
        rw [isLineFrom_cons_succ hl, List.getElem?_cons_succ]
        exact ih

theorem getElem?_numberedLines {text : String} :
    (numberedLines text)[index]? = some (number, line) ↔ IsLine text index number line :=
  getElem?_filterMap_zipIdx

end IsLineFrom

/-! ## Reading lines -/

/-- Whether a given one of several numbered lines is read with a given result, when the first of
them has the index `start`. -/
def ReadsFrom (strict : Bool) (start : Nat) (lines : List (Nat × String)) (index number : Nat)
    (result : Except ParseError Equation) : Prop :=
  ∃ line, lines[index]? = some (number, line) ∧ (parse strict (start + index) line).result = result

theorem reads_eq_readsFrom (strict : Bool) (text : String) :
    Reads strict text = ReadsFrom strict 0 (numberedLines text) := by
  funext index number result
  unfold Reads ReadsFrom
  simp only [getElem?_numberedLines, Nat.zero_add]

section ReadsFrom

variable {strict : Bool} {start index number : Nat} {p : Nat × String} {lines : List (Nat × String)}
  {result : Except ParseError Equation}

theorem not_readsFrom_nil : ¬ReadsFrom strict start [] index number result := by
  rintro ⟨line, h, -⟩
  cases h

theorem readsFrom_cons_zero : ReadsFrom strict start (p :: lines) 0 number result ↔
    p.1 = number ∧ (parse strict start p.2).result = result := by
  obtain ⟨number', line⟩ := p
  constructor
  · rintro ⟨line', h, hresult⟩
    cases h
    exact ⟨rfl, hresult⟩
  · rintro ⟨rfl, hresult⟩
    exact ⟨line, rfl, hresult⟩

theorem readsFrom_cons_succ : ReadsFrom strict start (p :: lines) (index + 1) number result ↔
    ReadsFrom strict (start + 1) lines index number result := by
  unfold ReadsFrom
  rw [Nat.add_right_comm, Nat.add_assoc]
  rfl

/-- All lines are read, or reading ends with the first one that is no equation. -/
theorem parseLines_cases (strict : Bool) (start : Nat) (lines : List (Nat × String)) :
    (∃ equations, (parseLines strict start lines).result = .ok equations ∧
        AllRead (ReadsFrom strict start lines) equations) ∨
      ∃ index number cause, (parseLines strict start lines).result = .error ⟨number, cause⟩ ∧
        FirstUnread (ReadsFrom strict start lines) index number cause := by
  induction lines generalizing start with
  | nil =>
    refine .inl ⟨[], rfl, fun index number result => iff_of_false not_readsFrom_nil ?_⟩
    rintro ⟨e, -, h⟩
    cases h
  | cons p lines ih =>
    obtain ⟨number, line⟩ := p
    rw [parseLines]
    cases hline : (parse strict start line).result with
    | error cause =>
      refine .inr ⟨0, number, cause, ?_, ⟨readsFrom_cons_zero.mpr ⟨rfl, hline⟩, ?_⟩⟩
      · rw [Reading.bind_of_error (e := ⟨number, cause⟩) (by rw [Reading.mapError, hline]; rfl)]
      · exact fun earlier h => absurd h (Nat.not_lt_zero earlier)
    | ok e =>
      rw [Reading.bind_of_ok (Reading.mapError_result_eq_ok_iff.mpr hline)]
      -- a reading of this line is this equation
      have hhere : ∀ number' result, ReadsFrom strict start ((number, line) :: lines) 0 number'
          result ↔ ∃ e', result = .ok e' ∧ (number, e) = (number', e') := by
        intro number' result
        rw [readsFrom_cons_zero, hline]
        constructor
        · rintro ⟨rfl, rfl⟩
          exact ⟨e, rfl, rfl⟩
        · rintro ⟨e', rfl, h⟩
          cases h
          exact ⟨rfl, rfl⟩
      rcases ih (start + 1) with ⟨equations, hrest, hall⟩ | ⟨index, number', cause, hrest, hfirst⟩
      · refine .inl ⟨(number, e) :: equations, ?_, fun index number' result => ?_⟩
        · rw [Reading.bind_of_ok hrest]
          rfl
        · cases index with
          | zero =>
            rw [hhere, List.getElem?_cons_zero]
            simp only [Option.some_inj]
          | succ index => rw [readsFrom_cons_succ, List.getElem?_cons_succ, hall]
      · refine .inr ⟨index + 1, number', cause, ?_, readsFrom_cons_succ.mpr hfirst.fails, ?_⟩
        · rw [Reading.bind_of_error hrest]
        · intro earlier hearlier number' result hreads
          cases earlier with
          | zero =>
            obtain ⟨e', he', -⟩ := (hhere number' result).mp hreads
            exact ⟨e', he'⟩
          | succ earlier =>
            exact hfirst.before earlier (Nat.lt_of_succ_lt_succ hearlier) number' result
              (readsFrom_cons_succ.mp hreads)

end ReadsFrom

/-- The lines of a text are read, or reading ends with the first one that is no equation. -/
theorem parseAll_cases (strict : Bool) (text : String) :
    (∃ lines, (parseAll strict text).result = .ok lines ∧ AllRead (Reads strict text) lines) ∨
      ∃ index number cause, (parseAll strict text).result = .error ⟨number, cause⟩ ∧
        FirstUnread (Reads strict text) index number cause := by
  rw [reads_eq_readsFrom]
  exact parseLines_cases strict 0 (numberedLines text)

variable {R : Nat → Nat → Except ParseError Equation → Prop}

/-- There is one list of equations that all lines are read as. -/
theorem AllRead.unique {lines lines' : List (Nat × Equation)} (h : AllRead R lines)
    (h' : AllRead R lines') : lines = lines' := by
  refine List.ext_getElem? fun index => Option.ext fun p => ?_
  obtain ⟨number, e⟩ := p
  have hiff := (h index number (.ok e)).symm.trans (h' index number (.ok e))
  constructor
  · intro hp
    obtain ⟨e', he', hp'⟩ := hiff.mp ⟨e, rfl, hp⟩
    cases he'
    exact hp'
  · intro hp
    obtain ⟨e', he', hp'⟩ := hiff.mpr ⟨e, rfl, hp⟩
    cases he'
    exact hp'

theorem AllRead.not_fails {lines : List (Nat × Equation)} (h : AllRead R lines) {index number : Nat}
    {cause : ParseError} : ¬R index number (.error cause) := by
  intro hfails
  obtain ⟨e, he, -⟩ := (h index number _).mp hfails
  cases he

end Equation

/-! ## Runs -/

variable {α : Type}

open Equation

/-- What a run on a text reports. -/
structure Report (config : Config α) (text : String) : Prop where
  /-- That no gate is allowed, whatever the text is. -/
  emptyGateSet : (synthesize config text).result = .error .emptyGateSet ↔
    config.gates.isEmpty = true
  /-- Otherwise the first line that is no equation, if there is one, with its number in the text. -/
  unread : config.gates.isEmpty = false →
    (∃ index number cause, Reads config.strict text index number (.error cause)) →
    ∃ index number cause, FirstUnread (Reads config.strict text) index number cause ∧
      (synthesize config text).result = .error (.parse number cause)
  /-- Otherwise all lines are equations. -/
  read : (∀ index number cause, ¬Reads config.strict text index number (.error cause)) →
    ∃ lines, AllRead (Reads config.strict text) lines
  /-- If their netlist is not built, the first of them without a circuit, with its number in the
  text and the cause that building gives. -/
  unmapped : config.gates.isEmpty = false → ∀ lines, AllRead (Reads config.strict text) lines →
    ∀ e, buildNetlist config.synthesizer (lines.map Prod.snd) = .error e →
      ∃ index line cause, FirstUnmapped config.synthesizer lines index line cause ∧
        e = .synthesis cause ∧ (synthesize config text).result = .error (.synthesis line cause)
  /-- If it is built, the equations in the order of their lines, and this netlist. -/
  built : config.gates.isEmpty = false → ∀ lines, AllRead (Reads config.strict text) lines →
    ∀ net, buildNetlist config.synthesizer (lines.map Prod.snd) = .ok net →
      (synthesize config text).result = .ok (lines.map Prod.snd, net)

theorem parseAll_of_allRead {strict : Bool} {text : String} {lines : List (Nat × Equation)}
    (h : AllRead (Reads strict text) lines) : (parseAll strict text).result = .ok lines := by
  rcases parseAll_cases strict text with ⟨lines', hlines, h'⟩ | ⟨index, number, cause, -, hfirst⟩
  · rw [hlines, h.unique h']
  · exact absurd hfirst.fails h.not_fails

section Stages

variable {config : Config α} {text : String} {lines : List (Nat × Equation)}

/-- With a gate, a missing gate is not what is reported. -/
theorem synthesize_ne_emptyGateSet (hgates : config.gates.isEmpty = false) (text : String) :
    (synthesize config text).result ≠ .error .emptyGateSet := by
  intro h
  cases hlines : (parseAll config.strict text).result with
  | error e => cases (synthesize_of_parseAll_error hgates hlines).symm.trans h
  | ok lines =>
    rw [synthesize_of_parseAll_ok hgates hlines] at h
    rcases netlistOfLines_cases (s := config.synthesizer) (wellShaped_of_parseAll hlines) with
      ⟨net, hnet, -⟩ | ⟨index, line, cause, -, hnet, -⟩
    · rw [hnet] at h
      cases h
    · rw [hnet] at h
      cases h

/-- Equations whose netlist is not built: one of them is the first without a circuit, and its line
is reported with the cause that building gives. -/
theorem synthesize_of_buildNetlist_error (hgates : config.gates.isEmpty = false)
    (hlines : (parseAll config.strict text).result = .ok lines) {e : BuildError}
    (he : buildNetlist config.synthesizer (lines.map Prod.snd) = .error e) :
    ∃ index line cause, FirstUnmapped config.synthesizer lines index line cause ∧
      e = .synthesis cause ∧ (synthesize config text).result = .error (.synthesis line cause) := by
  rcases netlistOfLines_cases (s := config.synthesizer) (wellShaped_of_parseAll hlines) with
    ⟨net, hnet, -⟩ | ⟨index, line, cause, hfirst, hnet, hbuild⟩
  · cases (netlistOfLines_eq_ok_iff.mp hnet).symm.trans he
  · cases hbuild.symm.trans he
    refine ⟨index, line, cause, hfirst, rfl, ?_⟩
    rw [synthesize_of_parseAll_ok hgates hlines, hnet]
    rfl

end Stages

/-- A run reports the first error of the first stage that has one. -/
theorem synthesize_report (config : Config α) (text : String) : Report config text where
  emptyGateSet := by
    refine ⟨fun h => ?_, fun hgates => synthesize_of_isEmpty hgates text⟩
    by_contra hgates
    rw [Bool.not_eq_true] at hgates
    exact synthesize_ne_emptyGateSet hgates text h
  unread := by
    rintro hgates ⟨index, number, cause, hfails⟩
    rcases parseAll_cases config.strict text with
      ⟨lines, -, hall⟩ | ⟨index, number, cause, herror, hfirst⟩
    · exact absurd hfails hall.not_fails
    · exact ⟨index, number, cause, hfirst, synthesize_of_parseAll_error hgates herror⟩
  read := by
    intro hreads
    rcases parseAll_cases config.strict text with
      ⟨lines, -, hall⟩ | ⟨index, number, cause, -, hfirst⟩
    · exact ⟨lines, hall⟩
    · exact absurd hfirst.fails (hreads index number cause)
  unmapped := by
    intro hgates lines hall e he
    exact synthesize_of_buildNetlist_error hgates (parseAll_of_allRead hall) he
  built := by
    intro hgates lines hall net hnet
    exact synthesize_eq_ok_iff.mpr ⟨hgates, ⟨lines, parseAll_of_allRead hall, rfl⟩, hnet⟩

-- no gate computes the first line, but the last one is reported, with the blank line counted
example : (synthesize ({ Config.standard with gates := .ofList [.nand] } : Config Float)
    "MUX(A, B)\n\n, B").result = .error (.parse 3 (.unexpectedToken .comma)) := by
  refine synthesize_of_parseAll_error (e := ⟨3, .unexpectedToken .comma⟩) rfl ?_
  show (parseAll false "MUX(A, B)\n\n, B").result = _
  cbv

end LogicSchematic
