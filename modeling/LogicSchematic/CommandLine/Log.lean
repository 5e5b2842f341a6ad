import LogicSchematic.Text.Blank

/-!
# The log

What a run logs are lines that begin with a level. The text of an error may hold anything that
stands in the arguments or in a file: the control characters that a terminal acts on are spelled
out, and of a text with line feeds the first line is logged. `spellControls_no_control` says that no
such character is left, and `spellControls_of_no_control` that nothing else changes.
-/
namespace LogicSchematic.CommandLine

/-- The control characters that a terminal acts on: bell, backspace, form feed, escape, delete, and
the controls beyond ASCII. -/
def isTerminalControl (c : Char) : Bool :=
  let n := c.toNat
  n == 0x07 || n == 0x08 || n == 0x0C || n == 0x1B || n == 0x7F || (0x80 ≤ n && n ≤ 0x9F)

/-- A number below 256 in two hexadecimal digits. -/
def hexPair (n : Nat) : List Char := [Nat.digitChar (n / 16), Nat.digitChar (n % 16)]

/-- A control character spelled out; one beyond ASCII in braces. -/
def controlName (c : Char) : List Char :=
  if c.toNat < 128 then ['\\', 'x'] ++ hexPair c.toNat
  else ['\\', 'u', '\x7b'] ++ hexPair c.toNat ++ ['\x7d']

/-- Spells out the control characters that a terminal acts on. -/
def spellControls (cs : List Char) : List Char :=
  cs.flatMap fun c => if isTerminalControl c then controlName c else [c]

/-- The first line of a text. -/
def firstLine (cs : List Char) : List Char :=
  (Text.lines (cs ++ ['\n'])).head?.getD []

/-- The line that logs an error. -/
def errorLine (message : String) : String :=
  "ERROR " ++ String.ofList (firstLine (spellControls message.toList))

/-- The line that logs a warning. -/
def warningLine (message : String) : String := "WARN " ++ message

theorem spellControls_of_no_control {cs : List Char} (h : ∀ c ∈ cs, isTerminalControl c = false) :
    spellControls cs = cs := by
  induction cs with
  | nil => rfl
  | cons c cs ih =>
    have hcs := ih fun d hd => h d (by simp [hd])
    simp only [spellControls] at hcs
    simp [spellControls, h c (by simp), hcs]

theorem digitChar_no_control : ∀ n < 16, isTerminalControl (Nat.digitChar n) = false := by
  decide

theorem hexPair_no_control {n : Nat} (hn : n < 256) {d : Char} (hd : d ∈ hexPair n) :
    isTerminalControl d = false := by
  simp only [hexPair, List.mem_cons, List.not_mem_nil, or_false] at hd
  rcases hd with rfl | rfl
  · exact digitChar_no_control _ (by omega)
  · exact digitChar_no_control _ (by omega)

theorem toNat_of_isTerminalControl {c : Char} (h : isTerminalControl c) : c.toNat < 256 := by
  simp only [isTerminalControl, Bool.or_eq_true, Bool.and_eq_true, beq_iff_eq,
    decide_eq_true_eq] at h
  omega

theorem controlName_no_control {c d : Char} (h : isTerminalControl c) (hd : d ∈ controlName c) :
    isTerminalControl d = false := by
  have hpair : d ∈ hexPair c.toNat → isTerminalControl d = false :=
    hexPair_no_control (toNat_of_isTerminalControl h)
  simp only [controlName] at hd
  split at hd
  · simp only [List.mem_append, List.mem_cons, List.not_mem_nil, or_false] at hd
    rcases hd with (rfl | rfl) | hd
    · decide
    · decide
    · exact hpair hd
  · simp only [List.mem_append, List.mem_cons, List.not_mem_nil, or_false] at hd
    rcases hd with ((rfl | rfl | rfl) | hd) | rfl
    · decide
    · decide
    · decide
    · exact hpair hd
    · decide

theorem spellControls_no_control {cs : List Char} {d : Char} (hd : d ∈ spellControls cs) :
    isTerminalControl d = false := by
  simp only [spellControls, List.mem_flatMap] at hd
  obtain ⟨c, -, hd⟩ := hd
  split at hd
  · next hc => exact controlName_no_control hc hd
  · next hc =>
    simp only [List.mem_singleton] at hd
    simpa [hd] using hc

end LogicSchematic.CommandLine
