/-!
# Blanks, trimming and lines

Which characters are blank, and how a text is cut: `trim` drops the blanks at both ends and `lines`
cuts at line feeds. A line feed ends a line, together with the one carriage return that may stand
before it; no other character separates lines, and text after the last line feed is a line of its
own. `trim_of_no_blank` and `lines_no_newline` say when the cuts change nothing, `trim_append` and
`lines_append_newline` what they give back of a text that was put together.
-/
namespace LogicSchematic.Text

/-- A character with the Unicode property `White_Space`. -/
def isBlank (c : Char) : Bool :=
  let n := c.toNat
  (9 ≤ n && n ≤ 13) || n == 0x20 || n == 0x85 || n == 0xA0 || n == 0x1680 ||
    (0x2000 ≤ n && n ≤ 0x200A) || n == 0x2028 || n == 0x2029 || n == 0x202F || n == 0x205F ||
    n == 0x3000

/-- Every character that core calls white space is blank. -/
theorem isBlank_of_isWhitespace {c : Char} (h : c.isWhitespace) : isBlank c := by
  simp only [Char.isWhitespace, Bool.or_eq_true, decide_eq_true_eq] at h
  rcases h with ((rfl | rfl) | rfl) | rfl <;> decide

/-- Drops the blanks at both ends of a text. -/
def trim (cs : List Char) : List Char :=
  ((cs.dropWhile isBlank).reverse.dropWhile isBlank).reverse

/-- `trim` on strings. -/
def trimString (s : String) : String :=
  String.ofList (trim s.toList)

/-- Drops the carriage return at the end of a line, if there is one. -/
def dropReturn (line : List Char) : List Char :=
  if line.getLast? = some '\r' then line.dropLast else line

/-- The lines of a text. -/
def lines (cs : List Char) : List (List Char) :=
  go [] cs
where
  /-- Cuts what follows, when the characters of `line` (last first) have been read. -/
  go (line : List Char) : List Char → List (List Char)
    | [] => if line = [] then [] else [line.reverse]
    | '\n' :: cs => dropReturn line.reverse :: go [] cs
    | c :: cs => go (c :: line) cs

theorem dropWhile_isBlank_of_all {cs : List Char} (h : ∀ c ∈ cs, isBlank c = false) :
    cs.dropWhile isBlank = cs := by
  cases cs with
  | nil => rfl
  | cons c cs => simp [List.dropWhile, h c (by simp)]

/-- A text without blanks is its own trimming. -/
theorem trim_of_no_blank {cs : List Char} (h : ∀ c ∈ cs, isBlank c = false) : trim cs = cs := by
  have hr : ∀ c ∈ cs.reverse, isBlank c = false := fun c hc => h c (List.mem_reverse.mp hc)
  rw [trim, dropWhile_isBlank_of_all h, dropWhile_isBlank_of_all hr, List.reverse_reverse]

/-- Blanks around a text without blanks do not matter. -/
theorem trim_append {cs : List Char} (before after : List Char)
    (hbefore : ∀ c ∈ before, isBlank c = true) (h : ∀ c ∈ cs, isBlank c = false)
    (hafter : ∀ c ∈ after, isBlank c = true) : trim (before ++ cs ++ after) = cs := by
  have hr : ∀ c ∈ after.reverse, isBlank c = true := fun c hc => hafter c (List.mem_reverse.mp hc)
  rw [trim, List.append_assoc, List.dropWhile_append_of_pos hbefore]
  cases cs with
  | nil =>
    rw [List.nil_append, ← List.append_nil after, List.dropWhile_append_of_pos hafter]
    rfl
  | cons c cs =>
    have hkeep : (c :: cs ++ after).dropWhile isBlank = c :: cs ++ after := by
      simp [h c (by simp)]
    have hback : ∀ d ∈ (c :: cs).reverse, isBlank d = false :=
      fun d hd => h d (List.mem_reverse.mp hd)
    rw [hkeep, List.reverse_append, List.dropWhile_append_of_pos hr, dropWhile_isBlank_of_all hback,
      List.reverse_reverse]

theorem lines_go_no_newline (cs : List Char) (h : '\n' ∉ cs) (line : List Char) :
    lines.go line cs = if line = [] ∧ cs = [] then [] else [line.reverse ++ cs] := by
  induction cs generalizing line with
  | nil => by_cases hl : line = [] <;> simp [lines.go, hl]
  | cons c cs ih =>
    have hc : c ≠ '\n' := fun e => h (by simp [e])
    have hcs : '\n' ∉ cs := fun m => h (by simp [m])
    simp [lines.go, ih hcs]

/-- A text without line feeds is one line, or none when it is empty. -/
theorem lines_no_newline {cs : List Char} (h : '\n' ∉ cs) :
    lines cs = if cs = [] then [] else [cs] := by
  simp [lines, lines_go_no_newline cs h]

theorem lines_go_append_newline {cs : List Char} (h : '\n' ∉ cs) (line rest : List Char) :
    lines.go line (cs ++ '\n' :: rest) = dropReturn (line.reverse ++ cs) :: lines rest := by
  induction cs generalizing line with
  | nil => simp [lines.go, lines]
  | cons c cs ih =>
    have hc : c ≠ '\n' := fun e => h (by simp [e])
    have hcs : '\n' ∉ cs := fun m => h (by simp [m])
    simp [lines.go, ih hcs]

/-- A line that is written with its line feed is read as that line. -/
theorem lines_append_newline {line : List Char} (h : '\n' ∉ line) (hreturn : '\r' ∉ line)
    (rest : List Char) : lines (line ++ '\n' :: rest) = line :: lines rest := by
  have hlast : line.getLast? ≠ some '\r' := fun e => hreturn (List.mem_of_getLast? e)
  rw [lines, lines_go_append_newline h, List.reverse_nil, List.nil_append, dropReturn, if_neg hlast]

end LogicSchematic.Text
