/-!
# Cutting a text at a character

`split` cuts a text at every occurrence of a separator and `splitFirst?` at the first one.
`split_append_cons` says that the pieces on the two sides of a separator do not depend on each
other.
-/
namespace LogicSchematic.Text

/-- The pieces between the separators; one piece more than there are separators. -/
def split (sep : Char) : List Char → List (List Char)
  | [] => [[]]
  | c :: cs =>
    if c = sep then [] :: split sep cs
    else
      match split sep cs with
      | [] => [[c]]
      | piece :: pieces => (c :: piece) :: pieces

/-- What stands before the first separator and what stands after it. -/
def splitFirst? (sep : Char) : List Char → Option (List Char × List Char)
  | [] => none
  | c :: cs =>
    if c = sep then some ([], cs)
    else (splitFirst? sep cs).map fun (before, after) => (c :: before, after)

theorem split_ne_nil (sep : Char) (cs : List Char) : split sep cs ≠ [] := by
  cases cs with
  | nil => simp [split]
  | cons c cs =>
    simp only [split]
    split
    · simp
    · split <;> simp

/-- A text without separators is one piece. -/
theorem split_of_not_mem {sep : Char} {cs : List Char} (h : sep ∉ cs) : split sep cs = [cs] := by
  induction cs with
  | nil => rfl
  | cons c cs ih =>
    have hc : c ≠ sep := fun e => h (by simp [e])
    have hcs : sep ∉ cs := fun m => h (by simp [m])
    simp [split, hc, ih hcs]

theorem split_append_cons (sep : Char) (as bs : List Char) :
    split sep (as ++ sep :: bs) = split sep as ++ split sep bs := by
  induction as with
  | nil => simp [split]
  | cons a as ih =>
    by_cases h : a = sep
    · simp [split, h, ih]
    · have hne := split_ne_nil sep as
      simp only [List.cons_append, split, h, if_false, ih]
      cases hs : split sep as with
      | nil => exact absurd hs hne
      | cons piece pieces => simp

theorem splitFirst?_of_not_mem {sep : Char} {cs : List Char} (h : sep ∉ cs) :
    splitFirst? sep cs = none := by
  induction cs with
  | nil => rfl
  | cons c cs ih =>
    have hc : c ≠ sep := fun e => h (by simp [e])
    have hcs : sep ∉ cs := fun m => h (by simp [m])
    simp [splitFirst?, hc, ih hcs]

theorem splitFirst?_append {sep : Char} {before : List Char} (h : sep ∉ before)
    (after : List Char) : splitFirst? sep (before ++ sep :: after) = some (before, after) := by
  induction before with
  | nil => simp [splitFirst?]
  | cons c before ih =>
    have hc : c ≠ sep := fun e => h (by simp [e])
    have hb : sep ∉ before := fun m => h (by simp [m])
    simp [splitFirst?, hc, ih hb]

end LogicSchematic.Text
