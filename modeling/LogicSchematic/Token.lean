import LogicSchematic.Gate
import LogicSchematic.Text.Blank
import LogicSchematic.Text.UpperCase

/-!
# Tokens

The words an expression is made of. A text is upper-cased and read character by character: the four
punctuation characters are tokens of their own, blanks separate, and every other run of characters
is a word, an operator keyword or an identifier. What stands on the two sides of a punctuation
character or a blank is read independently (`ofCapitals_append_punctuation`,
`ofCapitals_append_blank`).
-/
namespace LogicSchematic

/-- A lexeme of an expression. -/
inductive Token where
  | openParen
  | closeParen
  | comma
  | equal
  /-- An operator keyword, such as `XOR`. -/
  | keyword (g : Gate)
  /-- Any other word, in upper case. -/
  | ident (name : String)
  deriving DecidableEq, Repr

namespace Token

/-- The text of a token. -/
def text : Token → String
  | .openParen => "("
  | .closeParen => ")"
  | .comma => ","
  | .equal => "="
  | .keyword g => g.name
  | .ident name => name

/-- The texts of several tokens, with a space between. -/
def textAll (ts : List Token) : String :=
  " ".intercalate (ts.map text)

/-- The token of a punctuation character. -/
def ofPunctuation? : Char → Option Token
  | '(' => some .openParen
  | ')' => some .closeParen
  | ',' => some .comma
  | '=' => some .equal
  | _ => none

/-- The token of a word in upper case. -/
def ofWord (word : List Char) : Token :=
  let name := String.ofList word
  match Gate.ofKeyword? name with
  | some g => .keyword g
  | none => .ident name

/-- Puts a finished word in front of the tokens that follow it; no word, no token. -/
def finishWord (word : List Char) (ts : List Token) : List Token :=
  if word = [] then ts else ofWord word :: ts

/-- One character, read in front of an unfinished word and the tokens that follow it. -/
def readChar (c : Char) : List Char × List Token → List Char × List Token
  | (word, ts) =>
    match ofPunctuation? c with
    | some t => ([], t :: finishWord word ts)
    | none => if Text.isBlank c then ([], finishWord word ts) else (c :: word, ts)

/-- Reads a text in upper case from its end: the word its first characters begin, and the tokens
after that word. -/
def scan (cs : List Char) (rest : List Char × List Token) : List Char × List Token :=
  cs.foldr readChar rest

/-- The tokens of a text in upper case. -/
def ofCapitals (cs : List Char) : List Token :=
  let (word, ts) := scan cs ([], [])
  finishWord word ts

end Token

/-- The tokens of a text. -/
def tokenize (text : String) : List Token :=
  Token.ofCapitals (Text.upperCase text.toList)

namespace Token

theorem scan_append (as bs : List Char) (rest : List Char × List Token) :
    scan (as ++ bs) rest = scan as (scan bs rest) :=
  List.foldr_append

/-- Tokens that follow pass through a scan untouched. -/
theorem scan_tokens (cs : List Char) (word : List Char) (ts : List Token) :
    scan cs (word, ts) = ((scan cs (word, [])).1, (scan cs (word, [])).2 ++ ts) := by
  induction cs with
  | nil => simp [scan]
  | cons c cs ih =>
    have step : ∀ (r : List Char × List Token), readChar c (r.1, r.2 ++ ts) =
        ((readChar c r).1, (readChar c r).2 ++ ts) := by
      rintro ⟨w, us⟩
      simp only [readChar]
      split
      · simp [finishWord]; split <;> simp
      · split
        · simp [finishWord]; split <;> simp
        · simp
    have h : scan (c :: cs) (word, ts) = readChar c (scan cs (word, ts)) := rfl
    rw [h, ih, step]
    rfl

/-- Scanning past a word boundary: what follows the boundary does not touch what precedes it. -/
theorem ofCapitals_append (as : List Char) {bs : List Char} {ts : List Token}
    (h : scan bs ([], []) = ([], ts)) : ofCapitals (as ++ bs) = ofCapitals as ++ ts := by
  simp only [ofCapitals, scan_append]
  rw [h, scan_tokens]
  simp only [finishWord]
  split <;> simp

theorem ofCapitals_append_punctuation (as bs : List Char) {c : Char} {t : Token}
    (h : ofPunctuation? c = some t) :
    ofCapitals (as ++ c :: bs) = ofCapitals as ++ t :: ofCapitals bs := by
  refine ofCapitals_append as ?_
  have hread : scan (c :: bs) ([], []) = readChar c (scan bs ([], [])) := rfl
  simp [hread, readChar, h, ofCapitals]

theorem ofCapitals_append_blank (as bs : List Char) {c : Char} (hc : ofPunctuation? c = none)
    (hblank : Text.isBlank c = true) :
    ofCapitals (as ++ c :: bs) = ofCapitals as ++ ofCapitals bs := by
  refine ofCapitals_append as ?_
  have hread : scan (c :: bs) ([], []) = readChar c (scan bs ([], [])) := rfl
  simp [hread, readChar, hc, hblank, ofCapitals]

end Token

end LogicSchematic
