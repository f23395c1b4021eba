import BemSheet.Text

/-!
The alphabet of style sheets: line breaks, white space and the characters of names.
-/

namespace BemSheet.Css

def isNewline (c : Char) : Bool := c == '\n' || c == '\r' || c == '\x0c'

/-- White space of the language, which is less than what `isBlank` holds of. -/
def isSpace (c : Char) : Bool := c == ' ' || c == '\t' || isNewline c

/-- Letters, the underscore, and everything outside ASCII; a null stands for a character outside
ASCII. -/
def isNameStart (c : Char) : Bool :=
  c.isAlpha || c == '_' || c == '\x00' || 0x80 ≤ c.toNat

def isNameChar (c : Char) : Bool := isNameStart c || c.isDigit || c == '-'

def isHexDigit (c : Char) : Bool :=
  c.isDigit || ('a' ≤ c && c ≤ 'f') || ('A' ≤ c && c ≤ 'F')

/-- Whether the first character of a text satisfies a test. -/
def startsWith (test : Char → Bool) : Text → Bool
  | [] => false
  | c :: _ => test c

/-- The number of characters of the line break at the head of a text. -/
def newlineLength : Text → Nat
  | '\r' :: '\n' :: _ => 2
  | c :: _ => if isNewline c then 1 else 0
  | [] => 0

theorem isBlank_of_isSpace {c : Char} (h : isSpace c = true) : isBlank c = true := by
  simp only [isSpace, isNewline, Bool.or_eq_true, beq_iff_eq] at h
  rcases h with (rfl | rfl) | (rfl | rfl) | rfl <;> decide

theorem singleton_isPrefix_of_startsWith {c : Char} {s : Text}
    (h : startsWith (· == c) s = true) : [c] <+: s := by
  cases s with
  | nil => cases h
  | cons d s =>
    rw [startsWith, beq_iff_eq] at h
    exact ⟨s, by rw [h]; rfl⟩

end BemSheet.Css
