import BemSheet.Css.Name

/-!
Numbers, with the percent sign or the unit that follows them.
-/

namespace BemSheet.Css

def digits (s : Text) : Text := s.takeWhile Char.isDigit

/-- Whether a point with a digit after it stands at the head of a text. -/
def startsFraction : Text → Bool
  | '.' :: s => startsWith Char.isDigit s
  | _ => false

def isSign (c : Char) : Bool := c == '+' || c == '-'

/-- Whether a number starts with `c`, by the text after it. -/
def startsNumber (c : Char) (s : Text) : Bool :=
  if isSign c then startsWith Char.isDigit s || startsFraction s
  else c.isDigit || startsFraction (c :: s)

/-- The point and the digits after it, where a text starts with them. -/
def fraction (s : Text) : Text :=
  if startsFraction s then s.take 1 ++ digits (s.drop 1) else []

/-- The exponent of ten that a text starts with; its letter needs digits to follow. -/
def exponent (s : Text) : Text :=
  if startsWith (fun c => c == 'e' || c == 'E') s then
    let t := s.drop 1
    if startsWith Char.isDigit t then s.take 1 ++ digits t
    else if startsWith isSign t && startsWith Char.isDigit (t.drop 1) then
      s.take 2 ++ digits (s.drop 2)
    else []
  else []

/-- The percent sign or the name that makes a number a percentage or a measure. -/
def unitOf (s : Text) : Text :=
  if startsWith (· == '%') s then s.take 1
  else if startsIdent s then name s
  else []

/-- A piece at the head of a text and the piece that follows it. -/
def followedBy (first second : Text → Text) (s : Text) : Text :=
  first s ++ second (Text.after (first s) s)

/-- What follows the first character `c` of a number. -/
def numberTail (c : Char) : Text → Text :=
  let decimals := if c = '.' then fun _ => [] else fraction
  followedBy digits (followedBy decimals (followedBy exponent unitOf))

/-! ## Every reader takes a piece at the head of its text -/

theorem digits_isPrefix (s : Text) : digits s <+: s := List.takeWhile_prefix _

theorem fraction_isPrefix (s : Text) : fraction s <+: s := by
  unfold fraction
  split
  · exact Text.take_append_isPrefix (digits_isPrefix _)
  · exact List.nil_prefix

theorem exponent_isPrefix (s : Text) : exponent s <+: s := by
  simp only [exponent]
  split
  · split
    · exact Text.take_append_isPrefix (digits_isPrefix _)
    · split
      · exact Text.take_append_isPrefix (digits_isPrefix _)
      · exact List.nil_prefix
  · exact List.nil_prefix

theorem unitOf_isPrefix (s : Text) : unitOf s <+: s := by
  unfold unitOf
  split
  · exact List.take_prefix _ _
  · split
    · exact name_isPrefix s
    · exact List.nil_prefix

theorem followedBy_isPrefix {first second : Text → Text} (h : ∀ s, first s <+: s)
    (h' : ∀ s, second s <+: s) (s : Text) : followedBy first second s <+: s :=
  Text.append_isPrefix (h s) (h' _)

theorem numberTail_isPrefix (c : Char) (s : Text) : numberTail c s <+: s := by
  refine followedBy_isPrefix digits_isPrefix (followedBy_isPrefix (fun t => ?_)
    (followedBy_isPrefix exponent_isPrefix unitOf_isPrefix)) s
  split
  · exact List.nil_prefix
  · exact fraction_isPrefix t

end BemSheet.Css
