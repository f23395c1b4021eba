import BemSheet.Text.Scan

/-!
The words of a modifier.

A separator is an arrow `->` with at most one blank on either side, a comma with at most one blank
after it, or a single blank; at each place the first of these that fits is taken.
-/

namespace BemSheet.Bem

/-- The number of characters of the arrow at the head of a text, with the blank after it. -/
def arrowLength : Text → Nat
  | '-' :: '>' :: s => if (s.head?.map isBlank).getD false then 3 else 2
  | _ => 0

/-- The number of characters of the separator at the head of a text. -/
def separatorLength : Text → Nat
  | [] => 0
  | c :: s =>
    if isBlank c then 1 + arrowLength s
    else if c = ',' then if (s.head?.map isBlank).getD false then 2 else 1
    else arrowLength (c :: s)

/-- The separator at the head of a text, and one less than its number of characters. -/
def separatorAt? (s : Text) : Option (Unit × Nat) :=
  match separatorLength s with
  | 0 => none
  | n + 1 => some ((), n)

/-- The text before the first separator of a modifier, and the text after each. -/
def modifierWords (value : Text) : Text × List Text :=
  let (first, others) := Text.cut separatorAt? 0 value
  (first, others.map (·.2))

/-- A modifier with the delimiter in the place of each separator. -/
def delimit (value delimiter : Text) : Text :=
  let (first, others) := modifierWords value
  first ++ others.flatMap (delimiter ++ ·)

end BemSheet.Bem
