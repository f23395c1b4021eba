import BemSheet.Css.Character
import BemSheet.Text.Scan

/-!
Escapes and names.

A name is the longest row of name characters and escapes; `nameValue` is what it says once its
escapes are read.
-/

namespace BemSheet.Css

/-- The character that stands for one that cannot be written. -/
def replacement : Char := '\uFFFD'

/-! ## Escapes -/

/-- At most six hexadecimal digits belong to one escape. -/
def escapeDigits (s : Text) : Text := (s.take 6).takeWhile isHexDigit

/-- The number of characters of an escape, its backslash included, by the text after the backslash.
One white space, or one line break of two characters, ends an escape written in digits and belongs
to it. -/
def escapeLength (s : Text) : Nat :=
  match escapeDigits s with
  | [] => if s.isEmpty then 1 else 2
  | digits =>
    let rest := Text.after digits s
    let space := if startsWith isNewline rest then newlineLength rest
      else if startsWith isSpace rest then 1 else 0
    1 + digits.length + space

def hexValue (c : Char) : Nat :=
  if c.isDigit then c.toNat - '0'.toNat
  else if 'a' ≤ c then c.toNat - 'a'.toNat + 10
  else c.toNat - 'A'.toNat + 10

/-- The character that an escape stands for, by the text after the backslash. Zero and numbers that
are no character stand for `replacement`. -/
def escapeValue (s : Text) : Char :=
  let value :=
    match escapeDigits s with
    | [] => s.head?.getD '\x00'
    | digits => Char.ofNat (digits.foldl (fun n d => 16 * n + hexValue d) 0)
  if value = '\x00' then replacement else value

/-! ## Names -/

/-- The number of characters of the name character or escape at the head of a text. A backslash
before a line break is no escape. -/
def nameUnit : Text → Nat
  | [] => 0
  | c :: s =>
    if c = '\\' then if startsWith isNewline s then 0 else escapeLength s
    else if isNameChar c then 1 else 0

/-- The longest name at the head of a text. -/
def name (s : Text) : Text := Text.run nameUnit 0 s

theorem name_isPrefix (s : Text) : name s <+: s := Text.run_isPrefix _ _ _

/-- Whether an identifier starts at the head of a text. -/
def startsIdent : Text → Bool
  | [] => false
  | c :: s =>
    if c = '\\' then !startsWith isNewline s
    else if c = '-' then startsWith (fun d => isNameStart d || d == '-' || d == '\\') s
    else isNameStart c

/-- What a name says. The first `left` characters belong to an escape already read. -/
def nameValue : (left : Nat) → Text → Text
  | _, [] => []
  | left + 1, _ :: s => nameValue left s
  | 0, c :: s =>
    if c = '\\' then escapeValue s :: nameValue (escapeLength s - 1) s
    else (if c = '\x00' then replacement else c) :: nameValue 0 s

end BemSheet.Css
