/-!
Texts as lists of characters, and what counts as blank around them.

* `splitEnd` cuts a text before its trailing blanks and loses nothing (`splitEnd_append`).
* `firstWord?` is the first stretch of a text that holds no blank.
-/

namespace BemSheet

/-- A text is the list of its characters, so that every operation on it is a recursion on a list. -/
abbrev Text := List Char

/-- The characters with the Unicode property White_Space. -/
def isBlank (c : Char) : Bool :=
  let n := c.toNat
  (9 ≤ n && n ≤ 13) || n == 0x20 || n == 0x85 || n == 0xA0 || n == 0x1680 ||
    (0x2000 ≤ n && n ≤ 0x200A) || n == 0x2028 || n == 0x2029 || n == 0x202F || n == 0x205F ||
    n == 0x3000

namespace Text

/-- The blanks at the head of a text. -/
def leading (s : Text) : Text := s.takeWhile isBlank

/-- A text without the blanks at its head. -/
def trimStart (s : Text) : Text := s.dropWhile isBlank

/-- A text without its trailing blanks, and those blanks. -/
def splitEnd : Text → Text × Text
  | [] => ([], [])
  | c :: s =>
    match splitEnd s with
    | ([], blanks) => if isBlank c then ([], c :: blanks) else ([c], blanks)
    | (body, blanks) => (c :: body, blanks)

/-- A text without the blanks at either end. -/
def trim (s : Text) : Text := s.trimStart.splitEnd.1

/-- The first stretch of characters that are not blank; a blank text has none. -/
def firstWord? (s : Text) : Option Text :=
  match s.trimStart with
  | [] => none
  | c :: t => some ((c :: t).takeWhile fun d => !isBlank d)

/-- The bytes that a text takes in UTF-8. -/
def utf8Size (s : Text) : Nat := s.foldl (fun n c => n + c.utf8Size) 0

/-- A property of all the characters of a text is checked along the text; so it is for a character
that may be missing. -/
instance (priority := 2000) decidableForall {p : Char → Prop} [DecidablePred p] (s : Text) :
    Decidable (∀ c ∈ s, p c) :=
  List.decidableBAll p s

instance (priority := 2000) decidableForallOption {p : Char → Prop} [DecidablePred p]
    (c? : Option Char) : Decidable (∀ c ∈ c?, p c) :=
  Option.decidableForallMem c?

theorem leading_append (s : Text) : s.leading ++ s.trimStart = s :=
  List.takeWhile_append_dropWhile

theorem splitEnd_append (s : Text) : s.splitEnd.1 ++ s.splitEnd.2 = s := by
  induction s with
  | nil => rfl
  | cons c s ih =>
    rw [splitEnd]
    split
    next blanks eq =>
      simp only [eq, List.nil_append] at ih
      split <;> simp [ih]
    next body blanks _ eq =>
      simp only [eq] at ih
      simp [ih]

end Text

end BemSheet
