import BemSheet.Text

/-!
Two ways of going through a text once, from left to right, by a measure of what stands at each
place. Both step over a match one character at a time, so they recur on the text itself.

* `run` takes the longest row of units at the head of a text; it is a piece of that text
  (`run_isPrefix`).
* `cut` cuts a text at every leftmost match and keeps the text between matches.
-/

namespace BemSheet.Text

/-- The longest row of units at the head of a text, the first `left` characters of which belong to
a unit already entered. `unit s` is the number of characters of the unit that `s` starts with, and
zero where none starts. -/
def run (unit : Text → Nat) : (left : Nat) → Text → Text
  | _, [] => []
  | left + 1, c :: s => c :: run unit left s
  | 0, c :: s =>
    match unit (c :: s) with
    | 0 => []
    | n + 1 => c :: run unit n s

/-- What is left of a text after a piece at its head. -/
def after (piece s : Text) : Text := s.drop piece.length

/-- The text before the leftmost match, and each match with the text that follows it up to the next
one. The first `left` characters belong to a match already made. `find s` is the match that `s`
starts with and one less than the number of its characters. -/
def cut {α : Type} (find : Text → Option (α × Nat)) : (left : Nat) → Text → Text × List (α × Text)
  | _, [] => ([], [])
  | left + 1, _ :: s => cut find left s
  | 0, c :: s =>
    match find (c :: s) with
    | some (found, more) =>
      let (between, others) := cut find more s
      ([], (found, between) :: others)
    | none =>
      let (between, others) := cut find 0 s
      (c :: between, others)

theorem run_isPrefix (unit : Text → Nat) (left : Nat) (s : Text) : run unit left s <+: s := by
  induction s generalizing left with
  | nil => cases left <;> exact List.nil_prefix
  | cons c s ih =>
    cases left with
    | succ left => exact List.cons_prefix_cons.mpr ⟨rfl, ih left⟩
    | zero =>
      simp only [run]
      split
      · exact List.nil_prefix
      · exact List.cons_prefix_cons.mpr ⟨rfl, ih _⟩

theorem append_after {piece s : Text} (h : piece <+: s) : piece ++ after piece s = s := by
  obtain ⟨rest, rfl⟩ := h
  simp [after]

/-- A piece of what is left lengthens the piece before it. -/
theorem append_isPrefix {piece next s : Text} (h : piece <+: s) (h' : next <+: after piece s) :
    piece ++ next <+: s := by
  have joined := List.prefix_append_right_inj piece |>.mpr h'
  rwa [append_after h] at joined

theorem take_append_isPrefix {n : Nat} {next s : Text} (h : next <+: s.drop n) :
    s.take n ++ next <+: s := by
  have joined := List.prefix_append_right_inj (s.take n) |>.mpr h
  rwa [List.take_append_drop] at joined

theorem takeWhile_append_isPrefix {test : Char → Bool} {next s : Text}
    (h : next <+: s.dropWhile test) : s.takeWhile test ++ next <+: s := by
  have joined := List.prefix_append_right_inj (s.takeWhile test) |>.mpr h
  rwa [List.takeWhile_append_dropWhile] at joined

end BemSheet.Text
