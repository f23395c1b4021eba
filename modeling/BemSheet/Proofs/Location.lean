import BemSheet.Location

/-!
Places in the order of a text.

No character takes a cursor back, and only a line feed may leave it where it is
(`Cursor.earlier_step`). So any other character of a text is known by its place
(`Cursor.through_unique`).
-/

namespace BemSheet

namespace Location

/-- One place is in an earlier line than the other, or further left in the same line. -/
def Earlier (a b : Location) : Prop :=
  a.line < b.line ∨ a.line = b.line ∧ a.column < b.column

theorem Earlier.trans {a b c : Location} (h : a.Earlier b) (h' : b.Earlier c) : a.Earlier c := by
  unfold Earlier at *
  omega

theorem not_earlier_self (a : Location) : ¬ a.Earlier a := by
  unfold Earlier
  omega

end Location

namespace Cursor

theorem earlier_step {c : Char} (h : c ≠ '\n') (p : Cursor) :
    p.location.Earlier (p.step c).location := by
  have wide : 0 < width c := by
    unfold width
    split <;> decide
  rw [step, if_neg h]
  split
  · exact .inl (Nat.lt_succ_self _)
  · split
    · exact .inl (Nat.lt_succ_self _)
    · exact .inr ⟨rfl, Nat.lt_add_of_pos_right wide⟩

/-- A line feed stays in its place behind a carriage return. -/
theorem step_le (c : Char) (p : Cursor) :
    p.location = (p.step c).location ∨ p.location.Earlier (p.step c).location := by
  by_cases feed : c = '\n'
  · rw [step, if_pos feed]
    split
    · exact .inl rfl
    · exact .inr (.inl (Nat.lt_succ_self _))
  · exact .inr (earlier_step feed p)

theorem through_le (s : Text) (p : Cursor) :
    p.location = (p.through s).location ∨ p.location.Earlier (p.through s).location := by
  induction s generalizing p with
  | nil => exact .inl rfl
  | cons c s ih =>
    have others : (p.step c).location = (p.through (c :: s)).location ∨
        (p.step c).location.Earlier (p.through (c :: s)).location := ih (p.step c)
    rcases step_le c p with same | first
    · rwa [same]
    · rcases others with same | others
      · exact .inr (same ▸ first)
      · exact .inr (first.trans others)

/-- Behind a character that is no line feed, a place is a later one. -/
theorem earlier_through {c : Char} (h : c ≠ '\n') (s : Text) (p : Cursor) :
    p.location.Earlier (p.through (c :: s)).location := by
  have first := earlier_step h p
  rcases through_le s (p.step c) with same | others
  · exact same ▸ first
  · exact first.trans others

theorem eq_nil_of_same {c : Char} (h : c ≠ '\n') {front back rest : Text} {p : Cursor}
    (whole : c :: rest = front ++ back) (same : p.location = (p.through front).location) :
    front = [] := by
  cases front with
  | nil => rfl
  | cons d front =>
    obtain ⟨rfl, -⟩ := List.cons.inj whole
    have later := earlier_through h front p
    rw [← same] at later
    exact absurd later p.location.not_earlier_self

/-- A character that is no line feed is known by its place. -/
theorem through_unique {c : Char} (h : c ≠ '\n') {a b s t : Text} {p : Cursor}
    (whole : a ++ c :: s = b ++ c :: t)
    (same : (p.through a).location = (p.through b).location) : a = b := by
  rcases List.append_eq_append_iff.mp whole with ⟨between, rfl, eq⟩ | ⟨between, rfl, eq⟩
  · rw [through_append] at same
    rw [eq_nil_of_same h eq same, List.append_nil]
  · rw [through_append] at same
    rw [eq_nil_of_same h eq same.symm, List.append_nil]

end Cursor

end BemSheet
