import BemSheet.Bem.Selector
import BemSheet.Proofs.Text.Cut

/-!
What the scans of a selector find.

A tag is written as its keyword and its contents in parentheses, a clause as itself, and either may
have an alias before it. So a clause is its tags with the text between them (`joined_tags`), and a
selector is its clauses with the text between them (`joined_clauses`).
-/

namespace BemSheet.Bem

open Text

/-- A match, or an alias and a match. -/
def Aliased {α : Type} (Match : α → Text → Prop) (a : α) (s : Text) : Prop :=
  ∃ mark matched, (∀ c ∈ mark, isAlias c = true) ∧ Match a matched ∧ s = mark ++ matched

theorem finds_withAlias {α : Type} {find : Text → Option (α × Nat)} {Match : α → Text → Prop}
    (h : Finds find Match) : Finds (withAlias find) (Aliased Match) := by
  intro s a more found
  cases s with
  | nil => cases found
  | cons c s =>
    rw [withAlias] at found
    split at found
    next mark =>
      obtain ⟨⟨b, length⟩, inner, eq⟩ := Option.map_eq_some_iff.mp found
      obtain ⟨rfl, rfl⟩ := Prod.mk.inj eq
      obtain ⟨matched, rest, rfl, size, is⟩ := h _ _ _ inner
      refine ⟨c :: matched, rest, rfl, congrArg (· + 1) size, [c], matched, ?_, is, rfl⟩
      simpa using mark
    next =>
      obtain ⟨matched, rest, whole, size, is⟩ := h _ _ _ found
      exact ⟨matched, rest, whole, size, [], matched, nofun, is, rfl⟩

/-! ## Tags -/

/-- A tag as it is written, without an alias. -/
def Tag.text (tag : Tag) : Text := tag.keyword.word ++ '(' :: (tag.content ++ [')'])

/-- A tag has contents, all of them characters of values. -/
structure Tag.WellFormed (tag : Tag) : Prop where
  nonempty : tag.content ≠ []
  values : ∀ c ∈ tag.content, isValueChar c = true

/-- What the scan finds for a tag. -/
def Tag.Written (tag : Tag) (s : Text) : Prop := s = tag.text ∧ tag.WellFormed

theorem finds_tagAt (k : Keyword) :
    Finds k.tagAt? fun tag s => tag.keyword = k ∧ tag.Written s := by
  intro s tag more found
  unfold Keyword.tagAt? at found
  split at found
  next entry =>
    obtain ⟨body, rfl⟩ := List.isPrefixOf_iff_prefix.mp entry
    have drop : (k.word ++ ['('] ++ body).drop (k.word.length + 1) = body :=
      List.drop_left' (by simp)
    simp only [drop] at found
    split at found
    next closed =>
      obtain ⟨rfl, rfl⟩ := Prod.mk.inj (Option.some.inj found)
      obtain ⟨rest, eq⟩ := List.head?_eq_some_iff.mp closed.2
      have values : ∀ c ∈ body.takeWhile isValueChar, isValueChar c = true :=
        List.all_eq_true.mp List.all_takeWhile
      have whole : body.takeWhile isValueChar ++ ')' :: rest = body := by
        rw [← eq, List.takeWhile_append_dropWhile]
      refine ⟨Tag.text ⟨k, body.takeWhile isValueChar⟩, rest, ?_, ?_, rfl, rfl, closed.1, values⟩
      · simp [Tag.text, whole]
      · simp [Tag.text]
        omega
    next => cases found
  next => cases found

theorem finds_bareTagAt : Finds bareTagAt? Tag.Written := by
  intro s tag more found
  obtain ⟨k, -, found⟩ := List.exists_of_findSome?_eq_some found
  obtain ⟨matched, rest, whole, size, -, is⟩ := finds_tagAt k s tag more found
  exact ⟨matched, rest, whole, size, is⟩

/-- A clause is the text before its first tag, and its tags with the text between them. -/
theorem joined_tags (clause : Text) : ∃ back, clause = (tags clause).1 ++ back ∧
    Joined (Aliased Tag.Written) (tags clause).2 back :=
  joined_cut (finds_withAlias finds_bareTagAt) 0 clause

/-! ## Clauses -/

/-- A clause is written as itself, and starts with the word that opens clauses. -/
def Clause (clause s : Text) : Prop := s = clause ∧ entryWord <+: clause

theorem finds_clauseAt : Finds clauseAt? Clause := by
  intro s clause more found
  unfold clauseAt? at found
  split at found
  next entry =>
    simp only at found
    split at found
    next longer =>
      obtain ⟨rfl, rfl⟩ := Prod.mk.inj (Option.some.inj found)
      refine ⟨_, s.dropWhile fun c => !isLineEnd c, List.takeWhile_append_dropWhile.symm, ?_, rfl,
        ?_⟩
      · omega
      · obtain ⟨rest, rfl⟩ := List.isPrefixOf_iff_prefix.mp entry
        rw [List.takeWhile_append_of_pos (by decide)]
        exact List.prefix_append _ _
    next => cases found
  next => cases found

/-- A selector is the text before its first clause, and its clauses with the text between them. -/
theorem joined_clauses (selector : Text) : ∃ back, selector = (clauses selector).1 ++ back ∧
    Joined (Aliased Clause) (clauses selector).2 back :=
  joined_cut (finds_withAlias finds_clauseAt) 0 selector

end BemSheet.Bem
