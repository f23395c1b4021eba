import BemSheet.Text.Scan

/-!
What a scan cuts a text into.

* `joined_cut`: the text before the leftmost match, and each match with the text that follows it,
  are the whole text.
* `cut_mem`: every character between matches stands where no match starts, and a word that always
  starts a match is not left there (`cut_free`).
* `first_match`: a text has no match, or it has a leftmost one; `cut_append` and `cut_match` tell
  what the scan makes of the text before it and of the match.
* `Cuts.eq`: a text put together of gaps and of matches that are found there is cut into these.
-/

namespace BemSheet.Text

/-- A text of matches, each with the text that follows it up to the next one. `Match` tells what a
match is written as. -/
inductive Joined {α : Type} (Match : α → Text → Prop) : List (α × Text) → Text → Prop
  | nil : Joined Match [] []
  | cons {a : α} {matched between rest : Text} {others : List (α × Text)} (is : Match a matched)
      (h : Joined Match others rest) :
      Joined Match ((a, between) :: others) (matched ++ (between ++ rest))

/-- A scan that finds a piece at the head of a text, written as `Match` says. -/
def Finds {α : Type} (find : Text → Option (α × Nat)) (Match : α → Text → Prop) : Prop :=
  ∀ s a more, find s = some (a, more) →
    ∃ matched rest, s = matched ++ rest ∧ matched.length = more + 1 ∧ Match a matched

variable {α : Type} {find : Text → Option (α × Nat)}

theorem joined_cut {Match : α → Text → Prop} (h : Finds find Match) (left : Nat) (s : Text) :
    ∃ back, s.drop left = (cut find left s).1 ++ back ∧ Joined Match (cut find left s).2 back := by
  induction s generalizing left with
  | nil => exact ⟨[], by cases left <;> rfl, by cases left <;> exact .nil⟩
  | cons c s ih =>
    cases left with
    | succ left => exact ih left
    | zero =>
      rw [cut]
      split
      next found more eq =>
        obtain ⟨matched, rest, whole, length, is⟩ := h _ _ _ eq
        obtain ⟨back, others, joined⟩ := ih more
        refine ⟨_, ?_, .cons is joined⟩
        have tail : rest = s.drop more := by
          have := congrArg (List.drop (more + 1)) whole
          rwa [List.drop_succ_cons, ← length, List.drop_left, eq_comm] at this
        rw [← others, ← tail]
        exact whole
      next =>
        obtain ⟨back, others, joined⟩ := ih 0
        exact ⟨back, congrArg (c :: ·) others, joined⟩

theorem cut_mem {P : Char → Prop} (left : Nat) (s : Text)
    (h : ∀ c t, c :: t <:+ s → find (c :: t) = none → P c) :
    (∀ c ∈ (cut find left s).1, P c) ∧ ∀ match_ ∈ (cut find left s).2, ∀ c ∈ match_.2, P c := by
  induction s generalizing left with
  | nil => cases left <;> exact ⟨nofun, nofun⟩
  | cons c s ih =>
    have inner (left : Nat) := ih left fun d t suffix =>
      h d t (suffix.trans (List.suffix_cons c s))
    cases left with
    | succ left => exact inner left
    | zero =>
      rw [cut]
      split
      next found more eq =>
        exact ⟨nofun, List.forall_mem_cons.mpr (inner more)⟩
      next eq =>
        exact ⟨List.forall_mem_cons.mpr ⟨h c s List.suffix_rfl eq, (inner 0).1⟩, (inner 0).2⟩

theorem cut_isPrefix (left : Nat) (s : Text) : (cut find left s).1 <+: s.drop left := by
  induction s generalizing left with
  | nil => cases left <;> exact List.nil_prefix
  | cons c s ih =>
    cases left with
    | succ left => exact ih left
    | zero =>
      rw [cut]
      split
      · exact List.nil_prefix
      · exact List.cons_prefix_cons.mpr ⟨rfl, ih 0⟩

/-- Every match is found somewhere in the text, and the text that goes with it follows it there. -/
theorem cut_found (left : Nat) (s : Text) : ∀ match_ ∈ (cut find left s).2, ∃ t more,
    t <:+ s ∧ find t = some (match_.1, more) ∧ match_.2 <+: t.drop (more + 1) := by
  induction s generalizing left with
  | nil => cases left <;> exact nofun
  | cons c s ih =>
    have inner (left : Nat) : ∀ match_ ∈ (cut find left s).2, ∃ t more,
        t <:+ c :: s ∧ find t = some (match_.1, more) ∧ match_.2 <+: t.drop (more + 1) := by
      intro match_ mem
      obtain ⟨t, more, suffix, behind⟩ := ih left match_ mem
      exact ⟨t, more, suffix.trans (List.suffix_cons c s), behind⟩
    cases left with
    | succ left => exact inner left
    | zero =>
      rw [cut]
      split
      next a more found =>
        refine List.forall_mem_cons.mpr ⟨?_, inner more⟩
        exact ⟨c :: s, more, List.suffix_rfl, found, cut_isPrefix more s⟩
      next => exact inner 0

/-- If a match starts wherever a word does, the word is not left in the text between matches. -/
theorem cut_free {word : Text} (filled : word ≠ []) (left : Nat) (s : Text)
    (h : ∀ t, t <:+ s → word <+: t → find t ≠ none) :
    ¬ word <:+: (cut find left s).1 ∧ ∀ match_ ∈ (cut find left s).2, ¬ word <:+: match_.2 := by
  induction s generalizing left with
  | nil =>
    have nothing : ¬ word <:+: ([] : Text) := fun inside => filled (List.infix_nil.mp inside)
    cases left <;> exact ⟨nothing, nofun⟩
  | cons c s ih =>
    have inner (left : Nat) := ih left fun t suffix => h t (suffix.trans (List.suffix_cons c s))
    cases left with
    | succ left => exact inner left
    | zero =>
      rw [cut]
      split
      next a more _ =>
        have nothing : ¬ word <:+: ([] : Text) := fun inside => filled (List.infix_nil.mp inside)
        exact ⟨nothing, List.forall_mem_cons.mpr (inner more)⟩
      next none =>
        obtain ⟨free, others⟩ := inner 0
        refine ⟨?_, others⟩
        intro inside
        rcases List.infix_cons_iff.mp inside with starts | inside
        · have kept : c :: (cut find 0 s).1 <+: c :: s :=
            List.cons_prefix_cons.mpr ⟨rfl, cut_isPrefix 0 s⟩
          exact h (c :: s) List.suffix_rfl (starts.trans kept) none
        · exact free inside

/-! ## One match at a time -/

/-- No match starts in `gap`, where `rest` stands behind it. -/
def NoMatch (find : Text → Option (α × Nat)) (gap rest : Text) : Prop :=
  ∀ c u, c :: u <:+ gap → find (c :: u ++ rest) = none

theorem noMatch_cons {c : Char} {gap rest : Text} :
    NoMatch find (c :: gap) rest ↔ find (c :: gap ++ rest) = none ∧ NoMatch find gap rest := by
  constructor
  · intro h
    refine ⟨h c gap List.suffix_rfl, ?_⟩
    intro d u suffix
    exact h d u (suffix.trans (List.suffix_cons c gap))
  · rintro ⟨first, others⟩ d u suffix
    rcases List.suffix_cons_iff.mp suffix with eq | suffix
    · obtain ⟨rfl, rfl⟩ := List.cons.inj eq
      exact first
    · exact others d u suffix

/-- A text has no match, or there is a leftmost one. -/
theorem first_match (find : Text → Option (α × Nat)) (s : Text) : NoMatch find s [] ∨
    ∃ gap rest a more, s = gap ++ rest ∧ NoMatch find gap rest ∧ find rest = some (a, more) := by
  induction s with
  | nil => exact .inl fun c u suffix => absurd (List.suffix_nil.mp suffix) (List.cons_ne_nil _ _)
  | cons c s ih =>
    cases here : find (c :: s) with
    | some found =>
      refine .inr ⟨[], c :: s, found.1, found.2, rfl, ?_, here⟩
      intro d u suffix
      exact absurd (List.suffix_nil.mp suffix) (List.cons_ne_nil _ _)
    | none =>
      rcases ih with none | ⟨gap, rest, a, more, rfl, none, found⟩
      · exact .inl (noMatch_cons.mpr ⟨by rwa [List.append_nil], none⟩)
      · exact .inr ⟨c :: gap, rest, a, more, rfl, noMatch_cons.mpr ⟨here, none⟩, found⟩

/-- The text before a match is kept. -/
theorem cut_append {gap rest : Text} (h : NoMatch find gap rest) :
    cut find 0 (gap ++ rest) = (gap ++ (cut find 0 rest).1, (cut find 0 rest).2) := by
  induction gap with
  | nil => rfl
  | cons c gap ih =>
    obtain ⟨first, others⟩ := noMatch_cons.mp h
    rw [List.cons_append] at first
    simp only [List.cons_append, cut, first, ih others]

theorem cut_eq_self {s : Text} (h : NoMatch find s []) : cut find 0 s = (s, []) := by
  have whole := cut_append h
  rwa [List.append_nil, cut, List.append_nil] at whole

theorem cut_skip (piece rest : Text) :
    cut find piece.length (piece ++ rest) = cut find 0 rest := by
  induction piece with
  | nil => rfl
  | cons c piece ih => exact ih

/-- A match is taken whole, and the scan goes on behind it. -/
theorem cut_match {a : α} {more : Nat} {matched rest : Text}
    (found : find (matched ++ rest) = some (a, more)) (length : matched.length = more + 1) :
    cut find 0 (matched ++ rest) = ([], (a, (cut find 0 rest).1) :: (cut find 0 rest).2) := by
  cases matched with
  | nil => cases length
  | cons c matched =>
    obtain rfl : matched.length = more := Nat.succ.inj length
    rw [List.cons_append] at found
    simp only [List.cons_append, cut, found, cut_skip]

/-- A text that is put together of gaps without a match and of matches that are found behind them:
the first gap, and each match with the gap that follows it. -/
inductive Cuts (find : Text → Option (α × Nat)) : Text → Text → List (α × Text) → Prop
  | last {gap : Text} (none : NoMatch find gap []) : Cuts find gap gap []
  | found {gap matched rest next : Text} {a : α} {more : Nat} {others : List (α × Text)}
      (none : NoMatch find gap (matched ++ rest)) (is : find (matched ++ rest) = some (a, more))
      (length : matched.length = more + 1) (h : Cuts find rest next others) :
      Cuts find (gap ++ (matched ++ rest)) gap ((a, next) :: others)

theorem Cuts.eq {s first : Text} {others : List (α × Text)} (h : Cuts find s first others) :
    cut find 0 s = (first, others) := by
  induction h with
  | last none => exact cut_eq_self none
  | found none is length _ ih => rw [cut_append none, cut_match is length, ih, List.append_nil]

end BemSheet.Text
