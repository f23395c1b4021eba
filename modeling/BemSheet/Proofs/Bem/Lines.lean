import BemSheet.Bem.Selector
import BemSheet.Proofs.Text.Cut

/-!
Selectors line by line.

The one scan over a selector finds in every line what it would find in that line alone: a clause
ends with its line, and so does the search for the alias before an entry.

* `expandLine`: a line by itself, read off its first `block(`.
* `expand_line`: behind a line stands a line end or nothing, and the line is expanded apart from it.
* `expand_lines`: so a selector is expanded line by line, with its line ends in their places.
-/

namespace BemSheet.Bem

open Text

/-! ## Lines -/

/-- The line end that a text starts with. -/
def lineEndAt? : Text → Option (Char × Nat)
  | [] => none
  | c :: _ => if isLineEnd c then some (c, 0) else none

/-- The first line of a text, and each line end with the line behind it. -/
def lines (s : Text) : Text × List (Char × Text) := cut lineEndAt? 0 s

/-- A text with each line changed and each line end kept. -/
def mapLines (f : Text → Text) (s : Text) : Text :=
  f (lines s).1 ++ (lines s).2.flatMap fun (lineEnd, line) => lineEnd :: f line

/-- A text without line ends. -/
def OneLine (s : Text) : Prop := ∀ c ∈ s, isLineEnd c = false

/-- A line end is written as itself. -/
def LineEnd (c : Char) (s : Text) : Prop := s = [c] ∧ isLineEnd c = true

theorem finds_lineEndAt : Finds lineEndAt? LineEnd := by
  intro s c more found
  cases s with
  | nil => cases found
  | cons d s =>
    rw [lineEndAt?] at found
    split at found
    next is =>
      obtain ⟨rfl, rfl⟩ := Prod.mk.inj (Option.some.inj found)
      exact ⟨[d], s, rfl, rfl, rfl, is⟩
    next => cases found

/-- A text is its first line, and its line ends with the lines behind them. -/
theorem joined_lines (s : Text) : ∃ back, s = (lines s).1 ++ back ∧
    Joined LineEnd (lines s).2 back :=
  joined_cut finds_lineEndAt 0 s

theorem oneLine_lines (s : Text) :
    OneLine (lines s).1 ∧ ∀ part ∈ (lines s).2, OneLine part.2 := by
  apply cut_mem
  intro c t _ none
  rw [lineEndAt?] at none
  split at none
  · cases none
  next other => simpa using other

theorem flatMap_of_joined {others : List (Char × Text)} {back : Text}
    (joined : Joined LineEnd others back) :
    (others.flatMap fun (lineEnd, line) => lineEnd :: line) = back := by
  induction joined with
  | nil => rfl
  | cons is _ ih =>
    obtain ⟨rfl, -⟩ := is
    rw [List.flatMap_cons, ih]
    rfl

theorem lineEnd_of_joined {others : List (Char × Text)} {back : Text}
    (joined : Joined LineEnd others back) : ∀ part ∈ others, isLineEnd part.1 = true := by
  induction joined with
  | nil => exact nofun
  | cons is _ ih => exact List.forall_mem_cons.mpr ⟨is.2, ih⟩

/-- Lines that stay make up the text that they were cut from. -/
theorem mapLines_id (s : Text) : mapLines id s = s := by
  obtain ⟨back, whole, joined⟩ := joined_lines s
  calc mapLines id s
    _ = (lines s).1 ++ back := congrArg ((lines s).1 ++ ·) (flatMap_of_joined joined)
    _ = s := whole.symm

/-! ## A line alone -/

/-- The text in front of the first `block(` of a line, and the text from there on. -/
def opening? : Text → Option (Text × Text)
  | [] => none
  | c :: s =>
    if entryWord.isPrefixOf (c :: s) then some ([], c :: s)
    else (opening? s).map fun (front, clause) => (c :: front, clause)

/-- A text without the alias that it ends with. -/
def withoutAlias (s : Text) : Text := if s.getLast?.any isAlias then s.dropLast else s

/-- A line by itself. From the first `block(` on it is a clause, if there is more than that word,
and the alias before the clause is dropped. -/
def expandLine (delimiters : Delimiters) (line : Text) : Text :=
  match opening? line with
  | none => line
  | some (front, clause) =>
    if clause = entryWord then line
    else withoutAlias front ++ renderClause delimiters clause

/-- The first `block(` of a line stands behind `front`, at the head of `clause`. -/
structure Entry (line front clause : Text) : Prop where
  whole : line = front ++ clause
  starts : entryWord <+: clause
  first : ∀ t, t <:+ front → t ≠ [] → ¬ entryWord <+: t ++ clause

theorem opening?_eq_some {line front clause : Text} :
    opening? line = some (front, clause) ↔ Entry line front clause := by
  constructor
  · intro h
    induction line generalizing front with
    | nil => cases h
    | cons c s ih =>
      rw [opening?] at h
      split at h
      next starts =>
        obtain ⟨rfl, rfl⟩ := Prod.mk.inj (Option.some.inj h)
        refine ⟨rfl, List.isPrefixOf_iff_prefix.mp starts, ?_⟩
        intro t suffix filled
        exact absurd (List.suffix_nil.mp suffix) filled
      next other =>
        obtain ⟨⟨behind, _⟩, found, eq⟩ := Option.map_eq_some_iff.mp h
        obtain ⟨rfl, rfl⟩ := Prod.mk.inj eq
        obtain ⟨rfl, starts, first⟩ := ih found
        refine ⟨rfl, starts, ?_⟩
        intro t suffix filled
        rcases List.suffix_cons_iff.mp suffix with rfl | suffix
        · rwa [List.isPrefixOf_iff_prefix] at other
        · exact first t suffix filled
  · rintro ⟨rfl, starts, first⟩
    induction front with
    | nil =>
      obtain ⟨rest, rfl⟩ := starts
      rfl
    | cons c front ih =>
      have other := first (c :: front) List.suffix_rfl (List.cons_ne_nil c front)
      rw [List.cons_append, ← List.isPrefixOf_iff_prefix] at other
      rw [List.cons_append, opening?, if_neg other,
        ih fun t suffix => first t (suffix.trans (List.suffix_cons c front))]
      rfl

theorem exists_entry {line t : Text} (suffix : t <:+ line) (starts : entryWord <+: t) :
    ∃ front clause, Entry line front clause := by
  cases found : opening? line with
  | some entry => exact ⟨entry.1, entry.2, opening?_eq_some.mp found⟩
  | none =>
    exfalso
    induction line with
    | nil =>
      rw [List.suffix_nil.mp suffix] at starts
      exact absurd starts (by decide)
    | cons c s ih =>
      rw [opening?] at found
      split at found
      · cases found
      next other =>
        rcases List.suffix_cons_iff.mp suffix with rfl | suffix
        · exact other (List.isPrefixOf_iff_prefix.mpr starts)
        · exact ih suffix (Option.map_eq_none_iff.mp found)

/-! ## What the scan finds in a line -/

/-- What may stand behind a line: nothing, or a line end first. -/
def EndsLine (rest : Text) : Prop := ∀ c ∈ rest.head?, isLineEnd c = true

/-- A line from which on stands a clause: the word that opens it, and more. -/
def Opens (s : Text) : Prop := entryWord <+: s ∧ entryWord.length < s.length

theorem takeWhile_line {line rest : Text} (one : OneLine line) (ends : EndsLine rest) :
    (line ++ rest).takeWhile (fun c => !isLineEnd c) = line := by
  rw [List.takeWhile_append_of_pos (by simpa [OneLine] using one)]
  cases rest with
  | nil => simp
  | cons c rest =>
    have is : isLineEnd c = true := ends c rfl
    simp [is]

theorem clauseAt?_of_opens {line rest : Text} (one : OneLine line) (ends : EndsLine rest)
    (opens : Opens line) : clauseAt? (line ++ rest) = some (line, line.length - 1) := by
  have starts : entryWord.isPrefixOf (line ++ rest) = true :=
    List.isPrefixOf_iff_prefix.mpr (opens.1.trans (List.prefix_append line rest))
  simp only [clauseAt?, starts, takeWhile_line one ends, opens.2, ↓reduceIte]

theorem opens_of_clauseAt? {line rest : Text} (one : OneLine line) (ends : EndsLine rest)
    {found : Text × Nat} (h : clauseAt? (line ++ rest) = some found) : Opens line := by
  unfold clauseAt? at h
  split at h
  next starts =>
    simp only [takeWhile_line one ends] at h
    split at h
    next longer =>
      obtain ⟨more, whole⟩ := List.isPrefixOf_iff_prefix.mp starts
      refine ⟨?_, longer⟩
      rw [← takeWhile_line one ends, ← whole, List.takeWhile_append_of_pos (by decide)]
      exact List.prefix_append _ _
    next => cases h
  next => cases h

/-- No clause starts in the part `gap` of a line, if none does so from one of its characters on, or
right behind it where it ends with an alias. -/
theorem noMatch_line {gap back rest : Text} (one : OneLine (gap ++ back)) (ends : EndsLine rest)
    (inside : ∀ t, t <:+ gap → t ≠ [] → ¬ Opens (t ++ back))
    (behind : gap.getLast?.any isAlias = true → ¬ Opens back) :
    NoMatch (withAlias clauseAt?) gap (back ++ rest) := by
  intro c u suffix
  have part {t : Text} (h : t <:+ gap) : OneLine (t ++ back) := by
    intro d hd
    exact one d (List.mem_append.mpr ((List.mem_append.mp hd).imp_left fun hd => h.subset hd))
  have none {t : Text} (h : t <:+ gap) (closed : ¬ Opens (t ++ back)) :
      clauseAt? (t ++ (back ++ rest)) = none := by
    apply Option.eq_none_iff_forall_ne_some.mpr
    intro found eq
    rw [← List.append_assoc] at eq
    exact closed (opens_of_clauseAt? (part h) ends eq)
  have tail : u <:+ gap := (List.suffix_cons c u).trans suffix
  rw [List.cons_append, withAlias]
  split
  next alias_ =>
    rw [Option.map_eq_none_iff]
    apply none tail
    cases u with
    | nil =>
      obtain ⟨lead, rfl⟩ := suffix
      exact behind (by simpa using alias_)
    | cons d u => exact inside _ tail (List.cons_ne_nil d u)
  next => exact none suffix (inside _ suffix (List.cons_ne_nil c u))

/-- An alias at the end of a text is one character, and a text without it does not end with one. -/
theorem exists_alias (s : Text) : ∃ mark, s = withoutAlias s ++ mark ∧
    (mark = [] ∧ s.getLast?.any isAlias = false ∨ ∃ c, isAlias c = true ∧ mark = [c]) := by
  obtain rfl | ⟨front, c, rfl⟩ := List.eq_nil_or_concat s
  · exact ⟨[], rfl, .inl ⟨rfl, rfl⟩⟩
  · by_cases alias_ : isAlias c = true
    · exact ⟨[c], by simp [withoutAlias, alias_], .inr ⟨c, alias_, rfl⟩⟩
    · exact ⟨[], by simp [withoutAlias, alias_], .inl ⟨rfl, by simpa using alias_⟩⟩

theorem withAlias_of_opens {mark clause rest : Text}
    (is : mark = [] ∨ ∃ c, isAlias c = true ∧ mark = [c]) (one : OneLine clause)
    (ends : EndsLine rest) (opens : Opens clause) :
    withAlias clauseAt? (mark ++ clause ++ rest) =
      some (clause, mark.length + (clause.length - 1)) := by
  have found := clauseAt?_of_opens one ends opens
  rcases is with rfl | ⟨c, alias_, rfl⟩
  · obtain ⟨⟨more, rfl⟩, -⟩ := opens
    have plain : withAlias clauseAt? (entryWord ++ more ++ rest) =
        clauseAt? (entryWord ++ more ++ rest) := rfl
    rw [List.nil_append, plain, found, List.length_nil, Nat.zero_add]
  · simp [withAlias, alias_, found, Nat.add_comm]

/-! ## Line by line -/

variable (delimiters : Delimiters)

theorem expand_gap {gap rest : Text} (none : NoMatch (withAlias clauseAt?) gap rest) :
    expand delimiters (gap ++ rest) = gap ++ expand delimiters rest := by
  simp only [expand, clauses, cut_append none, List.append_assoc]

theorem expand_clause {matched clause rest : Text} {more : Nat}
    (found : withAlias clauseAt? (matched ++ rest) = some (clause, more))
    (length : matched.length = more + 1) :
    expand delimiters (matched ++ rest) =
      renderClause delimiters clause ++ expand delimiters rest := by
  simp [expand, clauses, cut_match found length]

/-- A line in which no clause starts is kept. -/
theorem expand_line_of_closed {line rest : Text} (one : OneLine line) (ends : EndsLine rest)
    (closed : ∀ t, t <:+ line → ¬ Opens t) :
    expand delimiters (line ++ rest) = line ++ expand delimiters rest := by
  rw [← List.append_nil line] at one
  have none : NoMatch (withAlias clauseAt?) line ([] ++ rest) := by
    apply noMatch_line one ends
    · intro t suffix _
      rw [List.append_nil]
      exact closed t suffix
    · exact fun _ => closed [] List.nil_suffix
  exact expand_gap delimiters none

namespace Entry

variable {line front clause rest : Text}

/-- A line that ends with its first `block(` has no clause. -/
theorem closed (h : Entry line front entryWord) : ∀ t, t <:+ line → ¬ Opens t := by
  obtain ⟨rfl, -, first⟩ := h
  rintro t ⟨lead, whole⟩ ⟨starts, longer⟩
  rcases List.append_eq_append_iff.mp whole with ⟨u, rfl, rfl⟩ | ⟨u, rfl, eq⟩
  · refine first u (List.suffix_append lead u) ?_ starts
    rintro rfl
    exact absurd longer (Nat.lt_irrefl _)
  · rw [eq, List.length_append] at longer
    omega

theorem opens (h : Entry line front clause) (more : clause ≠ entryWord) : Opens clause :=
  ⟨h.starts, Nat.lt_of_le_of_ne h.starts.length_le
    fun same => more (h.starts.eq_of_length same).symm⟩

/-- The first `block(` of a line with more behind it opens a clause, up to the end of the line. -/
theorem expand (h : Entry line front clause) (more : clause ≠ entryWord) (one : OneLine line)
    (ends : EndsLine rest) : expand delimiters (line ++ rest) =
      withoutAlias front ++ renderClause delimiters clause ++ expand delimiters rest := by
  have opens := h.opens more
  obtain ⟨rfl, -, first⟩ := h
  -- The scan stops at the alias, one character ahead of the entry, so the line is cut there.
  obtain ⟨mark, eq, is⟩ := exists_alias front
  generalize withoutAlias front = gap at eq ⊢
  subst eq
  have inside : ∀ t, t <:+ gap → t ≠ [] → ¬ Opens (t ++ (mark ++ clause)) := by
    rintro t ⟨lead, rfl⟩ filled opens
    rw [← List.append_assoc] at opens
    exact first (t ++ mark) ⟨lead, (List.append_assoc ..).symm⟩ (by simp [filled]) opens.1
  have behind : gap.getLast?.any isAlias = true → ¬ Opens (mark ++ clause) := by
    intro alias_ opens
    rcases is with ⟨rfl, plain⟩ | ⟨c, -, rfl⟩
    · rw [List.append_nil, alias_] at plain
      cases plain
    · exact first [c] (List.suffix_append gap [c]) (List.cons_ne_nil c []) opens.1
  have length : (mark ++ clause).length = mark.length + (clause.length - 1) + 1 := by
    have := opens.2
    rw [List.length_append]
    omega
  have tail : OneLine clause := fun c hc => one c (List.mem_append_right _ hc)
  have found := withAlias_of_opens (is.imp_left And.left) tail ends opens
  rw [List.append_assoc] at one
  calc Bem.expand delimiters (gap ++ mark ++ clause ++ rest)
    _ = gap ++ Bem.expand delimiters (mark ++ clause ++ rest) := by
      rw [List.append_assoc gap, List.append_assoc gap]
      exact expand_gap delimiters (noMatch_line one ends inside behind)
    _ = gap ++ renderClause delimiters clause ++ Bem.expand delimiters rest := by
      rw [expand_clause delimiters found length, List.append_assoc]

end Entry

theorem expandLine_of_entry {line front clause : Text} (h : Entry line front clause) :
    expandLine delimiters line = if clause = entryWord then line
      else withoutAlias front ++ renderClause delimiters clause := by
  simp only [expandLine, opening?_eq_some.mpr h]

theorem expandLine_of_closed {line : Text} (h : ∀ t, t <:+ line → ¬ Opens t) :
    expandLine delimiters line = line := by
  rw [expandLine]
  split
  · rfl
  next front clause found =>
    have entry := opening?_eq_some.mp found
    by_cases last : clause = entryWord
    · rw [if_pos last]
    · exact absurd (entry.opens last) (h clause (entry.whole ▸ List.suffix_append front clause))

/-- A line from which on a clause starts somewhere is expanded from its first `block(` on. -/
theorem expandLine_of_opens {line t : Text} (suffix : t <:+ line) (opens : Opens t) :
    ∃ front clause, Entry line front clause ∧ clause ≠ entryWord ∧
      expandLine delimiters line = withoutAlias front ++ renderClause delimiters clause := by
  obtain ⟨front, clause, entry⟩ := exists_entry suffix opens.1
  have more : clause ≠ entryWord := by
    rintro rfl
    exact entry.closed t suffix opens
  refine ⟨front, clause, entry, more, ?_⟩
  rw [expandLine_of_entry delimiters entry, if_neg more]

/-- A line is expanded apart from what stands behind it. -/
theorem expand_line {line rest : Text} (one : OneLine line) (ends : EndsLine rest) :
    expand delimiters (line ++ rest) = expandLine delimiters line ++ expand delimiters rest := by
  by_cases some : ∃ t, t <:+ line ∧ Opens t
  · obtain ⟨t, suffix, opens⟩ := some
    obtain ⟨front, clause, entry, more, eq⟩ := expandLine_of_opens delimiters suffix opens
    rw [entry.expand delimiters more one ends, eq]
  · have closed : ∀ t, t <:+ line → ¬ Opens t := fun t suffix opens => some ⟨t, suffix, opens⟩
    rw [expand_line_of_closed delimiters one ends closed, expandLine_of_closed delimiters closed]

theorem not_alias_of_isLineEnd {c : Char} (h : isLineEnd c = true) : isAlias c = false := by
  simp only [isLineEnd, Bool.or_eq_true, beq_iff_eq] at h
  rcases h with ((rfl | rfl) | rfl) | rfl <;> rfl

theorem endsLine_cons {c : Char} (h : isLineEnd c = true) (rest : Text) :
    EndsLine (c :: rest) := by
  intro d hd
  obtain rfl := Option.some.inj hd
  exact h

theorem expand_lineEnd {c : Char} (is : isLineEnd c = true) (rest : Text) :
    expand delimiters (c :: rest) = c :: expand delimiters rest := by
  have one : OneLine [] := nofun
  have none : NoMatch (withAlias clauseAt?) [c] rest := by
    apply noMatch_cons.mpr
    refine ⟨?_, fun d u suffix => nomatch List.suffix_nil.mp suffix⟩
    rw [List.singleton_append, withAlias, not_alias_of_isLineEnd is, if_neg Bool.false_ne_true]
    apply Option.eq_none_iff_forall_ne_some.mpr
    intro found eq
    have opens := opens_of_clauseAt? one (endsLine_cons is rest) eq
    exact absurd opens.2 (Nat.not_lt_zero _)
  exact expand_gap delimiters none

theorem expand_oneLine {line : Text} (one : OneLine line) :
    expand delimiters line = expandLine delimiters line := by
  have ends : EndsLine [] := nofun
  have alone := expand_line delimiters one ends
  have nothing : expand delimiters [] = [] := rfl
  rwa [List.append_nil, nothing, List.append_nil] at alone

theorem expand_line_cons {line : Text} (one : OneLine line) {c : Char}
    (is : isLineEnd c = true) (rest : Text) : expand delimiters (line ++ c :: rest) =
      expandLine delimiters line ++ c :: expand delimiters rest := by
  rw [expand_line delimiters one (endsLine_cons is rest), expand_lineEnd delimiters is]

/-- Lines are expanded one by one, the first of them to its end. -/
theorem expand_of_joined {others : List (Char × Text)} {back : Text}
    (joined : Joined LineEnd others back) (all : ∀ part ∈ others, OneLine part.2) {line : Text}
    (one : OneLine line) : expand delimiters (line ++ back) = expandLine delimiters line ++
      others.flatMap fun (lineEnd, line) => lineEnd :: expandLine delimiters line := by
  induction joined generalizing line with
  | nil => rw [List.append_nil, expand_oneLine delimiters one, List.flatMap_nil, List.append_nil]
  | @cons c matched between rest others is joined ih =>
    obtain ⟨rfl, is⟩ := is
    obtain ⟨first, later⟩ := List.forall_mem_cons.mp all
    calc expand delimiters (line ++ c :: (between ++ rest))
      _ = expandLine delimiters line ++ c :: expand delimiters (between ++ rest) :=
        expand_line_cons delimiters one is _
      _ = _ := by rw [ih later first]; rfl

/-- What stands behind a line end is expanded apart from what stands before it. -/
theorem expand_joined_append {others : List (Char × Text)} {front : Text}
    (joined : Joined LineEnd others front) (all : ∀ part ∈ others, OneLine part.2) {line : Text}
    (one : OneLine line) {c : Char} (is : isLineEnd c = true) (back : Text) :
    expand delimiters (line ++ front ++ c :: back) =
      expand delimiters (line ++ front) ++ c :: expand delimiters back := by
  induction joined generalizing line with
  | nil => rw [List.append_nil, expand_line_cons delimiters one is, expand_oneLine delimiters one]
  | @cons d matched between rest others first joined ih =>
    obtain ⟨rfl, lineEnd⟩ := first
    obtain ⟨next, later⟩ := List.forall_mem_cons.mp all
    have behind := ih later next
    have cut (t : Text) : expand delimiters (line ++ ([d] ++ (between ++ t))) =
        expandLine delimiters line ++ d :: expand delimiters (between ++ t) :=
      expand_line_cons delimiters one lineEnd _
    rw [List.append_assoc] at behind
    rw [cut, List.append_assoc, List.append_assoc, List.append_assoc, cut, behind]
    simp

/-- A selector is expanded line by line, with its line ends in their places. A line from which on
no clause starts is kept, and in any other the first `block(` opens a clause. So nothing in front of
a line end has an effect behind it, and nothing behind it has one in front. -/
theorem expand_lines (selector : Text) :
    (mapLines id selector = selector ∧ OneLine (lines selector).1 ∧
      ∀ part ∈ (lines selector).2, isLineEnd part.1 = true ∧ OneLine part.2) ∧
    expand delimiters selector = mapLines (expandLine delimiters) selector ∧
    (∀ line, (∀ t, t <:+ line → ¬ Opens t) → expandLine delimiters line = line) ∧
    (∀ line t, t <:+ line → Opens t → ∃ front clause, Entry line front clause ∧
      expandLine delimiters line = withoutAlias front ++ renderClause delimiters clause) ∧
    ∀ front c back, isLineEnd c = true → expand delimiters (front ++ c :: back) =
      expand delimiters front ++ c :: expand delimiters back := by
  obtain ⟨back, whole, joined⟩ := joined_lines selector
  obtain ⟨one, all⟩ := oneLine_lines selector
  refine ⟨⟨mapLines_id selector, one, ?_⟩, ?_, fun line => expandLine_of_closed delimiters, ?_, ?_⟩
  · exact fun part member => ⟨lineEnd_of_joined joined part member, all part member⟩
  · calc expand delimiters selector
      _ = expand delimiters ((lines selector).1 ++ back) := congrArg (expand delimiters) whole
      _ = mapLines (expandLine delimiters) selector := expand_of_joined delimiters joined all one
  · intro line t suffix opens
    obtain ⟨front, clause, entry, -, eq⟩ := expandLine_of_opens delimiters suffix opens
    exact ⟨front, clause, entry, eq⟩
  · intro front c back is
    obtain ⟨rest, eq, parts⟩ := joined_lines front
    obtain ⟨first, others⟩ := oneLine_lines front
    rw [eq]
    exact expand_joined_append delimiters parts others first is back

/-- A `block(` that a line end cuts off opens no clause: its line stays with its alias, and the
lines around it are expanded. -/
theorem expand_lines_cutOff :
    expand {} "x.block(a)\u2028:block(\r\n.elem(b)block(c)".toList =
      "x.a\u2028:block(\r\n.elem(b).c".toList ∧
    expandLine {} ":block(".toList = ":block(".toList ∧
    (∃ front clause, Entry "x.block(a)".toList front clause ∧ expandLine {} "x.block(a)".toList =
      withoutAlias front ++ renderClause {} clause) ∧
    expand {} (":block(".toList ++ '\r' :: "\na)".toList) =
      expand {} ":block(".toList ++ '\r' :: expand {} "\na)".toList := by
  have cutOff : Entry ":block(".toList [':'] entryWord := opening?_eq_some.mp (by decide)
  obtain ⟨-, lineByLine, closed, opened, apart⟩ :=
    expand_lines {} "x.block(a)\u2028:block(\r\n.elem(b)block(c)".toList
  refine ⟨lineByLine.trans (by decide +kernel), closed _ cutOff.closed, ?_, apart _ _ _ (by decide)⟩
  exact opened _ "block(a)".toList ⟨"x.".toList, by decide⟩ ⟨⟨"a)".toList, by decide⟩, by decide⟩

end BemSheet.Bem
