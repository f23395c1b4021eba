import BemSheet.Proofs.Bem.Grammar
import BemSheet.Proofs.Bem.Lines
import BemSheet.Proofs.Bem.Meaning
import Mathlib.Data.List.DropRight

/-!
A tag and what stands around it.

Wherever a tag stands in a clause, the scan finds it there, and finds in front of it and behind it
what it would find in these texts alone. A `block` tag shares no class with a tag in front of it,
and a selector that has one in its last line has a clause there, in front of that tag or at it.

* `tags_append_tag`: the tags of a clause with a tag in the middle.
* `expand_alias_tag`: an alias in front of a tag is dropped, and nothing else depends on it.
* `expand_append_block`: from a `block` tag on, a selector is expanded apart from what stands in
  front of it.
-/

namespace BemSheet.Bem

open Text

/-! ## A tag in the middle of a clause -/

/-- A tag ends with a parenthesis, not with an alias. -/
theorem Tag.not_endsWith_alias (tag : Tag) {front : Text} {c : Char} (h : tag.text = front ++ [c]) :
    isAlias c = false := by
  have last := congrArg List.getLast? h
  have closed : tag.text = (tag.keyword.word ++ '(' :: tag.content) ++ [')'] := by
    simp only [Tag.text, List.append_assoc, List.cons_append]
  rw [closed, List.getLast?_concat, List.getLast?_concat] at last
  obtain rfl := Option.some.inj last
  rfl

theorem plain_nil : ∀ c ∈ ([] : Text).getLast?, isAlias c = false := nofun

theorem plain_of_isSuffix {s t : Text} (suffix : t <:+ s)
    (plain : ∀ c ∈ s.getLast?, isAlias c = false) : ∀ c ∈ t.getLast?, isAlias c = false := by
  obtain ⟨front, rfl⟩ := suffix
  intro c last
  apply plain c
  rw [List.getLast?_append, last]
  rfl

/-- No tag reaches from the text in front of a tag or of its alias into that tag. -/
theorem Tag.not_straddles {tag other : Tag} (h : other.WellFormed)
    {mark inner outer back rest : Text} (is : Mark mark) (whole : other.text = inner ++ outer)
    (hi : inner ≠ []) (ho : outer ≠ []) :
    outer ++ back ≠ mark ++ (tag.text ++ rest) := by
  intro eq
  rcases is with rfl | ⟨c, alias_, rfl⟩
  · exact Tag.text_not_inside h whole hi ho ⟨rest, eq.symm⟩
  · cases outer with
    | nil => exact ho rfl
    | cons d outer =>
      obtain ⟨rfl, behind⟩ := List.cons.inj eq
      by_cases last : outer = []
      · subst last
        cases alias_.symm.trans (other.not_endsWith_alias whole)
      · rw [List.append_cons] at whole
        exact Tag.text_not_inside h whole (List.append_ne_nil_of_right_ne_nil inner nofun) last
          ⟨rest, behind.symm⟩

/-- In a gap that holds no tag, the scan finds none, whatever stands behind the next tag. -/
theorem noMatch_gap {p : Place} (marked : p.Marked)
    (free : ∀ other : Tag, other.WellFormed → ¬ other.text <:+: p.gap) (rest : Text) :
    NoMatch (withAlias bareTagAt?) p.gap (p.mark ++ (p.tag.text ++ rest)) := by
  rintro c u ⟨lead, gap⟩
  apply Option.eq_none_iff_forall_ne_some.mpr
  rintro ⟨other, more⟩ found
  obtain ⟨wellFormed, mark, is, ⟨back, starts⟩, -⟩ := withAlias_eq_some.mp found
  have bare (t : Text) (suffix : t <:+ p.gap) (filled : t ≠ [])
      (eq : t ++ (p.mark ++ (p.tag.text ++ rest)) = other.text ++ back) : False := by
    rcases List.append_eq_append_iff.mp eq with ⟨outer, whole, eq⟩ | ⟨after, rfl, -⟩
    · by_cases inside : outer = []
      · subst inside
        rw [List.append_nil] at whole
        exact free other wellFormed (whole ▸ suffix.isInfix)
      · exact Tag.not_straddles wellFormed marked.mark whole filled inside eq.symm
    · exact free other wellFormed (((List.prefix_append _ after).isInfix).trans suffix.isInfix)
  rw [List.append_assoc] at starts
  rcases is with rfl | ⟨d, alias_, rfl⟩
  · exact bare (c :: u) ⟨lead, gap⟩ (List.cons_ne_nil c u) starts.symm
  · obtain ⟨rfl, behind⟩ := List.cons.inj starts
    by_cases last : u = []
    · subst last
      rcases marked with ⟨none, ends⟩ | ⟨e, is, eq⟩
      · have plain := ends d (by rw [← gap]; exact List.getLast?_concat)
        cases alias_.symm.trans plain
      · obtain ⟨f, t, text, plain⟩ := other.text_start
        rw [eq, text] at behind
        obtain ⟨rfl, -⟩ := List.cons.inj behind
        cases is.symm.trans plain
    · exact bare u ⟨lead ++ [d], by rw [List.append_assoc]; exact gap⟩ last behind.symm

/-- A tag between two texts that are split splits the whole. -/
theorem Split.middle {front back mark last last' : Text} {places others : List Place} {tag : Tag}
    {joined : Bool} (h : Split front places last) (h' : Split back others last')
    (wellFormed : tag.WellFormed) (marked : Place.Marked ⟨last, mark, tag, joined⟩) :
    Split (front ++ (mark ++ (tag.text ++ back))) (places ++ ⟨last, mark, tag, joined⟩ :: others)
      last' := by
  induction places generalizing front with
  | nil =>
    obtain rfl : front = last := h.whole
    exact h'.cons wellFormed marked (noMatch_gap marked (fun _ is => (h.tag_free is).2) back)
  | cons p places ih =>
    obtain ⟨rest, rfl⟩ := h.first
    have own := h.marked p List.mem_cons_self
    have free (other : Tag) (is : other.WellFormed) : ¬ other.text <:+: p.gap :=
      (h.tag_free is).1 p List.mem_cons_self
    have cons := (ih h.tail).cons (h.wellFormed p List.mem_cons_self) own (noMatch_gap own free _)
    simpa only [Place.text, List.append_assoc, List.cons_append] using cons

theorem found_append (places : List Place) (p : Place) (others : List Place) (last : Text) :
    found (places ++ p :: others) last =
      ((found places p.gap).1,
        (found places p.gap).2 ++ (p.tag, (found others last).1) :: (found others last).2) := by
  induction places with
  | nil => rfl
  | cons q places ih => simp only [List.cons_append, found, ih]

/-- With a tag in the middle of a clause, the scan finds that tag, and what it finds in the texts on
either side of it. The alias of the tag is the one right before it, if there is one. -/
theorem tags_append_tag {front mark : Text} {tag : Tag} (wellFormed : tag.WellFormed)
    (is : Mark mark) (plain : mark = [] → ∀ c ∈ front.getLast?, isAlias c = false) (back : Text) :
    tags (front ++ (mark ++ (tag.text ++ back))) =
      ((tags front).1, (tags front).2 ++ (tag, (tags back).1) :: (tags back).2) := by
  obtain ⟨places, last, split, -⟩ := exists_split front []
  obtain ⟨others, last', split', -⟩ := exists_split back []
  have marked : Place.Marked ⟨last, mark, tag, false⟩ := by
    rcases is with rfl | is
    · exact .inl ⟨rfl, plain_of_isSuffix ⟨_, split.whole.symm⟩ (plain rfl)⟩
    · exact .inr is
  rw [(split.middle split' wellFormed marked).tags, found_append, ← split.tags, ← split'.tags]

/-! ## What a clause is rendered as -/

section

variable {front mark : Text} {tag : Tag} (delimiters : Delimiters)

/-- The alias of a tag has no effect on the rest of its clause. -/
theorem renderClause_alias (wellFormed : tag.WellFormed) (is : Mark mark)
    (plain : ∀ c ∈ front.getLast?, isAlias c = false) (back : Text) :
    renderClause delimiters (front ++ (mark ++ (tag.text ++ back))) =
      renderClause delimiters (front ++ (tag.text ++ back)) := by
  have bare := tags_append_tag wellFormed (.inl rfl) (fun _ => plain) back
  rw [List.nil_append] at bare
  simp only [renderClause, pieces, tags_append_tag wellFormed is (fun _ => plain) back, bare]

theorem not_attaches_block (last : Keyword) (second : Bool) :
    attaches last .block second = false := by cases last <;> rfl

/-- The pieces in front of a `block` tag are those of the text in front of it. -/
theorem piecesAfter_block (block : tag.keyword = .block) (last : Keyword) (second : Bool)
    (gap next : Text) (others behind : List (Tag × Text)) :
    piecesAfter last second gap (others ++ (tag, next) :: behind) =
      piecesAfter last second gap others ++ tag.piece :: piecesAfter .block false next behind := by
  induction others generalizing last second gap with
  | nil => simp [piecesAfter, block, not_attaches_block]
  | cons match_ others ih =>
    obtain ⟨first, between⟩ := match_
    simp only [List.cons_append, piecesAfter, ih]
    split <;> rfl

theorem pieces_append_block (block : tag.keyword = .block) (wellFormed : tag.WellFormed)
    (is : Mark mark) (plain : mark = [] → ∀ c ∈ front.getLast?, isAlias c = false) (back : Text) :
    pieces (front ++ (mark ++ (tag.text ++ back))) =
      pieces front ++ tag.piece :: piecesAfter .block false (tags back).1 (tags back).2 := by
  rw [pieces, tags_append_tag wellFormed is plain, pieces]
  cases tags front with
  | mk lead others =>
    cases others with
    | nil => simp [block]
    | cons match_ others => simp [piecesAfter_block block]

/-- A `block` tag and what stands behind it is rendered apart from what stands before it: no name
waits for its class there, and the block takes the place of what was named before. -/
theorem renderClause_append_block (block : tag.keyword = .block) (wellFormed : tag.WellFormed)
    (is : Mark mark) (plain : mark = [] → ∀ c ∈ front.getLast?, isAlias c = false) (back : Text) :
    renderClause delimiters (front ++ (mark ++ (tag.text ++ back))) =
      renderClause delimiters front ++ renderClause delimiters (tag.text ++ back) := by
  have named : tag.piece = .block (valueOf tag.content) := by rw [Tag.piece, block, Piece.of]
  let behind := piecesAfter .block false (tags back).1 (tags back).2
  have own : renderClause delimiters (tag.text ++ back) =
      renderPieces delimiters (.ofBlock (valueOf tag.content)) true behind := by
    have alone : pieces ([] ++ ([] ++ (tag.text ++ back))) = pieces [] ++ tag.piece :: behind :=
      pieces_append_block block wellFormed (.inl rfl) (fun _ => plain_nil) back
    rw [List.nil_append, List.nil_append] at alone
    rw [renderClause, alone, named]
    rfl
  have whole := renderPieces_append delimiters [] (pieces front) (tag.piece :: behind)
  rw [List.nil_append, last_of_pieces, ← renderPieces_eq] at whole
  calc renderClause delimiters (front ++ (mark ++ (tag.text ++ back)))
    _ = renderPieces delimiters {} false (pieces front ++ tag.piece :: behind) := by
      rw [renderClause, pieces_append_block block wellFormed is plain]
    _ = renderClause delimiters front ++
          renderPieces delimiters (entityAt (pieces front)) false (tag.piece :: behind) := whole
    _ = renderClause delimiters front ++ renderClause delimiters (tag.text ++ back) := by
      rw [own, named, renderPieces]

end

/-! ## Where the clause of a line starts -/

theorem exists_entry_of_isInfix {line : Text} (inside : entryWord <:+: line) :
    ∃ front clause, Entry line front clause := by
  obtain ⟨t, starts, suffix⟩ := List.infix_iff_prefix_suffix.mp inside
  exact exists_entry suffix starts

/-- A clause goes on to the end of its line. -/
theorem Entry.append {line front clause : Text} (h : Entry line front clause) (more : Text) :
    Entry (line ++ more) front (clause ++ more) := by
  refine ⟨by rw [h.whole, List.append_assoc], h.starts.trans (List.prefix_append clause more), ?_⟩
  intro t suffix filled starts
  rw [← List.append_assoc] at starts
  have room : entryWord.length ≤ (t ++ clause).length := by
    have := h.starts.length_le
    rw [List.length_append]
    omega
  exact h.first t suffix filled
    (List.prefix_of_prefix_length_le starts (List.prefix_append _ more) room)

theorem Tag.text_append_ne_nil (tag : Tag) (back : Text) : tag.text ++ back ≠ [] :=
  List.append_ne_nil_of_left_ne_nil (List.length_pos_iff.mp tag.text_length_pos) back

theorem Tag.entryWord_isPrefix {tag : Tag} (block : tag.keyword = .block) :
    entryWord <+: tag.text := ⟨tag.content ++ [')'], by simp [Tag.text, entryWord, block]⟩

/-- No `block(` reaches from the text in front of a `block` tag into that tag. -/
theorem not_reaches_block {tag : Tag} (block : tag.keyword = .block) {t back : Text}
    (filled : t ≠ []) (starts : entryWord <+: t ++ (tag.text ++ back)) : entryWord <+: t := by
  obtain ⟨rest, eq⟩ := starts
  rcases List.append_eq_append_iff.mp eq with ⟨more, whole, -⟩ | ⟨tail, whole, eq⟩
  · exact ⟨more, whole.symm⟩
  · cases tail with
    | nil => exact ⟨[], by rw [whole, List.append_nil, List.append_nil]⟩
    | cons c tail =>
      obtain ⟨content, text⟩ := Tag.entryWord_isPrefix block
      rw [← text] at eq
      obtain ⟨rfl, -⟩ := List.cons.inj eq
      cases t with
      | nil => exact absurd rfl filled
      | cons d t =>
        have again : 'b' ∈ entryWord.tail := by rw [whole]; simp
        exact absurd again (by decide)

/-- In a line without a `block(`, a `block` tag opens the clause. -/
theorem entry_block {tag : Tag} (block : tag.keyword = .block) {line mark : Text} (is : Mark mark)
    (closed : ¬ entryWord <:+: line) (back : Text) :
    Entry (line ++ (mark ++ (tag.text ++ back))) (line ++ mark) (tag.text ++ back) := by
  refine ⟨(List.append_assoc ..).symm,
    (Tag.entryWord_isPrefix block).trans (List.prefix_append tag.text back), ?_⟩
  intro t suffix filled starts
  have inside := not_reaches_block block filled starts
  rcases is with rfl | ⟨c, alias_, rfl⟩
  · rw [List.append_nil] at suffix
    exact closed (inside.isInfix.trans suffix.isInfix)
  · rcases List.suffix_concat_iff.mp suffix with rfl | ⟨t, rfl, own⟩
    · exact filled rfl
    · rcases List.prefix_concat_iff.mp inside with whole | inside
      · have last := congrArg List.getLast? whole
        rw [List.getLast?_concat] at last
        obtain rfl := Option.some.inj last
        cases alias_
      · exact closed (inside.isInfix.trans own.isInfix)

theorem withoutAlias_append {line mark : Text} (is : Mark mark)
    (plain : mark = [] → ∀ c ∈ line.getLast?, isAlias c = false) :
    withoutAlias (line ++ mark) = line := by
  rcases is with rfl | ⟨c, alias_, rfl⟩
  · have none : line.getLast?.any isAlias = false := by
      cases last : line.getLast? with
      | none => rfl
      | some c => exact plain rfl c last
    rw [List.append_nil, withoutAlias, none, if_neg Bool.false_ne_true]
  · simp [withoutAlias, alias_]

/-! ## Lines -/

section

variable (delimiters : Delimiters) {line mark : Text} {tag : Tag}

theorem expandLine_append_of_entry {front clause more : Text} (h : Entry line front clause)
    (filled : more ≠ []) : expandLine delimiters (line ++ more) =
      withoutAlias front ++ renderClause delimiters (clause ++ more) := by
  have longer : clause ++ more ≠ entryWord := by
    intro eq
    have lengths := congrArg List.length eq
    have := h.starts.length_le
    have := List.length_pos_iff.mpr filled
    rw [List.length_append] at lengths
    omega
  rw [expandLine_of_entry delimiters (h.append more), if_neg longer]

theorem expandLine_block (block : tag.keyword = .block) (is : Mark mark)
    (closed : ¬ entryWord <:+: line)
    (plain : mark = [] → ∀ c ∈ line.getLast?, isAlias c = false) (back : Text) :
    expandLine delimiters (line ++ (mark ++ (tag.text ++ back))) =
      line ++ renderClause delimiters (tag.text ++ back) := by
  have longer : tag.text ++ back ≠ entryWord := by
    intro eq
    have lengths := congrArg List.length eq
    simp [Tag.text, block, Keyword.word, entryWord] at lengths
  rw [expandLine_of_entry delimiters (entry_block block is closed back), if_neg longer,
    withoutAlias_append is plain]

theorem expandLine_alias (wellFormed : tag.WellFormed) {c : Char} (alias_ : isAlias c = true)
    (plain : ∀ c ∈ line.getLast?, isAlias c = false)
    (opened : tag.keyword = .block ∨ entryWord <:+: line) (back : Text) :
    expandLine delimiters (line ++ c :: (tag.text ++ back)) =
      expandLine delimiters (line ++ (tag.text ++ back)) := by
  have marked : Mark [c] := .inr ⟨c, alias_, rfl⟩
  by_cases inside : entryWord <:+: line
  · obtain ⟨front, clause, entry⟩ := exists_entry_of_isInfix inside
    have behind := plain_of_isSuffix ⟨front, entry.whole.symm⟩ plain
    rw [expandLine_append_of_entry delimiters entry (List.cons_ne_nil c _),
      expandLine_append_of_entry delimiters entry (tag.text_append_ne_nil back),
      ← renderClause_alias delimiters wellFormed marked behind back]
    rfl
  · have block : tag.keyword = .block := opened.resolve_right inside
    calc expandLine delimiters (line ++ c :: (tag.text ++ back))
      _ = line ++ renderClause delimiters (tag.text ++ back) :=
        expandLine_block delimiters block marked inside (fun _ => plain) back
      _ = expandLine delimiters (line ++ (tag.text ++ back)) :=
        (expandLine_block delimiters block (.inl rfl) inside (fun _ => plain) back).symm

theorem expandLine_append_block (block : tag.keyword = .block) (wellFormed : tag.WellFormed)
    (is : Mark mark) (cut : ¬ entryWord <:+ line)
    (plain : mark = [] → ∀ c ∈ line.getLast?, isAlias c = false) (back : Text) :
    expandLine delimiters (line ++ (mark ++ (tag.text ++ back))) =
      expandLine delimiters line ++ expandLine delimiters (mark ++ (tag.text ++ back)) := by
  have own : expandLine delimiters (mark ++ (tag.text ++ back)) =
      renderClause delimiters (tag.text ++ back) :=
    expandLine_block delimiters block is (by decide) (fun _ => plain_nil) back
  rw [own]
  by_cases inside : entryWord <:+: line
  · obtain ⟨front, clause, entry⟩ := exists_entry_of_isInfix inside
    have behind : mark = [] → ∀ c ∈ clause.getLast?, isAlias c = false :=
      fun none => plain_of_isSuffix ⟨front, entry.whole.symm⟩ (plain none)
    have more : clause ≠ entryWord := by
      rintro rfl
      exact cut ⟨front, entry.whole.symm⟩
    have filled : mark ++ (tag.text ++ back) ≠ [] :=
      List.append_ne_nil_of_right_ne_nil mark (tag.text_append_ne_nil back)
    rw [expandLine_append_of_entry delimiters entry filled,
      renderClause_append_block delimiters block wellFormed is behind,
      expandLine_of_entry delimiters entry, if_neg more, List.append_assoc]
  · have kept : expandLine delimiters line = line := expandLine_of_closed delimiters
      fun t suffix opens => inside (opens.1.isInfix.trans suffix.isInfix)
    rw [kept, expandLine_block delimiters block is inside plain]

end

/-! ## Selectors -/

/-- The text behind the last line end. -/
def lastLine (s : Text) : Text := s.rtakeWhile fun c => !isLineEnd c

theorem lastLine_isSuffix (s : Text) : lastLine s <:+ s := List.rtakeWhile_suffix _ s

/-- Every text starts with a line. -/
theorem exists_line (s : Text) : ∃ line rest, s = line ++ rest ∧ OneLine line ∧ EndsLine rest := by
  refine ⟨s.takeWhile fun c => !isLineEnd c, s.dropWhile fun c => !isLineEnd c,
    List.takeWhile_append_dropWhile.symm, ?_, ?_⟩
  · intro c hc
    simpa using List.mem_takeWhile_imp hc
  · intro c hc
    have stop := List.head?_dropWhile_not (fun c => !isLineEnd c) s
    rw [Option.mem_def.mp hc] at stop
    simpa using stop

section

variable (delimiters : Delimiters)

theorem expand_append_lineEnd (front : Text) {c : Char} (is : isLineEnd c = true) (back : Text) :
    expand delimiters (front ++ c :: back) =
      expand delimiters front ++ c :: expand delimiters back := by
  obtain ⟨rest, whole, parts⟩ := joined_lines front
  obtain ⟨first, others⟩ := oneLine_lines front
  rw [whole]
  exact expand_joined_append delimiters parts others first is back

/-- A selector is expanded apart from what stands in front of its last line. -/
theorem expand_lastLine (s : Text) {line rest : Text} (one : OneLine line) (ends : EndsLine rest) :
    expand delimiters (s ++ (line ++ rest)) =
      expand delimiters (s.rdropWhile fun c => !isLineEnd c) ++
        expandLine delimiters (lastLine s ++ line) ++ expand delimiters rest := by
  have own : OneLine (lastLine s) := by
    intro c hc
    simpa using List.mem_rtakeWhile_imp hc
  have last : expand delimiters (lastLine s ++ (line ++ rest)) =
      expandLine delimiters (lastLine s ++ line) ++ expand delimiters rest := by
    rw [← List.append_assoc]
    exact expand_line delimiters (List.forall_mem_append.mpr ⟨own, one⟩) ends
  have whole : s.rdropWhile (fun c => !isLineEnd c) ++ lastLine s = s :=
    List.rdropWhile_append_rtakeWhile
  have ended := List.rdropWhile_last_not (fun c => !isLineEnd c) s
  generalize s.rdropWhile (fun c => !isLineEnd c) = front at whole ended ⊢
  generalize lastLine s = line' at last whole ⊢
  subst whole
  obtain rfl | ⟨lead, c, rfl⟩ := List.eq_nil_or_concat front
  · exact last
  · have is : isLineEnd c = true := by simpa using ended
    have alone : expand delimiters (lead.concat c) = expand delimiters lead ++ [c] := by
      rw [List.concat_eq_append]
      exact expand_append_lineEnd delimiters lead is []
    calc expand delimiters (lead.concat c ++ line' ++ (line ++ rest))
      _ = expand delimiters (lead ++ c :: (line' ++ (line ++ rest))) := by simp
      _ = expand delimiters lead ++ c :: expand delimiters (line' ++ (line ++ rest)) :=
        expand_append_lineEnd delimiters lead is _
      _ = expand delimiters (lead.concat c) ++ expandLine delimiters (line' ++ line) ++
            expand delimiters rest := by
        rw [last, alone]
        simp

theorem Tag.oneLine_text {tag : Tag} (one : OneLine tag.content) : OneLine tag.text := by
  have word : ∀ c ∈ tag.keyword.word ++ ['('], isLineEnd c = false := by
    cases tag.keyword <;> decide
  have closed : ∀ c ∈ tag.content ++ [')'], isLineEnd c = false :=
    List.forall_mem_append.mpr ⟨one, by decide⟩
  have whole : tag.text = (tag.keyword.word ++ ['(']) ++ (tag.content ++ [')']) := by
    simp [Tag.text]
  rw [whole]
  exact List.forall_mem_append.mpr ⟨word, closed⟩

theorem Mark.oneLine {mark : Text} (is : Mark mark) : OneLine mark := by
  rcases is with rfl | ⟨c, alias_, rfl⟩
  · exact nofun
  · intro d hd
    obtain rfl := List.mem_singleton.mp hd
    cases lineEnd : isLineEnd d with
    | false => rfl
    | true => cases alias_.symm.trans (not_alias_of_isLineEnd lineEnd)

end

/-- An alias in front of a tag has no effect, wherever the tag stands in a selector: at a `block`
tag, or behind a `block(` of the same line. -/
theorem expand_alias_tag (delimiters : Delimiters) {tag : Tag} (wellFormed : tag.WellFormed)
    (one : OneLine tag.content) {c : Char} (alias_ : isAlias c = true) {front : Text}
    (plain : ∀ c ∈ front.getLast?, isAlias c = false)
    (opened : tag.keyword = .block ∨ entryWord <:+: lastLine front) (back : Text) :
    expand delimiters (front ++ c :: (tag.text ++ back)) =
      expand delimiters (front ++ (tag.text ++ back)) := by
  obtain ⟨line, rest, rfl, behind, ends⟩ := exists_line back
  have written : OneLine (tag.text ++ line) :=
    List.forall_mem_append.mpr ⟨Tag.oneLine_text one, behind⟩
  have marked : OneLine (c :: (tag.text ++ line)) :=
    List.forall_mem_append.mpr ⟨Mark.oneLine (.inr ⟨c, alias_, rfl⟩), written⟩
  have same := expandLine_alias delimiters wellFormed alias_
    (plain_of_isSuffix (lastLine_isSuffix front) plain) opened line
  calc expand delimiters (front ++ c :: (tag.text ++ (line ++ rest)))
    _ = expand delimiters (front ++ (c :: (tag.text ++ line) ++ rest)) := by simp
    _ = expand delimiters (front ++ (tag.text ++ line ++ rest)) := by
      rw [expand_lastLine delimiters front marked ends, same,
        expand_lastLine delimiters front written ends]
    _ = expand delimiters (front ++ (tag.text ++ (line ++ rest))) := by rw [List.append_assoc]

/-- The point belongs to the modifier, which takes the class of the element behind a `block(` that
is not closed. -/
theorem expand_alias_tag_unclosed :
    expand {} ("a\nblock(b elem(e)".toList ++ '.' :: (Tag.text ⟨.mod, ['m']⟩ ++ " mod(".toList)) =
      expand {} ("a\nblock(b elem(e)".toList ++ (Tag.text ⟨.mod, ['m']⟩ ++ " mod(".toList)) ∧
    expand {} ("a\nblock(b elem(e)".toList ++ (Tag.text ⟨.mod, ['m']⟩ ++ " mod(".toList)) =
      "a\nblock(b .__e_m mod(".toList :=
  ⟨expand_alias_tag {} ⟨by decide, by decide⟩ (by unfold OneLine; decide) (by decide) (by decide)
      (.inr ⟨[], "b elem(e)".toList, by decide⟩) _,
    by decide +kernel⟩

/-- From a `block` tag on, a selector is expanded apart from what stands in front of it, and what
stands in front is expanded as if nothing followed. -/
theorem expand_append_block (delimiters : Delimiters) {tag : Tag} (block : tag.keyword = .block)
    (wellFormed : tag.WellFormed) (one : OneLine tag.content) {mark : Text} (is : Mark mark)
    {front : Text} (cut : ¬ entryWord <:+ front)
    (plain : mark = [] → ∀ c ∈ front.getLast?, isAlias c = false) (back : Text) :
    expand delimiters (front ++ (mark ++ (tag.text ++ back))) =
      expand delimiters front ++ expand delimiters (mark ++ (tag.text ++ back)) := by
  obtain ⟨line, rest, rfl, behind, ends⟩ := exists_line back
  have written : OneLine (mark ++ (tag.text ++ line)) :=
    List.forall_mem_append.mpr ⟨is.oneLine,
      List.forall_mem_append.mpr ⟨Tag.oneLine_text one, behind⟩⟩
  have apart := expandLine_append_block delimiters block wellFormed is
    (fun suffix => cut (suffix.trans (lastLine_isSuffix front)))
    (fun none => plain_of_isSuffix (lastLine_isSuffix front) (plain none)) line
  have alone : expand delimiters front =
      expand delimiters (front.rdropWhile fun c => !isLineEnd c) ++
        expandLine delimiters (lastLine front) := by
    have own : expand delimiters (front ++ ([] ++ [])) =
        expand delimiters (front.rdropWhile fun c => !isLineEnd c) ++
          expandLine delimiters (lastLine front ++ []) ++ [] :=
      expand_lastLine delimiters front nofun nofun
    simpa only [List.append_nil] using own
  have whole : mark ++ (tag.text ++ (line ++ rest)) = mark ++ (tag.text ++ line) ++ rest := by
    simp only [List.append_assoc]
  calc expand delimiters (front ++ (mark ++ (tag.text ++ (line ++ rest))))
    _ = expand delimiters (front.rdropWhile fun c => !isLineEnd c) ++
          expandLine delimiters (lastLine front ++ (mark ++ (tag.text ++ line))) ++
          expand delimiters rest := by
      rw [whole, expand_lastLine delimiters front written ends]
    _ = expand delimiters front ++
          (expandLine delimiters (mark ++ (tag.text ++ line)) ++ expand delimiters rest) := by
      rw [apart, alone]
      simp only [List.append_assoc]
    _ = expand delimiters front ++ expand delimiters (mark ++ (tag.text ++ (line ++ rest))) := by
      rw [whole, expand_line delimiters written ends]

/-- The element behind a `block(` that is not closed keeps its class, and the block behind it does
not take it. -/
theorem expand_append_block_unclosed :
    expand {} (":block(a elem(e)".toList ++ (['.'] ++ (Tag.text ⟨.block, ['b']⟩ ++
      " mod(m)\nx".toList))) =
      expand {} ":block(a elem(e)".toList ++ expand {} (['.'] ++ (Tag.text ⟨.block, ['b']⟩ ++
        " mod(m)\nx".toList)) ∧
    expand {} ":block(a elem(e)".toList = "block(a .__e".toList :=
  ⟨expand_append_block {} rfl ⟨by decide, by decide⟩ (by unfold OneLine; decide)
      (.inr ⟨'.', rfl, rfl⟩) (by decide) nofun _,
    by decide +kernel⟩

end BemSheet.Bem
