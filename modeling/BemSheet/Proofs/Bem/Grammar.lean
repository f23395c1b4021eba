import BemSheet.Proofs.Bem.Piece

/-!
The grammar of clauses.

A reading of a clause tells where its tags are, apart from the scan that finds them. Each tag has a
place: the text since the tag before it, an alias, and the tag. A clause has one reading, and its
pieces are what that reading says.

* `Split.tags`: the scan finds the places of any reading, and no others.
* `exists_split`: there is a reading.
-/

namespace BemSheet.Bem

open Text

/-! ## Places -/

/-- A tag of a clause with what stands before it. -/
structure Place where
  /-- The text since the tag before. -/
  gap : Text
  mark : Text
  tag : Tag
  /-- Whether the tag shares the class of the tag before. -/
  joined : Bool

namespace Place

def text (p : Place) : Text := p.gap ++ (p.mark ++ p.tag.text)

/-- An alias right before a tag belongs to the tag. -/
def Marked (p : Place) : Prop :=
  (p.mark = [] ∧ ∀ c ∈ p.gap.getLast?, isAlias c = false) ∨ ∃ c, isAlias c = true ∧ p.mark = [c]

theorem Marked.mark {p : Place} (h : p.Marked) : Mark p.mark := h.imp_left And.left

end Place

/-- The places of a clause and the text behind the last: they make up the clause, and every tag that
occurs in it has one of them. -/
structure Split (clause : Text) (places : List Place) (last : Text) : Prop where
  whole : clause = places.flatMap Place.text ++ last
  wellFormed : ∀ p ∈ places, p.tag.WellFormed
  marked : ∀ p ∈ places, p.Marked
  complete : ∀ front tag back, tag.WellFormed → clause = front ++ (tag.text ++ back) →
    ∃ before p others, places = before ++ p :: others ∧ p.tag = tag ∧
      front = before.flatMap Place.text ++ (p.gap ++ p.mark)

namespace Split

variable {clause last : Text} {p : Place} {places : List Place}

/-- No tag starts before the first place. -/
theorem first_le (h : Split clause (p :: places) last) {front back : Text} {tag : Tag}
    (wellFormed : tag.WellFormed) (whole : clause = front ++ (tag.text ++ back)) :
    (p.gap ++ p.mark).length ≤ front.length := by
  obtain ⟨before, q, others, eq, -, rfl⟩ := h.complete front tag back wellFormed whole
  cases before with
  | nil =>
    obtain ⟨rfl, rfl⟩ := List.cons.inj eq
    exact Nat.le_refl _
  | cons p' before =>
    obtain ⟨rfl, rfl⟩ := List.cons.inj eq
    simp only [List.flatMap_cons, Place.text, List.length_append]
    omega

theorem tail (h : Split (p.text ++ clause) (p :: places) last) : Split clause places last := by
  constructor
  · have whole := h.whole
    rw [List.flatMap_cons, List.append_assoc] at whole
    exact List.append_cancel_left whole
  · exact fun q hq => h.wellFormed q (List.mem_cons_of_mem p hq)
  · exact fun q hq => h.marked q (List.mem_cons_of_mem p hq)
  · intro front tag back wellFormed whole
    obtain ⟨before, q, others, eq, rfl, found⟩ :=
      h.complete (p.text ++ front) tag back wellFormed (by rw [whole, List.append_assoc])
    cases before with
    | nil =>
      obtain ⟨rfl, rfl⟩ := List.cons.inj eq
      have lengths := congrArg List.length found
      have := p.tag.text_length_pos
      simp only [List.flatMap_nil, Place.text, List.length_append, List.length_nil] at lengths
      omega
    | cons p' before =>
      obtain ⟨rfl, rfl⟩ := List.cons.inj eq
      rw [List.flatMap_cons, List.append_assoc] at found
      exact ⟨before, q, others, rfl, rfl, List.append_cancel_left found⟩

theorem first (h : Split clause (p :: places) last) : ∃ rest, clause = p.text ++ rest :=
  ⟨_, by rw [h.whole, List.flatMap_cons, List.append_assoc]⟩

/-- The scan finds nothing in the text before the first place. -/
theorem noMatch (h : Split (p.text ++ clause) (p :: places) last) :
    NoMatch (withAlias bareTagAt?) p.gap (p.mark ++ (p.tag.text ++ clause)) := by
  rintro c u ⟨lead, gap⟩
  apply Option.eq_none_iff_forall_ne_some.mpr
  rintro ⟨tag, more⟩ found
  obtain ⟨wellFormed, mark, is, ⟨back, starts⟩, -⟩ := withAlias_eq_some.mp found
  have whole : p.text ++ clause = (lead ++ mark) ++ (tag.text ++ back) := by
    simp only [Place.text, ← gap, List.append_assoc] at starts ⊢
    rw [starts]
  have bound := h.first_le wellFormed whole
  have size := congrArg List.length gap
  simp only [List.length_append, List.length_cons] at bound size
  rcases is with rfl | ⟨d, alias_, rfl⟩
  · simp only [List.length_nil] at bound
    omega
  · obtain ⟨rfl, -⟩ := List.cons.inj starts
    simp only [List.length_cons, List.length_nil] at bound
    -- the alias of the tag would be the last character of the gap, right before the place
    have none : p.mark = [] := List.eq_nil_of_length_eq_zero (by omega)
    obtain rfl : u = [] := List.eq_nil_of_length_eq_zero (by omega)
    rcases h.marked p List.mem_cons_self with ⟨-, ends⟩ | ⟨e, -, eq⟩
    · have plain := ends d (by rw [← gap]; exact List.getLast?_concat)
      cases plain.symm.trans alias_
    · cases none.symm.trans eq

theorem noMatch_last (h : Split clause [] last) : NoMatch (withAlias bareTagAt?) clause [] := by
  rintro c u ⟨lead, gap⟩
  apply Option.eq_none_iff_forall_ne_some.mpr
  rintro ⟨tag, more⟩ found
  obtain ⟨wellFormed, mark, -, ⟨back, starts⟩, -⟩ := withAlias_eq_some.mp found
  obtain ⟨before, q, others, eq, -⟩ := h.complete (lead ++ mark) tag back wellFormed (by
    simp only [← gap, List.append_assoc, List.append_nil] at starts ⊢
    rw [starts])
  cases before <;> cases eq

end Split

/-- What a scan finds that finds the places. -/
def found : List Place → Text → Text × List (Tag × Text)
  | [], last => (last, [])
  | p :: places, last => (p.gap, (p.tag, (found places last).1) :: (found places last).2)

/-- The places of a reading are where the scan cuts. -/
theorem Split.cuts {clause last : Text} {places : List Place} (h : Split clause places last) :
    Cuts (withAlias bareTagAt?) clause (found places last).1 (found places last).2 := by
  induction places generalizing clause with
  | nil =>
    obtain rfl : clause = last := h.whole
    exact .last h.noMatch_last
  | cons p places ih =>
    obtain ⟨rest, rfl⟩ := h.first
    have match_ := withAlias_mark (h.wellFormed p List.mem_cons_self)
      (h.marked p List.mem_cons_self).mark rest
    have length : (p.mark ++ p.tag.text).length = p.mark.length + (p.tag.text.length - 1) + 1 := by
      have := p.tag.text_length_pos
      simp only [List.length_append]
      omega
    have none := h.noMatch
    have whole : p.text ++ rest = p.gap ++ ((p.mark ++ p.tag.text) ++ rest) := by
      simp only [Place.text, List.append_assoc]
    rw [← List.append_assoc] at match_ none
    rw [whole]
    exact .found none match_ length (ih h.tail)

theorem Split.tags {clause last : Text} {places : List Place} (h : Split clause places last) :
    tags clause = found places last := h.cuts.eq

/-- A place in front of a text that is split: no tag starts in its gap or its alias, and none inside
of its tag. -/
theorem Split.cons {rest last : Text} {p : Place} {places : List Place} (h : Split rest places last)
    (wellFormed : p.tag.WellFormed) (marked : p.Marked)
    (gap : NoMatch (withAlias bareTagAt?) p.gap (p.mark ++ (p.tag.text ++ rest))) :
    Split (p.gap ++ (p.mark ++ (p.tag.text ++ rest))) (p :: places) last := by
  constructor
  · simp only [List.flatMap_cons, Place.text, List.append_assoc, ← h.whole]
  · exact List.forall_mem_cons.mpr ⟨wellFormed, h.wellFormed⟩
  · exact List.forall_mem_cons.mpr ⟨marked, h.marked⟩
  · intro front tag back tagged whole
    rcases first_tag gap marked.mark wellFormed tagged whole with ⟨rfl, rfl⟩ | ⟨between, rfl, eq⟩
    · exact ⟨[], p, places, rfl, rfl, rfl⟩
    · obtain ⟨before, q, others, rfl, rfl, rfl⟩ := h.complete between tag back tagged eq
      refine ⟨p :: before, q, others, rfl, rfl, ?_⟩
      simp only [List.flatMap_cons, Place.text, List.append_assoc]

/-! ## Readings -/

/-- The pairs of tags that may share a class: `earlier` are the places up to the first tag of the
pair, the nearest first. A modifier that itself shares the class of a modifier takes no other. -/
inductive MayJoin : (earlier : List Place) → Keyword → Prop
  | block_elem {q : Place} {earlier : List Place} (h : q.tag.keyword = .block) :
    MayJoin (q :: earlier) .elem
  | block_mod {q : Place} {earlier : List Place} (h : q.tag.keyword = .block) :
    MayJoin (q :: earlier) .mod
  | elem_mod {q : Place} {earlier : List Place} (h : q.tag.keyword = .elem) :
    MayJoin (q :: earlier) .mod
  | mod_mod {q : Place} {earlier : List Place} (h : q.tag.keyword = .mod)
    (first : q.joined = true → ∀ o ∈ earlier.head?, o.tag.keyword ≠ .mod) :
    MayJoin (q :: earlier) .mod

/-- Each place after `earlier` shares the class of the one before it, if only blanks are between
them and the two may. -/
def Joins : (earlier places : List Place) → Prop
  | _, [] => True
  | earlier, p :: places =>
    (p.joined = true ↔ Blank p.gap ∧ MayJoin earlier p.tag.keyword) ∧ Joins (p :: earlier) places

/-- The places of a clause, and which of them share a class. -/
structure Reading (clause : Text) (places : List Place) (last : Text) : Prop
    extends Split clause places last where
  joins : Joins [] places

/-- The pieces of a place: the text since the tag before is a literal, unless the two share a
class. -/
def Place.pieces (p : Place) : List Piece :=
  (if p.joined then [] else [.literal p.gap]) ++ [p.tag.meaning]

/-- The pieces that a clause has by one of its readings. -/
def Grammatical (clause : Text) (s : List Piece) : Prop :=
  ∃ places last, Reading clause places last ∧ s = places.flatMap Place.pieces ++ [.literal last]

theorem marked_of_noMatch {gap mark rest : Text} {tag : Tag} (h : tag.WellFormed) (is : Mark mark)
    (none : NoMatch (withAlias bareTagAt?) gap (mark ++ (tag.text ++ rest))) (joined : Bool) :
    Place.Marked ⟨gap, mark, tag, joined⟩ := by
  rcases is with rfl | is
  · refine .inl ⟨rfl, ?_⟩
    intro c last
    obtain ⟨lead, rfl⟩ := List.getLast?_eq_some_iff.mp last
    have nothing := none c [] (List.suffix_append lead [c])
    by_cases alias_ : isAlias c = true
    · have found := withAlias_mark h (.inr ⟨c, alias_, rfl⟩) rest
      cases nothing.symm.trans found
    · rwa [Bool.not_eq_true] at alias_
  · exact .inr is

/-- A clause has a reading. The induction is on its length, from its first tag to the text behind
it; which places come earlier only matters for the tags that share a class. -/
theorem exists_split (clause : Text) (earlier : List Place) :
    ∃ places last, Split clause places last ∧ Joins earlier places := by
  induction size : clause.length using Nat.strongRecOn generalizing clause earlier with
  | ind n ih =>
    subst size
    rcases first_match (withAlias bareTagAt?) clause with
      none | ⟨gap, rest, tag, more, rfl, none, found⟩
    · refine ⟨[], clause, ⟨rfl, nofun, nofun, ?_⟩, trivial⟩
      rintro front tag back h rfl
      have found := withAlias_mark h (.inl rfl) back
      obtain ⟨c, t, starts, -⟩ := tag.text_start
      rw [starts] at none found
      have nothing := none c (t ++ back) (List.suffix_append front _)
      rw [List.append_nil] at nothing
      cases nothing.symm.trans found
    · obtain ⟨wellFormed, mark, is, ⟨rest, rfl⟩, -⟩ := withAlias_eq_some.mp found
      rw [List.append_assoc] at none
      obtain ⟨joined, rule⟩ : ∃ joined : Bool,
          joined = true ↔ Blank gap ∧ MayJoin earlier tag.keyword := by
        classical exact ⟨decide _, decide_eq_true_iff⟩
      have shorter : rest.length < (gap ++ (mark ++ tag.text ++ rest)).length := by
        have := tag.text_length_pos
        simp only [List.length_append]
        omega
      obtain ⟨places, last, split, joins⟩ :=
        ih _ shorter rest (⟨gap, mark, tag, joined⟩ :: earlier) rfl
      rw [List.append_assoc mark]
      exact ⟨_, last, split.cons wellFormed (marked_of_noMatch wellFormed is none joined) none,
        rule, joins⟩

/-! ## The pieces of a reading -/

/-- Whether a modifier at this place takes no other one. -/
def Place.second (p : Place) (earlier : List Place) : Bool :=
  p.joined && earlier.head?.any fun o => o.tag.keyword == .mod

theorem mayJoin_iff {q : Place} {earlier : List Place} {k : Keyword} :
    MayJoin (q :: earlier) k ↔ attaches q.tag.keyword k (q.second earlier) = true := by
  have alone : q.second earlier = false ↔
      (q.joined = true → ∀ o ∈ earlier.head?, o.tag.keyword ≠ .mod) := by
    cases earlier <;> simp [Place.second]
  constructor
  · intro h
    cases h with
    | block_elem h | block_mod h | elem_mod h => rw [h]; rfl
    | mod_mod h first => rw [h, alone.mpr first]; rfl
  · intro h
    cases keyword : q.tag.keyword <;> rw [keyword] at h <;> cases k <;> try cases h
    · exact .block_elem keyword
    · exact .block_mod keyword
    · exact .elem_mod keyword
    · exact .mod_mod keyword (alone.mp (by simpa [attaches] using h))

theorem piecesAfter_found {q : Place} {earlier places : List Place} {last : Text}
    (wellFormed : ∀ p ∈ places, p.tag.WellFormed) (joins : Joins (q :: earlier) places) :
    piecesAfter q.tag.keyword (q.second earlier) (found places last).1 (found places last).2 =
      places.flatMap Place.pieces ++ [.literal last] := by
  induction places generalizing q earlier with
  | nil => rfl
  | cons p places ih =>
    obtain ⟨wellFormed, others⟩ := List.forall_mem_cons.mp wellFormed
    obtain ⟨rule, joins⟩ := joins
    have rest := ih others joins
    have test : (p.gap.all isBlank && attaches q.tag.keyword p.tag.keyword (q.second earlier)) =
        p.joined := by
      rw [Bool.eq_iff_iff, rule, mayJoin_iff, Bool.and_eq_true, List.all_eq_true, Blank]
    rw [found, piecesAfter, test]
    cases joined : p.joined with
    | true =>
      have second : p.second (q :: earlier) = (q.tag.keyword == .mod) := by
        simp [Place.second, joined]
      rw [second] at rest
      rw [if_pos rfl, rest, wellFormed.piece]
      simp [Place.pieces, joined]
    | false =>
      have second : p.second (q :: earlier) = false := by simp [Place.second, joined]
      rw [second] at rest
      rw [if_neg Bool.false_ne_true, rest, wellFormed.piece]
      simp [Place.pieces, joined]

theorem Reading.pieces {clause last : Text} {places : List Place} (h : Reading clause places last) :
    pieces clause = places.flatMap Place.pieces ++ [.literal last] := by
  rw [Bem.pieces, h.tags]
  cases places with
  | nil => rfl
  | cons p places =>
    obtain ⟨wellFormed, others⟩ := List.forall_mem_cons.mp h.wellFormed
    obtain ⟨rule, joins⟩ := h.joins
    have joined : p.joined = false := by
      rw [Bool.eq_false_iff]
      intro joined
      cases (rule.mp joined).2
    have second : p.second [] = false := by simp [Place.second]
    have rest : piecesAfter p.tag.keyword (p.second []) (found places last).1
        (found places last).2 = _ := piecesAfter_found others joins
    rw [second] at rest
    simp [found, rest, Place.pieces, joined, wellFormed.piece]

theorem Split.tag_free {clause last : Text} {places : List Place} (h : Split clause places last)
    {tag : Tag} (wellFormed : tag.WellFormed) :
    (∀ p ∈ places, ¬ tag.text <:+: p.gap) ∧ ¬ tag.text <:+: last := by
  induction places generalizing clause with
  | nil =>
    refine ⟨nofun, ?_⟩
    rintro ⟨front, back, rfl⟩
    obtain ⟨before, q, others, eq, -⟩ := h.complete front tag back wellFormed (by
      rw [h.whole, List.flatMap_nil, List.nil_append, List.append_assoc])
    cases before <;> cases eq
  | cons p places ih =>
    obtain ⟨rest, rfl⟩ := h.first
    obtain ⟨others, behind⟩ := ih h.tail
    refine ⟨List.forall_mem_cons.mpr ⟨?_, others⟩, behind⟩
    rintro ⟨front, back, gap⟩
    have whole :
        p.text ++ rest = front ++ (tag.text ++ (back ++ p.mark ++ p.tag.text ++ rest)) := by
      simp only [Place.text, ← gap, List.append_assoc]
    have bound := h.first_le wellFormed whole
    have size := congrArg List.length gap
    have := tag.text_length_pos
    simp only [List.length_append] at bound size
    omega

theorem Reading.literal_mem {clause last text : Text} {places : List Place}
    (h : Reading clause places last) (mem : .literal text ∈ Bem.pieces clause) :
    (∃ p ∈ places, text = p.gap) ∨ text = last := by
  rw [h.pieces, List.mem_append, List.mem_flatMap] at mem
  rcases mem with ⟨p, mem, is⟩ | is
  · have other : .literal text ≠ p.tag.meaning := by
      rw [← (h.wellFormed p mem).piece]
      intro eq
      cases congrArg Piece.keyword? eq |>.trans (keyword?_piece _)
    cases joined : p.joined <;> simp [Place.pieces, joined, other] at is
    exact .inl ⟨p, mem, is⟩
  · exact .inr (by simpa using is)

/-- The pieces of a clause are those of its one reading. They start and end with a literal, no two
literals meet, and no literal holds a tag. -/
theorem pieces_grammatical (clause : Text) :
    (∀ s, Grammatical clause s ↔ s = pieces clause) ∧
    (∃ lead, (pieces clause).head? = some (.literal lead)) ∧
    (∃ last, (pieces clause).getLast? = some (.literal last)) ∧
    (∀ front a b back, pieces clause ≠ front ++ .literal a :: .literal b :: back) ∧
    ∀ text (tag : Tag), .literal text ∈ pieces clause → tag.WellFormed →
      ¬ tag.text <:+: text := by
  obtain ⟨places, last, split, joins⟩ := exists_split clause []
  have reading : Reading clause places last := ⟨split, joins⟩
  refine ⟨?_, (ends_pieces clause).1, (ends_pieces clause).2, ?_, ?_⟩
  · intro s
    constructor
    · rintro ⟨places, last, reading, rfl⟩
      exact reading.pieces.symm
    · rintro rfl
      exact ⟨places, last, reading, reading.pieces⟩
  · intro front a b back eq
    exact List.isChain_iff_forall_rel_of_append_cons_cons.mp (meets_pieces clause) eq
  · intro text tag mem wellFormed
    obtain ⟨gaps, behind⟩ := split.tag_free wellFormed
    rcases reading.literal_mem mem with ⟨p, own, rfl⟩ | rfl
    · exact gaps p own
    · exact behind

/-- Of three modifiers in a row the third stands apart, and the text before it holds no tag. -/
theorem pieces_grammatical_pairs :
    Grammatical "mod(a) mod(b) .mod(c)".toList
      [.literal [], .mod ['a'], .mod ['b'], .literal [' '], .mod ['c'], .literal []] ∧
    ¬ Tag.text ⟨.mod, ['a']⟩ <:+: [' '] :=
  ⟨((pieces_grammatical _).1 _).mpr (by decide),
    (pieces_grammatical "mod(a) mod(b) .mod(c)".toList).2.2.2.2 [' '] ⟨.mod, ['a']⟩ (by decide)
      ⟨by decide, by decide⟩⟩

end BemSheet.Bem
