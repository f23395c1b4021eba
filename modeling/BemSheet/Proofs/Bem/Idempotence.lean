import BemSheet.Proofs.Bem.Expansion
import BemSheet.Proofs.Bem.Surroundings

/-!
No entry is left behind.

Where every `block(` of a selector opens a tag, the scan takes all of them out. None comes up anew
where class selectors, literals and the text between clauses meet: each of them but the first text
of the selector starts with a character that `block(` does not go on with.

* `Sealed`: a text that holds no `block(` and takes none up from the text in front of it.
* `sealed_renderPieces`: pieces are rendered as such a text, if their literals are.
* `expand_idempotent`: an expanded selector has nothing left to expand.
-/

namespace BemSheet.Bem

open Text

/-! ## Seams -/

/-- A text that holds no `block(`, and into which none reaches from the text in front of it. -/
structure Sealed (s : Text) : Prop where
  free : ¬ entryWord <:+: s
  start : ∀ c ∈ s.head?, c ∉ entryWord.tail

theorem free_append {a b : Text} (ha : ¬ entryWord <:+: a) (hb : Sealed b) :
    ¬ entryWord <:+: a ++ b := by
  intro inside
  rcases List.infix_append_iff.mp inside with left | right | ⟨front, back, whole, ends, starts⟩
  · exact ha left
  · exact hb.free right
  · -- across the seam, the second text starts with a later character of the word
    cases front with
    | nil => exact hb.free (whole ▸ starts.isInfix)
    | cons c front =>
      cases back with
      | nil =>
        rw [List.append_nil] at whole
        exact ha (whole ▸ ends.isInfix)
      | cons d back =>
        obtain ⟨rest, rfl⟩ := starts
        have mem : d ∈ entryWord.tail := by rw [whole]; simp
        exact hb.start d rfl mem

theorem Sealed.nil : Sealed [] := ⟨by decide, nofun⟩

theorem Sealed.append {a b : Text} (ha : Sealed a) (hb : Sealed b) : Sealed (a ++ b) := by
  refine ⟨free_append ha.free hb, ?_⟩
  cases a with
  | nil => exact hb.start
  | cons c a => exact ha.start

theorem free_of_not_mem {s : Text} (h : '(' ∉ s) : ¬ entryWord <:+: s := by
  intro inside
  exact h (inside.subset (by decide))

/-! ## Class selectors -/

theorem Part.not_mem_round {s : Text} (h : Part s) : '(' ∉ s := by
  intro mem
  cases h.chars '(' mem

theorem not_mem_delimit {value delimiter : Text} {c : Char} (hv : c ∉ value) (hd : c ∉ delimiter) :
    c ∉ delimit value delimiter := by
  have other : ∀ d ∈ delimit value delimiter, d ≠ c := by
    apply forall_mem_delimit
    · rintro d t suffix - rfl
      exact hv (suffix.subset List.mem_cons_self)
    · rintro d mem rfl
      exact hd mem
  intro mem
  exact other c mem rfl

theorem not_mem_part {delimiter : Text} {name? : Option Text} {c : Char} (hd : c ∉ delimiter)
    (h : ∀ name ∈ name?, c ∉ name) : c ∉ Entity.part delimiter name? := by
  cases name? with
  | none => exact List.not_mem_nil
  | some name =>
    intro mem
    rcases List.mem_append.mp mem with mem | mem
    · exact hd mem
    · exact h name rfl mem

theorem sealed_selector {delimiters : Delimiters}
    (plain : '(' ∉ delimiters.modifier ++ delimiters.element) {entity : Entity}
    (named : entity.Named) {modifier : Option Text} (h : ∀ value ∈ modifier, '(' ∉ value) :
    Sealed (entity.selector modifier delimiters) := by
  obtain ⟨mod, elem⟩ := not_or.mp (mt List.mem_append.mpr plain)
  have last : ∀ value ∈ modifier.bind named?, '(' ∉ value := by
    intro value mem
    obtain ⟨value', own, mem⟩ := Option.bind_eq_some_iff.mp mem
    unfold named? at mem
    split at mem
    · cases mem
    · obtain rfl := Option.some.inj mem
      exact h value' own
  have block := not_mem_part List.not_mem_nil fun name mem => (named.block name mem).not_mem_round
  have elem := not_mem_part elem fun name mem => (named.elem name mem).not_mem_round
  constructor
  · apply free_of_not_mem
    simp [Entity.selector, block, elem, not_mem_part mod last]
  · intro c hc
    obtain rfl : '.' = c := Option.some.inj hc
    decide

/-! ## Pieces -/

/-- A piece that brings no `block(`: its text is sealed, and its value is part of a class
selector. -/
def Piece.Sealed : Piece → Prop
  | .literal text => Bem.Sealed text
  | .block value | .elem value | .mod value => Part value

theorem sealed_piece {tag : Tag} (h : tag.WellFormed) : tag.piece.Sealed := by
  obtain ⟨keyword, content⟩ := tag
  cases keyword <;> exact part_valueOf h.values

/-- What is rendered for pieces is sealed, since a class selector starts with a point. -/
theorem sealed_renderPieces {delimiters : Delimiters}
    (plain : '(' ∉ delimiters.modifier ++ delimiters.element) {ps : List Piece}
    (h : ∀ p ∈ ps, p.Sealed) {entity : Entity} (named : entity.Named) (pending : Bool) :
    Sealed (renderPieces delimiters entity pending ps) := by
  induction ps generalizing entity pending with
  | nil => exact .nil
  | cons p ps ih =>
    obtain ⟨own, others⟩ := List.forall_mem_cons.mp h
    cases p with
    | literal text =>
      have class_ : Sealed (if pending then entity.selector none delimiters else []) := by
        cases pending with
        | true => exact sealed_selector plain named nofun
        | false => exact .nil
      exact (class_.append own).append (ih others named false)
    | block name =>
      have named : (Entity.ofBlock name).Named := ⟨part_named own, nofun⟩
      exact ih others named true
    | elem name =>
      have named : (entity.element name).Named := ⟨named.block, part_named own⟩
      exact ih others named true
    | mod value =>
      have delimiter : '(' ∉ delimiters.modifier := fun mem => plain (List.mem_append_left _ mem)
      have words := not_mem_delimit own.not_mem_round delimiter
      have class_ := sealed_selector plain named fun value mem => Option.some.inj mem ▸ words
      exact class_.append (ih others named false)

/-- Behind a tag come the literals between tags, as far as they are kept, and the other tags. -/
theorem mem_piecesAfter {last : Keyword} {second : Bool} {gap : Text} {others : List (Tag × Text)}
    {p : Piece} (h : p ∈ piecesAfter last second gap others) : p = .literal gap ∨
      ∃ match_ ∈ others, p = match_.1.piece ∨ p = .literal match_.2 := by
  induction others generalizing last second gap with
  | nil => exact .inl (List.mem_singleton.mp h)
  | cons match_ others ih =>
    obtain ⟨tag, next⟩ := match_
    have behind {last second} (mem : p ∈ tag.piece :: piecesAfter last second next others) :
        ∃ match_ ∈ (tag, next) :: others, p = match_.1.piece ∨ p = .literal match_.2 := by
      rcases List.mem_cons.mp mem with is | mem
      · exact ⟨_, List.mem_cons_self, .inl is⟩
      · rcases ih mem with is | ⟨match_, mem, is⟩
        · exact ⟨_, List.mem_cons_self, .inr is⟩
        · exact ⟨match_, List.mem_cons_of_mem _ mem, is⟩
    rw [piecesAfter] at h
    split at h
    · exact .inr (behind h)
    · exact (List.mem_cons.mp h).imp_right behind

/-- A clause has the literal in front of its first tag, its tags, and literals between them. -/
theorem pieces_eq_cons (clause : Text) : ∃ ps, pieces clause = .literal (tags clause).1 :: ps ∧
    ∀ p ∈ ps, ∃ match_ ∈ (tags clause).2, p = match_.1.piece ∨ p = .literal match_.2 := by
  unfold pieces
  split
  next lead eq => exact ⟨[], by rw [eq], nofun⟩
  next lead tag next others eq =>
    refine ⟨_, by rw [eq], ?_⟩
    intro p mem
    rw [eq]
    rcases List.mem_cons.mp mem with is | mem
    · exact ⟨_, List.mem_cons_self, .inl is⟩
    · rcases mem_piecesAfter mem with is | ⟨match_, mem, is⟩
      · exact ⟨_, List.mem_cons_self, .inr is⟩
      · exact ⟨match_, List.mem_cons_of_mem _ mem, is⟩

/-! ## Entries that are tags -/

/-- Every `block(` of a selector opens a tag, and the tag ends on the same line. -/
def EntriesAreTags (s : Text) : Prop :=
  ∀ t, t <:+ s → entryWord <+: t →
    ∃ tag : Tag, tag.keyword = .block ∧ tag.WellFormed ∧ OneLine tag.content ∧ tag.text <+: t

/-- In the clauses of a selector, no literal behind a tag starts with a letter or a parenthesis. -/
def LiteralsApart (s : Text) : Prop :=
  ∀ found ∈ (clauses s).2, ∀ p ∈ (pieces found.1).tail, ∀ c ∈ p.kept.head?,
    c.isAlpha = false ∧ c ≠ '('

instance (s : Text) : Decidable (OneLine s) :=
  inferInstanceAs (Decidable (∀ c ∈ s, isLineEnd c = false))

instance (s : Text) : Decidable (LiteralsApart s) :=
  inferInstanceAs (Decidable (∀ found ∈ (clauses s).2, ∀ p ∈ (pieces found.1).tail,
    ∀ c ∈ p.kept.head?, c.isAlpha = false ∧ c ≠ '('))

theorem entriesAreTags_iff {s : Text} : EntriesAreTags s ↔ ∀ t ∈ s.tails, entryWord <+: t →
    ∃ found ∈ Keyword.block.tagAt? t, OneLine found.1.content := by
  constructor
  · intro h t mem entry
    obtain ⟨tag, block, wellFormed, one, starts⟩ := h t ((List.mem_tails t s).mp mem) entry
    refine ⟨(tag, tag.text.length - 1), ?_, one⟩
    exact Keyword.tagAt?_eq_some.mpr
      ⟨block, wellFormed, starts, (Nat.succ_pred_eq_of_pos tag.text_length_pos).symm⟩
  · intro h t suffix entry
    obtain ⟨⟨tag, more⟩, found, one⟩ := h t ((List.mem_tails t s).mpr suffix) entry
    obtain ⟨block, wellFormed, starts, -⟩ := Keyword.tagAt?_eq_some.mp found
    exact ⟨tag, block, wellFormed, one, starts⟩

instance (s : Text) : Decidable (EntriesAreTags s) := decidable_of_iff _ entriesAreTags_iff.symm

/-- What lies on one line and stands at the head of a line, stands in that line. -/
theorem OneLine.isPrefix {s line rest : Text} (one : OneLine s) (ends : EndsLine rest)
    (h : s <+: line ++ rest) : s <+: line := by
  rcases List.prefix_or_prefix_of_prefix h (List.prefix_append line rest) with within | ⟨more, rfl⟩
  · exact within
  · cases more with
    | nil => exact ⟨[], by simp⟩
    | cons c more =>
      obtain ⟨others, rfl⟩ := List.prefix_append_right_inj line |>.mp h
      have is := ends c rfl
      cases (one c (by simp)).symm.trans is

theorem EntriesAreTags.tag {s line rest : Text} (h : EntriesAreTags s) (suffix : line ++ rest <:+ s)
    (ends : EndsLine rest) (entry : entryWord <+: line) :
    ∃ tag : Tag, tag.keyword = .block ∧ tag.WellFormed ∧ tag.text <+: line := by
  obtain ⟨tag, block, wellFormed, one, starts⟩ :=
    h _ suffix (entry.trans (List.prefix_append line rest))
  exact ⟨tag, block, wellFormed, (Tag.oneLine_text one).isPrefix ends starts⟩

theorem Tag.opens_of_isPrefix {tag : Tag} (block : tag.keyword = .block) {line : Text}
    (starts : tag.text <+: line) : Opens line := by
  have longer : entryWord.length < tag.text.length := by
    simp [Tag.text, block, Keyword.word, entryWord]
  exact ⟨(Tag.entryWord_isPrefix block).trans starts, Nat.lt_of_lt_of_le longer starts.length_le⟩

theorem oneLine_entryWord : OneLine entryWord := by decide

/-- Every `block(` opens a clause, so that none is left between clauses. -/
theorem free_clauses {s : Text} (h : EntriesAreTags s) : ¬ entryWord <:+: (clauses s).1 ∧
    ∀ found ∈ (clauses s).2, ¬ entryWord <:+: found.2 := by
  apply cut_free (by decide)
  intro t suffix entry
  obtain ⟨line, rest, rfl, one, ends⟩ := exists_line t
  obtain ⟨tag, block, -, starts⟩ := h.tag suffix ends (oneLine_entryWord.isPrefix ends entry)
  have found := withAlias_of_opens (.inl rfl) one ends (Tag.opens_of_isPrefix block starts)
  rw [List.nil_append] at found
  rw [found]
  nofun

theorem clauseAt?_eq_some {s clause : Text} {more : Nat} (h : clauseAt? s = some (clause, more)) :
    ∃ rest, s = clause ++ rest ∧ OneLine clause ∧ EndsLine rest ∧ Opens clause ∧
      clause.length = more + 1 := by
  obtain ⟨line, rest, rfl, one, ends⟩ := exists_line s
  have opens := opens_of_clauseAt? one ends h
  have found := (clauseAt?_of_opens one ends opens).symm.trans h
  obtain ⟨rfl, rfl⟩ := Prod.mk.inj (Option.some.inj found)
  have := opens.2
  exact ⟨rest, rfl, one, ends, opens, by omega⟩

/-- A clause goes from a `block(` to the end of its line, where the text behind it starts. -/
theorem mem_clauses {s : Text} : ∀ found ∈ (clauses s).2, ∃ rest, found.1 ++ rest <:+ s ∧
    OneLine found.1 ∧ EndsLine rest ∧ entryWord <+: found.1 ∧ found.2 <+: rest := by
  intro found mem
  obtain ⟨t, more, suffix, is, behind⟩ := cut_found 0 s found mem
  have clause {u : Text} {more : Nat} (own : u <:+ s) (is : clauseAt? u = some (found.1, more))
      (behind : found.2 <+: u.drop (more + 1)) : ∃ rest, found.1 ++ rest <:+ s ∧
        OneLine found.1 ∧ EndsLine rest ∧ entryWord <+: found.1 ∧ found.2 <+: rest := by
    obtain ⟨rest, rfl, one, ends, opens, length⟩ := clauseAt?_eq_some is
    rw [List.drop_left' length] at behind
    exact ⟨rest, own, one, ends, opens.1, behind⟩
  cases t with
  | nil => cases is
  | cons c t =>
    rw [withAlias] at is
    split at is
    next =>
      obtain ⟨⟨_, length⟩, inner, eq⟩ := Option.map_eq_some_iff.mp is
      obtain ⟨rfl, rfl⟩ := Prod.mk.inj eq
      exact clause ((List.suffix_cons c t).trans suffix) inner behind
    next => exact clause suffix is behind

/-- Every `block(` of a clause is taken by a tag, so that none is left between tags. -/
theorem free_tags {s clause rest : Text} (h : EntriesAreTags s) (suffix : clause ++ rest <:+ s)
    (ends : EndsLine rest) : ¬ entryWord <:+: (tags clause).1 ∧
      ∀ match_ ∈ (tags clause).2, ¬ entryWord <:+: match_.2 := by
  apply cut_free (by decide)
  rintro t ⟨front, rfl⟩ entry
  have own : t ++ rest <:+ s := by
    rw [List.append_assoc] at suffix
    exact (List.suffix_append front _).trans suffix
  obtain ⟨tag, -, wellFormed, back, rfl⟩ := h.tag own ends entry
  have found := withAlias_mark wellFormed (.inl rfl) back
  rw [List.nil_append] at found
  rw [found]
  nofun

theorem wellFormed_of_mem_tags {clause : Text} : ∀ match_ ∈ (tags clause).2,
    match_.1.WellFormed := by
  intro match_ mem
  obtain ⟨t, more, -, is, -⟩ := cut_found 0 clause match_ mem
  exact (withAlias_eq_some.mp is).1

/-! ## Expanding twice -/

theorem not_mem_of_apart {c : Char} (alpha : c.isAlpha = false) (round : c ≠ '(') :
    c ∉ entryWord.tail := by
  have all : ∀ d ∈ entryWord.tail, d.isAlpha = true ∨ d = '(' := by decide
  intro mem
  rcases all c mem with is | is
  · cases alpha.symm.trans is
  · exact round is

section

variable {s : Text} (entries : EntriesAreTags s) (apart : LiteralsApart s)

include entries apart

theorem sealed_pieces {found : Text × Text} (mem : found ∈ (clauses s).2) :
    ∀ p ∈ pieces found.1, p.Sealed := by
  obtain ⟨rest, suffix, -, ends, entry, -⟩ := mem_clauses found mem
  obtain ⟨lead, gaps⟩ := free_tags entries suffix ends
  obtain ⟨ps, whole, others⟩ := pieces_eq_cons found.1
  have own := apart found mem
  rw [whole] at own ⊢
  refine List.forall_mem_cons.mpr ⟨⟨lead, ?_⟩, ?_⟩
  · -- a literal in front of the first tag starts with the clause
    intro c starts
    obtain ⟨more, eq⟩ : (tags found.1).1 <+: found.1 := cut_isPrefix 0 found.1
    obtain ⟨back, eq'⟩ := entry
    cases front : (tags found.1).1 with
    | nil =>
      rw [front] at starts
      cases starts
    | cons d front' =>
      rw [front] at eq starts
      obtain rfl := Option.some.inj starts
      obtain ⟨rfl, -⟩ := List.cons.inj (eq.trans eq'.symm)
      decide
  · intro p mem
    obtain ⟨match_, found, rfl | rfl⟩ := others p mem
    · exact sealed_piece (wellFormed_of_mem_tags match_ found)
    · refine ⟨gaps match_ found, ?_⟩
      intro c starts
      obtain ⟨alpha, round⟩ := own _ mem c starts
      exact not_mem_of_apart alpha round

theorem sealed_clauses {delimiters : Delimiters}
    (plain : '(' ∉ delimiters.modifier ++ delimiters.element) : ∀ found ∈ (clauses s).2,
      Sealed (renderClause delimiters found.1) ∧ Sealed found.2 := by
  intro found mem
  refine ⟨sealed_renderPieces plain (sealed_pieces entries apart mem) named_empty false, ?_⟩
  refine ⟨(free_clauses entries).2 found mem, ?_⟩
  obtain ⟨-, -, -, ends, -, more, rfl⟩ := mem_clauses found mem
  intro c starts lock
  have is : isLineEnd c = true := by
    apply ends
    rw [List.head?_append, starts]
    rfl
  cases (oneLine_entryWord c (List.mem_of_mem_tail lock)).symm.trans is

end

theorem sealed_renderClauses {delimiters : Delimiters} {others : List (Text × Text)}
    (h : ∀ found ∈ others, Sealed (renderClause delimiters found.1) ∧ Sealed found.2) :
    Sealed (renderClauses delimiters others) := by
  induction others with
  | nil => exact .nil
  | cons found others ih =>
    obtain ⟨⟨clause, between⟩, others⟩ := List.forall_mem_cons.mp h
    exact clause.append (between.append (ih others))

/-- A selector without `block(` stays. -/
theorem expand_of_free (delimiters : Delimiters) {s : Text} (h : ¬ entryWord <:+: s) :
    expand delimiters s = s := by
  have none : NoMatch (withAlias clauseAt?) s [] := by
    intro c u suffix
    apply Option.eq_none_iff_forall_ne_some.mpr
    rintro ⟨clause, more⟩ found
    obtain ⟨_, rest, eq, -, mark, matched, -, ⟨rfl, entry⟩, rfl⟩ :=
      finds_withAlias finds_clauseAt _ _ _ found
    rw [List.append_nil] at eq
    have inside : matched <:+: c :: u := ⟨mark, rest, eq.symm⟩
    exact h (entry.isInfix.trans (inside.trans suffix.isInfix))
  have kept := expand_gap delimiters none
  have nothing : expand delimiters [] = [] := rfl
  rwa [nothing, List.append_nil] at kept

/-- Where every `block(` of a selector opens a tag and no literal behind a tag may go on with one,
none is left in the expanded selector, which stays when it is expanded again, with the same
delimiters or with others. -/
theorem expand_idempotent {delimiters : Delimiters}
    (plain : '(' ∉ delimiters.modifier ++ delimiters.element) {s : Text}
    (entries : EntriesAreTags s) (apart : LiteralsApart s) : ¬ entryWord <:+: expand delimiters s ∧
      ∀ others, expand others (expand delimiters s) = expand delimiters s := by
  have clauses := sealed_renderClauses (sealed_clauses entries apart plain)
  have free : ¬ entryWord <:+: expand delimiters s := by
    rw [expand_eq]
    exact free_append (free_clauses entries).1 clauses
  exact ⟨free, fun others => expand_of_free others free⟩

/-- The word `block` as a delimiter, the text in front of a clause, and the literals around a line
end and a class make up no entry. -/
theorem expand_idempotent_word :
    expand ⟨"block".toList, ['x']⟩ "blo:block(a) elem(b)#blo\nblock(k)mod(m n) ck(x".toList =
      "blo.axb#blo\n.kblockmblockn ck(x".toList ∧
    ¬ entryWord <:+: "blo.axb#blo\n.kblockmblockn ck(x".toList ∧
    ∀ others, expand others "blo.axb#blo\n.kblockmblockn ck(x".toList =
      "blo.axb#blo\n.kblockmblockn ck(x".toList := by
  have plain : '(' ∉ "block".toList ++ ['x'] := by decide
  have expanded : expand ⟨"block".toList, ['x']⟩
      "blo:block(a) elem(b)#blo\nblock(k)mod(m n) ck(x".toList =
        "blo.axb#blo\n.kblockmblockn ck(x".toList := by decide +kernel
  have again := @expand_idempotent ⟨"block".toList, ['x']⟩ plain
    "blo:block(a) elem(b)#blo\nblock(k)mod(m n) ck(x".toList (by decide +kernel)
    (by decide +kernel)
  rw [expanded] at again
  exact ⟨expanded, again⟩

end BemSheet.Bem
