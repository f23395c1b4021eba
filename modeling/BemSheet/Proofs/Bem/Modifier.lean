import BemSheet.Bem.Modifier
import BemSheet.Proofs.Text.Blanks
import BemSheet.Proofs.Text.Cut
import Mathlib.Data.List.Infix

/-!
The separators of a modifier.

What a separator looks like is told apart from the scan that finds it: by how each kind is written,
and by which of the kinds is taken where several are written. A modifier is split at these in one
way only, in which no delimiter has a part.

* `exists_taken`: where a separator of any kind is written, one is taken.
* `Taken.found`, `separatorAt?_eq_none_iff`: the scan finds the separators that are taken, and
  nothing else.
* `exists_separated`, `Separated.unique`: a modifier is split in one way.
* `unseparated_joined`: no separator comes up where words and delimiters meet.
* `delimit_separated`: so the separators are replaced in one pass, and a second one finds none.
-/

namespace BemSheet.Bem

open Text

/-- At most one blank. -/
def OptionalBlank (s : Text) : Prop := s = [] ∨ ∃ c, isBlank c = true ∧ s = [c]

theorem OptionalBlank.blank {s : Text} (h : OptionalBlank s) : Blank s := by
  rcases h with rfl | ⟨c, blank, rfl⟩
  · nofun
  · exact List.forall_mem_singleton.mpr blank

/-- The kinds of separators. -/
inductive Separator
  | arrow
  | comma
  | blank

namespace Separator

/-- The order in which the kinds are tried at each place. -/
def rank : Separator → Nat
  | arrow => 0
  | comma => 1
  | blank => 2

/-- How each kind is written: an arrow with at most one blank on either side, a comma with at most
one blank after it, a single blank. -/
inductive Writes : Separator → Text → Prop
  | arrow {before after : Text} (hb : OptionalBlank before) (ha : OptionalBlank after) :
      Writes arrow (before ++ '-' :: '>' :: after)
  | comma {after : Text} (ha : OptionalBlank after) : Writes comma (',' :: after)
  | blank {c : Char} (h : isBlank c = true) : Writes blank [c]

/-- A separator that is taken in front of `rest`: no kind that is tried before its own is written
there, and its own is not written with more blanks. -/
structure Taken (k : Separator) (s rest : Text) : Prop where
  writes : k.Writes s
  first : ∀ (k' : Separator) t, k'.rank < k.rank → k'.Writes t → ¬ t <+: s ++ rest
  longest : ∀ t, k.Writes t → t <+: s ++ rest → t.length ≤ s.length

theorem writes_bareArrow : arrow.Writes ['-', '>'] := @Writes.arrow [] [] (.inl rfl) (.inl rfl)

theorem Writes.length_pos {k : Separator} {s : Text} (h : k.Writes s) : 0 < s.length := by
  cases h with
  | arrow =>
    rw [List.length_append]
    exact Nat.add_pos_right _ (Nat.succ_pos _)
  | comma | blank => exact Nat.succ_pos _

/-! ## The separator that is taken -/

/-- The blank that a text starts with, if there is one, and the rest of the text. -/
theorem optional_split (s : Text) : ∃ blank rest, s = blank ++ rest ∧ OptionalBlank blank ∧
    ∀ t, OptionalBlank t → t <+: s → t.length ≤ blank.length := by
  cases s with
  | nil => exact ⟨[], [], rfl, .inl rfl, fun t _ starts => starts.length_le⟩
  | cons c s =>
    by_cases blank : isBlank c = true
    · refine ⟨[c], s, rfl, .inr ⟨c, blank, rfl⟩, ?_⟩
      rintro t (rfl | ⟨d, -, rfl⟩) - <;> simp
    · refine ⟨[], c :: s, rfl, .inl rfl, ?_⟩
      rintro t (rfl | ⟨d, other, rfl⟩) starts
      · exact Nat.le_refl _
      · obtain ⟨rfl, -⟩ := List.cons_prefix_cons.mp starts
        exact absurd other blank

/-- What is in front of an arrow is told apart from it. -/
theorem arrow_unique {a b s t : Text} (ha : OptionalBlank a) (hb : OptionalBlank b)
    (h : a ++ '-' :: s = b ++ '-' :: t) : a = b ∧ s = t := by
  have dash (s : Text) : ∀ c ∈ ('-' :: s).head?, isBlank c = false := by
    intro c hc
    obtain rfl : '-' = c := Option.some.inj hc
    decide
  have front := (leading_of_parts ha.blank (dash s)).1
  rw [h, (leading_of_parts hb.blank (dash t)).1] at front
  subst front
  exact ⟨rfl, (List.cons.inj (List.append_cancel_left h)).2⟩

theorem taken_arrow {before : Text} (hb : OptionalBlank before) (s : Text) :
    ∃ arrow rest, before ++ '-' :: '>' :: s = arrow ++ rest ∧ Separator.arrow.Taken arrow rest := by
  obtain ⟨after, rest, rfl, ha, longest⟩ := optional_split s
  refine ⟨before ++ '-' :: '>' :: after, rest, by simp, .arrow hb ha, ?_, ?_⟩
  · intro k t earlier
    exact absurd earlier (Nat.not_lt_zero _)
  · intro t writes starts
    cases writes with
    | @arrow before' after' hb' ha' =>
      obtain ⟨more, whole⟩ := starts
      simp only [List.append_assoc, List.cons_append] at whole
      obtain ⟨rfl, tail⟩ := arrow_unique hb' hb whole
      have shorter := longest after' ha' ⟨more, (List.cons.inj tail).2⟩
      simpa using shorter

theorem arrow_starts {c : Char} {s t : Text} (h : arrow.Writes s) (starts : s <+: c :: t) :
    c = '-' ∨ isBlank c = true ∧ ['-', '>'] <+: t := by
  cases h with
  | arrow hb ha =>
    rcases hb with rfl | ⟨b, blank, rfl⟩
    · exact .inl (List.cons_prefix_cons.mp starts).1.symm
    · obtain ⟨rfl, more⟩ := List.cons_prefix_cons.mp starts
      exact .inr ⟨blank, (List.prefix_append ['-', '>'] _).trans more⟩

theorem comma_starts {c : Char} {s t : Text} (h : comma.Writes s) (starts : s <+: c :: t) :
    c = ',' := by
  cases h with
  | comma ha => exact (List.cons_prefix_cons.mp starts).1.symm

theorem taken_comma (s : Text) :
    ∃ comma rest, ',' :: s = comma ++ rest ∧ Separator.comma.Taken comma rest := by
  obtain ⟨after, rest, rfl, ha, longest⟩ := optional_split s
  refine ⟨',' :: after, rest, rfl, .comma ha, ?_, ?_⟩
  · intro k t earlier writes starts
    cases k with
    | arrow =>
      rcases arrow_starts writes starts with dash | ⟨blank, -⟩
      · exact absurd dash (by decide)
      · exact absurd blank (by decide)
    | comma => exact absurd earlier (Nat.lt_irrefl _)
    | blank => exact absurd earlier (by decide)
  · intro t writes starts
    cases writes with
    | comma ha' =>
      have shorter := longest _ ha' (List.cons_prefix_cons.mp starts).2
      simpa using shorter

/-- A blank is a separator of its own, where no arrow follows it. -/
theorem taken_blank {c : Char} (blank : isBlank c = true) {rest : Text}
    (arrowless : ¬ ['-', '>'] <+: rest) : Separator.blank.Taken [c] rest := by
  refine ⟨.blank blank, ?_, ?_⟩
  · intro k t earlier writes starts
    cases k with
    | arrow =>
      rcases arrow_starts writes starts with rfl | ⟨-, arrow⟩
      · exact absurd blank (by decide)
      · exact arrowless arrow
    | comma =>
      obtain rfl := comma_starts writes starts
      exact absurd blank (by decide)
    | blank => exact absurd earlier (Nat.lt_irrefl _)
  · intro t writes _
    cases writes with
    | blank => exact Nat.le_refl _

/-- Where a separator of any kind is written, one is taken. -/
theorem exists_taken {k : Separator} {s t : Text} (h : k.Writes s) (starts : s <+: t) :
    ∃ k' taken rest, t = taken ++ rest ∧ Taken k' taken rest := by
  obtain ⟨rest, rfl⟩ := starts
  cases h with
  | @arrow before after hb ha =>
    obtain ⟨taken, rest', whole, is⟩ := taken_arrow hb (after ++ rest)
    exact ⟨.arrow, taken, rest', by simpa using whole, is⟩
  | @comma after ha =>
    obtain ⟨taken, rest', whole, is⟩ := taken_comma (after ++ rest)
    exact ⟨.comma, taken, rest', whole, is⟩
  | @blank c blank =>
    -- a blank right in front of an arrow belongs to the arrow
    by_cases arrow : ['-', '>'] <+: rest
    · obtain ⟨s, rfl⟩ := arrow
      obtain ⟨taken, rest', whole, is⟩ := taken_arrow (.inr ⟨c, blank, rfl⟩) s
      exact ⟨.arrow, taken, rest', whole, is⟩
    · exact ⟨.blank, [c], rest, rfl, taken_blank blank arrow⟩

end Separator

/-! ## What the scan finds -/

theorem arrowLength_eq_zero {s : Text} (h : ¬ ['-', '>'] <+: s) : arrowLength s = 0 := by
  unfold arrowLength
  split
  next s => exact absurd ⟨s, rfl⟩ h
  next => rfl

/-- The blank behind an arrow or a comma belongs to it. -/
theorem followed_by_blank {after : Text} (rest : Text) (h : OptionalBlank after)
    (longest : ∀ t, OptionalBlank t → t <+: after ++ rest → t.length ≤ after.length) :
    ((after ++ rest).head?.map isBlank).getD false = !after.isEmpty := by
  rcases h with rfl | ⟨c, blank, rfl⟩
  · cases rest with
    | nil => rfl
    | cons c rest =>
      by_contra other
      have blank : isBlank c = true := by simpa using other
      have longer := longest [c] (.inr ⟨c, blank, rfl⟩) ⟨rest, rfl⟩
      exact absurd longer (Nat.not_succ_le_zero 0)
  · simpa using blank

namespace Separator

theorem Taken.length {k : Separator} {s rest : Text} (h : k.Taken s rest) :
    separatorLength (s ++ rest) = s.length := by
  obtain ⟨writes, first, longest⟩ := h
  cases writes with
  | @arrow before after hb ha =>
    have blank := followed_by_blank rest ha fun t ht starts => by
      have longer := longest _ (.arrow hb ht) (by simpa using starts)
      simpa using longer
    have arrow : arrowLength ('-' :: '>' :: (after ++ rest)) = 2 + after.length := by
      rw [arrowLength, blank]
      rcases ha with rfl | ⟨c, -, rfl⟩ <;> rfl
    have dash : isBlank '-' = false := by decide
    rcases hb with rfl | ⟨c, own, rfl⟩
    · simp [separatorLength, dash, arrow]
      omega
    · simp [separatorLength, own, arrow]
      omega
  | @comma after ha =>
    have blank := followed_by_blank rest ha fun t ht starts => by
      have longer := longest _ (.comma ht) (by simpa using starts)
      simpa using longer
    have comma : isBlank ',' = false := by decide
    simp only [List.cons_append, separatorLength, comma, blank]
    rcases ha with rfl | ⟨c, -, rfl⟩ <;> rfl
  | @blank c own =>
    have arrowless : ¬ ['-', '>'] <+: rest := by
      intro starts
      have arrow : Separator.arrow.Writes [c, '-', '>'] := .arrow (.inr ⟨c, own, rfl⟩) (.inl rfl)
      exact first .arrow _ (by decide) arrow (List.cons_prefix_cons.mpr ⟨rfl, starts⟩)
    simp [separatorLength, own, arrowLength_eq_zero arrowless]

theorem Taken.found {k : Separator} {s rest : Text} (h : k.Taken s rest) :
    separatorAt? (s ++ rest) = some ((), s.length - 1) := by
  have pos := h.writes.length_pos
  rw [separatorAt?, h.length]
  cases length : s.length with
  | zero => omega
  | succ n => rfl

end Separator

theorem separatorAt?_eq_none_iff {t : Text} :
    separatorAt? t = none ↔ ∀ (k : Separator) s, k.Writes s → ¬ s <+: t := by
  constructor
  · intro none k s writes starts
    obtain ⟨k', taken, rest, rfl, is⟩ := Separator.exists_taken writes starts
    rw [is.found] at none
    cases none
  · intro h
    have arrowless : ¬ ['-', '>'] <+: t := h .arrow _ Separator.writes_bareArrow
    have none : separatorLength t = 0 := by
      cases t with
      | nil => rfl
      | cons c t =>
        have solid : isBlank c ≠ true := fun blank => h .blank [c] (.blank blank) ⟨t, rfl⟩
        have comma : c ≠ ',' := by
          rintro rfl
          exact h .comma [','] (.comma (.inl rfl)) ⟨t, rfl⟩
        rw [separatorLength, if_neg solid, if_neg comma, arrowLength_eq_zero arrowless]
    rw [separatorAt?, none]

/-! ## Texts without separators -/

/-- A text without blanks, commas and arrows. -/
structure Unseparated (s : Text) : Prop where
  solid : ∀ c ∈ s, isBlank c = false ∧ c ≠ ','
  arrowless : ¬ ['-', '>'] <:+: s

instance (s : Text) : Decidable (Unseparated s) :=
  decidable_of_iff ((∀ c ∈ s, isBlank c = false ∧ c ≠ ',') ∧ ¬ ['-', '>'] <:+: s)
    ⟨fun h => ⟨h.1, h.2⟩, fun h => ⟨h.solid, h.arrowless⟩⟩

/-- No arrow starts in a text that holds none, if what stands behind it does not go on with one. -/
theorem arrowless_append {s rest : Text} (filled : s ≠ []) (arrowless : ¬ ['-', '>'] <:+: s)
    (behind : ∀ c ∈ rest.head?, c ≠ '>') : ¬ ['-', '>'] <+: s ++ rest := by
  rintro ⟨more, eq⟩
  match s with
  | [] => exact filled rfl
  | [c] =>
    cases rest with
    | nil => cases eq
    | cons d rest =>
      obtain ⟨-, tail⟩ := List.cons.inj eq
      obtain ⟨rfl, -⟩ := List.cons.inj tail
      exact behind '>' rfl rfl
  | c :: d :: s =>
    obtain ⟨rfl, tail⟩ := List.cons.inj eq
    obtain ⟨rfl, -⟩ := List.cons.inj tail
    exact arrowless ⟨[], s, rfl⟩

namespace Unseparated

theorem noMatch {s rest : Text} (h : Unseparated s) (behind : ∀ c ∈ rest.head?, c ≠ '>') :
    NoMatch separatorAt? s rest := by
  intro c u suffix
  obtain ⟨solid, comma⟩ := h.solid c (suffix.subset List.mem_cons_self)
  have free : ¬ ['-', '>'] <:+: c :: u := fun inside => h.arrowless (inside.trans suffix.isInfix)
  have arrowless : ¬ ['-', '>'] <+: c :: u ++ rest :=
    arrowless_append (List.cons_ne_nil c u) free behind
  have none : separatorLength (c :: u ++ rest) = 0 := by
    rw [List.cons_append] at arrowless ⊢
    rw [separatorLength, solid, if_neg Bool.false_ne_true, if_neg comma,
      arrowLength_eq_zero arrowless]
  rw [separatorAt?, none]

/-- A text without separators is left as it is. -/
theorem delimit_eq_self {s : Text} (h : Unseparated s) (delimiter : Text) :
    delimit s delimiter = s := by
  simp [delimit, modifierWords, cut_eq_self (h.noMatch nofun)]

theorem append {a b : Text} (ha : Unseparated a) (hb : Unseparated b)
    (seam : (∀ c ∈ a.getLast?, c ≠ '-') ∨ ∀ c ∈ b.head?, c ≠ '>') : Unseparated (a ++ b) := by
  constructor
  · exact List.forall_mem_append.mpr ⟨ha.solid, hb.solid⟩
  · intro inside
    rcases List.infix_append_iff.mp inside with left | right | ⟨front, back, whole, ends, starts⟩
    · exact ha.arrowless left
    · exact hb.arrowless right
    · match front, whole with
      | [], whole => exact hb.arrowless (whole ▸ starts.isInfix)
      | [c], whole =>
        obtain ⟨rfl, rfl⟩ := List.cons.inj whole
        obtain ⟨rest, rfl⟩ := starts
        obtain ⟨front, rfl⟩ := ends
        rcases seam with last | first
        · exact last '-' (by simp) rfl
        · exact first '>' rfl rfl
      | c :: d :: front, whole =>
        simp only [List.cons_append, List.cons.injEq] at whole
        obtain ⟨rfl, rfl, tail⟩ := whole
        obtain ⟨rfl, rfl⟩ := List.append_eq_nil_iff.mp tail.symm
        exact ha.arrowless ends.isInfix

end Unseparated

/-! ## The words between separators -/

/-- No separator starts in `gap`, where `rest` stands behind it. -/
def Clear (gap rest : Text) : Prop :=
  ∀ c u, c :: u <:+ gap → ∀ (k : Separator) s, k.Writes s → ¬ s <+: c :: u ++ rest

theorem clear_iff_noMatch {gap rest : Text} : Clear gap rest ↔ NoMatch separatorAt? gap rest := by
  simp only [Clear, NoMatch, separatorAt?_eq_none_iff]

theorem Clear.unseparated {gap rest : Text} (h : Clear gap rest) : Unseparated gap := by
  constructor
  · intro c hc
    obtain ⟨front, u, rfl⟩ := List.append_of_mem hc
    have here := h c u (List.suffix_append front _)
    constructor
    · by_contra blank
      exact here .blank [c] (.blank (by simpa using blank)) ⟨u ++ rest, rfl⟩
    · rintro rfl
      exact here .comma [','] (.comma (.inl rfl)) ⟨u ++ rest, rfl⟩
  · rintro ⟨front, u, rfl⟩
    have suffix : '-' :: '>' :: u <:+ front ++ ['-', '>'] ++ u := ⟨front, by simp⟩
    exact h '-' ('>' :: u) suffix .arrow _ Separator.writes_bareArrow ⟨u ++ rest, rfl⟩

/-- A modifier as its first word, and each separator with the word behind it. A separator is taken
at the leftmost place where one is written. -/
inductive Separated : Text → Text → List (Text × Text) → Prop
  | last {word : Text} (clear : Clear word []) : Separated word word []
  | next {word separator rest second : Text} {others : List (Text × Text)} {k : Separator}
      (clear : Clear word (separator ++ rest)) (taken : k.Taken separator rest)
      (h : Separated rest second others) :
      Separated (word ++ (separator ++ rest)) word ((separator, second) :: others)

theorem exists_separated (value : Text) : ∃ first others, Separated value first others := by
  rcases first_match separatorAt? value with none | ⟨gap, rest, a, more, whole, none, found⟩
  · exact ⟨value, [], .last (clear_iff_noMatch.mpr none)⟩
  · have written : ∃ (k : Separator) (s : Text), k.Writes s ∧ s <+: rest := by
      by_contra nowhere
      push Not at nowhere
      rw [separatorAt?_eq_none_iff.mpr nowhere] at found
      cases found
    obtain ⟨k, s, writes, starts⟩ := written
    obtain ⟨k', separator, behind, rfl, taken⟩ := Separator.exists_taken writes starts
    have pos := taken.writes.length_pos
    obtain ⟨second, others, h⟩ := exists_separated behind
    exact ⟨gap, (separator, second) :: others,
      whole ▸ .next (clear_iff_noMatch.mpr none) taken h⟩
termination_by value.length
decreasing_by
  subst whole
  simp only [List.length_append]
  omega

namespace Separated

variable {value first : Text} {others : List (Text × Text)}

/-- Nothing of a modifier is lost. -/
theorem text (h : Separated value first others) :
    value = first ++ others.flatMap fun (separator, word) => separator ++ word := by
  induction h with
  | last => simp
  | next _ _ _ ih => simp only [List.flatMap_cons, List.append_assoc, ← ih]

theorem unseparated (h : Separated value first others) :
    Unseparated first ∧ ∀ part ∈ others, Unseparated part.2 := by
  induction h with
  | last clear => exact ⟨clear.unseparated, nofun⟩
  | next clear _ _ ih => exact ⟨clear.unseparated, List.forall_mem_cons.mpr ih⟩

/-- The scan stops where a separator is taken. -/
theorem cuts (h : Separated value first others) :
    Cuts separatorAt? value first (others.map fun part => ((), part.2)) := by
  induction h with
  | last clear => exact .last (clear_iff_noMatch.mp clear)
  | @next word separator rest second others k clear taken _ ih =>
    have pos := taken.writes.length_pos
    exact .found (clear_iff_noMatch.mp clear) taken.found (by omega) ih

theorem delimit_eq (h : Separated value first others) (delimiter : Text) :
    delimit value delimiter = first ++ others.flatMap (delimiter ++ ·.2) := by
  simp only [delimit, modifierWords, h.cuts.eq, List.map_map, List.flatMap_map,
    Function.comp_def]

/-- A modifier is split in one way. -/
theorem unique (h : Separated value first others) {first' : Text} {others' : List (Text × Text)}
    (h' : Separated value first' others') : first' = first ∧ others' = others := by
  have words : first' = first ∧
      others'.map (fun part => ((), part.2)) = others.map (fun part => ((), part.2)) :=
    Prod.mk.inj (h'.cuts.eq.symm.trans h.cuts.eq)
  obtain ⟨rfl, words⟩ := words
  refine ⟨rfl, ?_⟩
  -- The scan tells the words, and the length of each separator between them.
  induction h generalizing others' with
  | last => exact List.map_eq_nil_iff.mp words
  | @next word separator rest second others k clear taken h ih =>
    generalize whole : word ++ (separator ++ rest) = value at h'
    cases h' with
    | last => cases words
    | @next _ separator' rest' second' others' k' _ taken' h' =>
      have same : separator ++ rest = separator' ++ rest' := List.append_cancel_left whole
      have length : separator.length = separator'.length := by
        rw [← taken.length, same, taken'.length]
      obtain ⟨rfl, rfl⟩ := List.append_inj same length
      obtain ⟨word, later⟩ := List.cons.inj words
      obtain rfl : second' = second := congrArg Prod.snd word
      rw [ih h' later]

end Separated

/-- No separator comes up where words and delimiters meet. -/
theorem unseparated_joined {delimiter first : Text} {others : List (Text × Text)}
    (filled : delimiter ≠ [])
    (chars : ∀ c ∈ delimiter, isBlank c = false ∧ c ≠ ',' ∧ c ≠ '-' ∧ c ≠ '>')
    (h : Unseparated first) (h' : ∀ part ∈ others, Unseparated part.2) :
    Unseparated (first ++ others.flatMap (delimiter ++ ·.2)) := by
  have own : Unseparated delimiter := by
    refine ⟨fun c hc => ⟨(chars c hc).1, (chars c hc).2.1⟩, ?_⟩
    intro inside
    exact (chars '-' (inside.subset (by decide))).2.2.1 rfl
  have ends : ∀ c ∈ delimiter.getLast?, c ≠ '-' := fun c hc =>
    (chars c (List.mem_of_getLast? hc)).2.2.1
  induction others generalizing first with
  | nil => simpa using h
  | cons part others ih =>
    obtain ⟨word, others'⟩ := List.forall_mem_cons.mp h'
    have behind := ih (own.append word (.inl ends)) others'
    rw [List.flatMap_cons]
    refine h.append behind (.inr ?_)
    intro c hc
    cases delimiter with
    | nil => exact absurd rfl filled
    | cons d delimiter =>
      obtain rfl : d = c := Option.some.inj hc
      exact (chars d List.mem_cons_self).2.2.2

/-- A modifier has one split at its separators, which no delimiter has a part in: under any
delimiter, the modifier is delimited by writing it in the place of each separator. If a delimiter
can be told from separators, a modifier that is delimited by it holds no more of them, and
delimiting it again changes nothing. -/
theorem delimit_separated (value : Text) :
    ∃ first others, Separated value first others ∧
      (∀ first' others', Separated value first' others' → first' = first ∧ others' = others) ∧
      (value = first ++ others.flatMap fun (separator, word) => separator ++ word) ∧
      (Unseparated first ∧ ∀ part ∈ others, Unseparated part.2) ∧
      (∀ delimiter, delimit value delimiter =
        first ++ others.flatMap fun (_, word) => delimiter ++ word) ∧
      ∀ delimiter, delimiter ≠ [] →
        (∀ c ∈ delimiter, isBlank c = false ∧ c ≠ ',' ∧ c ≠ '-' ∧ c ≠ '>') →
        Unseparated (delimit value delimiter) ∧
          delimit (delimit value delimiter) delimiter = delimit value delimiter := by
  obtain ⟨first, others, h⟩ := exists_separated value
  refine ⟨first, others, h, fun _ _ => h.unique, h.text, h.unseparated, h.delimit_eq, ?_⟩
  intro delimiter filled chars
  have free : Unseparated (delimit value delimiter) := by
    rw [h.delimit_eq]
    exact unseparated_joined filled chars h.unseparated.1 h.unseparated.2
  exact ⟨free, free.delimit_eq_self delimiter⟩

/-- The delimiter keeps a word that ends like an arrow apart from one that goes on with it. -/
theorem delimit_separated_mixed :
    delimit "a- >b  -> c,->d".toList ['_'] = "a-_>b__c__d".toList ∧ ['_'] ≠ ([] : Text) ∧
    (∀ c ∈ ['_'], isBlank c = false ∧ c ≠ ',' ∧ c ≠ '-' ∧ c ≠ '>') ∧
    Unseparated "a-_>b__c__d".toList ∧
    delimit "a-_>b__c__d".toList ['_'] = "a-_>b__c__d".toList := by
  have value : delimit "a- >b  -> c,->d".toList ['_'] = "a-_>b__c__d".toList := by decide
  obtain ⟨_, _, _, _, _, _, _, again⟩ := delimit_separated "a- >b  -> c,->d".toList
  have delimited := again ['_'] (by decide) (by decide)
  rw [value] at delimited
  exact ⟨value, by decide, by decide, delimited⟩

end BemSheet.Bem
