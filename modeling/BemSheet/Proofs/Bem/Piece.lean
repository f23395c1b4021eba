import BemSheet.Proofs.Bem.Scan
import BemSheet.Proofs.Text.Blanks
import Mathlib.Data.List.Chain

/-!
Tags in a text, and pieces in a row.

* `bareTagAt?_eq_some`, `withAlias_eq_some`: the scan finds every tag that a text starts with, and
  an alias before it.
* `Tag.text_not_inside`, `first_tag`: no tag starts inside of another, so that the tags of a text do
  not overlap.
* `meets_pieces`, `ends_pieces`: which pieces of a clause follow each other, and which are at its
  ends.
-/

namespace BemSheet.Bem

open Text

/-! ## Tags as they are written -/

/-- The piece that a tag stands for: its contents without quotes and without blanks at the ends. -/
def Tag.meaning (tag : Tag) : Piece :=
  let value := trim (tag.content.filter fun c => c ≠ '\'' ∧ c ≠ '"')
  match tag.keyword with
  | .block => .block value
  | .elem => .elem value
  | .mod => .mod value

def isRound (c : Char) : Bool := c == '(' || c == ')'

theorem isRound_of_isValueChar {c : Char} (h : isValueChar c = true) : isRound c = false := by
  have other : c ≠ '(' ∧ c ≠ ')' := by
    constructor <;> rintro rfl <;> cases h
  simp [isRound, other]

theorem Keyword.isRound_of_mem (k : Keyword) : ∀ c ∈ k.word, isRound c = false := by
  cases k <;> decide

/-- What stands before the first parenthesis of a text is unique. -/
theorem first_round {a b s t : Text} {c d : Char} (ha : ∀ c ∈ a, isRound c = false)
    (hb : ∀ c ∈ b, isRound c = false) (hc : isRound c = true) (hd : isRound d = true)
    (h : a ++ c :: s = b ++ d :: t) : a = b ∧ c = d := by
  have taken {a s : Text} {c : Char} (ha : ∀ c ∈ a, isRound c = false) (hc : isRound c = true) :
      (a ++ c :: s).takeWhile (fun c => !isRound c) = a := by
    rw [List.takeWhile_append_of_pos (by simpa using ha)]
    simp [hc]
  have same : a = b := by rw [← taken (s := s) ha hc, h, taken hb hd]
  subst same
  exact ⟨rfl, (List.cons.inj (List.append_cancel_left h)).1⟩

/-- The parentheses that `valueOf` takes out do not occur. -/
theorem Tag.WellFormed.piece {tag : Tag} (h : tag.WellFormed) : tag.piece = tag.meaning := by
  obtain ⟨keyword, content⟩ := tag
  have same : valueOf content = trim (content.filter fun c => c ≠ '\'' ∧ c ≠ '"') := by
    rw [valueOf]
    congr 1
    apply List.filter_congr
    intro c hc
    have outside := isRound_of_isValueChar (h.values c hc)
    simp only [isRound, Bool.or_eq_false_iff] at outside
    simp [outside, Bool.beq_eq_decide_eq _ '\'', Bool.beq_eq_decide_eq _ '"']
  cases keyword <;> simp only [Tag.piece, Piece.of, Tag.meaning, same]

/-- A tag starts with its keyword, which no alias belongs to. -/
theorem Tag.text_start (tag : Tag) : ∃ c t, tag.text = c :: t ∧ isAlias c = false := by
  obtain ⟨keyword, content⟩ := tag
  cases keyword <;> exact ⟨_, _, rfl, rfl⟩

theorem Tag.text_length_pos (tag : Tag) : 0 < tag.text.length := by
  obtain ⟨c, t, starts, -⟩ := tag.text_start
  rw [starts]
  exact Nat.succ_pos _

theorem Keyword.tagAt?_eq_some {k : Keyword} {s : Text} {tag : Tag} {more : Nat} :
    k.tagAt? s = some (tag, more) ↔
      tag.keyword = k ∧ tag.WellFormed ∧ tag.text <+: s ∧ tag.text.length = more + 1 := by
  constructor
  · intro found
    obtain ⟨written, rest, whole, length, own, rfl, wellFormed⟩ := finds_tagAt k s tag more found
    exact ⟨own, wellFormed, ⟨rest, whole.symm⟩, length⟩
  · obtain ⟨keyword, content⟩ := tag
    rintro ⟨rfl, ⟨nonempty, values⟩, ⟨rest, rfl⟩, length⟩
    have entry : keyword.word ++ ['('] <+: Tag.text ⟨keyword, content⟩ ++ rest := by
      simp [Tag.text]
    have body : (Tag.text ⟨keyword, content⟩ ++ rest).drop (keyword.word.length + 1) =
        content ++ ')' :: rest := by
      have whole : Tag.text ⟨keyword, content⟩ ++ rest =
        (keyword.word ++ ['(']) ++ (content ++ ')' :: rest) := by simp [Tag.text]
      rw [whole, List.drop_left' (by simp)]
    have stop : isValueChar ')' = false := by decide
    have taken : (content ++ ')' :: rest).takeWhile isValueChar = content := by
      rw [List.takeWhile_append_of_pos values]
      simp [stop]
    have left : (content ++ ')' :: rest).dropWhile isValueChar = ')' :: rest := by
      rw [List.dropWhile_append_of_pos values]
      simp [stop]
    have more_eq : keyword.word.length + 1 + content.length = more := by
      simp [Tag.text] at length
      omega
    rw [Keyword.tagAt?, if_pos (List.isPrefixOf_iff_prefix.mpr entry)]
    simp only [body, taken, left, nonempty, ne_eq, not_false_eq_true, List.head?_cons, and_self,
      if_true, more_eq]

/-- A text starts with one tag at most. -/
theorem Tag.text_unique {a b : Tag} (ha : a.WellFormed) (hb : b.WellFormed) {s : Text}
    (pa : a.text <+: s) (pb : b.text <+: s) : a = b := by
  have keyword : a.keyword = b.keyword := by
    obtain ⟨t, rfl⟩ := pa
    obtain ⟨u, eq⟩ := pb
    simp only [Tag.text, List.append_assoc, List.cons_append] at eq
    obtain ⟨word, -⟩ :=
      first_round b.keyword.isRound_of_mem a.keyword.isRound_of_mem rfl rfl eq
    have spelled := congrArg Keyword.ofWord? word
    simpa only [Keyword.ofWord?_word, Option.some.injEq, eq_comm] using spelled
  have size (tag : Tag) : tag.text.length = tag.text.length - 1 + 1 :=
    (Nat.succ_pred_eq_of_pos tag.text_length_pos).symm
  have left := Keyword.tagAt?_eq_some.mpr ⟨keyword, ha, pa, size a⟩
  have right := Keyword.tagAt?_eq_some.mpr ⟨rfl, hb, pb, size b⟩
  exact (Prod.mk.inj (Option.some.inj (left.symm.trans right))).1

theorem bareTagAt?_eq_some {s : Text} {tag : Tag} {more : Nat} : bareTagAt? s = some (tag, more) ↔
    tag.WellFormed ∧ tag.text <+: s ∧ tag.text.length = more + 1 := by
  constructor
  · intro found
    obtain ⟨k, -, found⟩ := List.exists_of_findSome?_eq_some found
    exact (Keyword.tagAt?_eq_some.mp found).2
  · rintro ⟨wellFormed, starts, length⟩
    have own := Keyword.tagAt?_eq_some.mpr ⟨rfl, wellFormed, starts, length⟩
    cases found : bareTagAt? s with
    | none =>
      have none := List.findSome?_eq_none_iff.mp found tag.keyword (by cases tag.keyword <;> decide)
      cases none.symm.trans own
    | some match_ =>
      obtain ⟨k, -, found⟩ := List.exists_of_findSome?_eq_some found
      obtain ⟨-, wellFormed', starts', length'⟩ := Keyword.tagAt?_eq_some.mp found
      obtain ⟨tag', more'⟩ := match_
      obtain rfl := Tag.text_unique wellFormed wellFormed' starts starts'
      obtain rfl : more = more' := Nat.succ.inj (length.symm.trans length')
      rfl

/-- No keyword ends with a different one. -/
theorem Keyword.eq_of_suffix {k l : Keyword} : l.word <:+ k.word → k = l := by
  cases k <;> cases l <;> decide

theorem end_of_closed {tag : Tag} (h : tag.WellFormed) {front back : Text}
    (whole : tag.content ++ [')'] = front ++ back) (hb : back ≠ []) :
    ∃ inner, (∀ c ∈ inner, isRound c = false) ∧ back = inner ++ [')'] := by
  rcases List.append_eq_append_iff.mp whole with ⟨inner, -, eq⟩ | ⟨inner, eq, rfl⟩
  · rcases List.append_eq_singleton_iff.mp eq.symm with ⟨-, rfl⟩ | ⟨-, rfl⟩
    · exact ⟨[], nofun, rfl⟩
    · exact absurd rfl hb
  · refine ⟨inner, ?_, rfl⟩
    intro c hc
    exact isRound_of_isValueChar (h.values c (eq ▸ List.mem_append_right front hc))

/-- No tag starts inside of another: no keyword ends with a different one, and neither the opening
parenthesis nor what follows it up to the closing one holds a keyword and a parenthesis. -/
theorem Tag.text_not_inside {a b : Tag} (ha : a.WellFormed) {front back rest : Text}
    (whole : a.text = front ++ back) (hf : front ≠ []) (hb : back ≠ []) :
    ¬ b.text <+: back ++ rest := by
  rintro ⟨others, eq⟩
  simp only [Tag.text, List.append_assoc, List.cons_append] at whole eq
  rcases List.append_eq_append_iff.mp whole with ⟨lead, rfl, tail⟩ | ⟨word, keyword, rfl⟩
  · cases lead with
    | nil =>
      rw [List.nil_append] at tail
      rw [← tail] at eq
      obtain ⟨word, -⟩ := first_round (a := b.keyword.word) (b := []) b.keyword.isRound_of_mem
        (List.forall_mem_nil _) rfl rfl eq
      cases keyword : b.keyword <;> rw [keyword] at word <;> cases word
    | cons c lead =>
      obtain ⟨inner, inside, rfl⟩ := end_of_closed ha (List.cons.inj tail).2 hb
      rw [List.append_assoc] at eq
      obtain ⟨-, differ⟩ := first_round b.keyword.isRound_of_mem inside rfl rfl eq
      cases differ
  · rw [List.append_assoc] at eq
    have inside := List.forall_mem_append.mp (keyword ▸ a.keyword.isRound_of_mem)
    obtain ⟨rfl, -⟩ := first_round b.keyword.isRound_of_mem inside.2 rfl rfl eq
    have same := Keyword.eq_of_suffix ⟨front, keyword.symm⟩
    rw [same] at keyword
    exact hf (List.self_eq_append_left.mp keyword)

/-! ## Tags and their aliases -/

/-- An alias, or nothing. -/
def Mark (mark : Text) : Prop := mark = [] ∨ ∃ c, isAlias c = true ∧ mark = [c]

theorem withAlias_eq_some {s : Text} {tag : Tag} {more : Nat} :
    withAlias bareTagAt? s = some (tag, more) ↔ tag.WellFormed ∧
      ∃ mark, Mark mark ∧ mark ++ tag.text <+: s ∧ (mark ++ tag.text).length = more + 1 := by
  constructor
  · intro found
    cases s with
    | nil => cases found
    | cons c s =>
      rw [withAlias] at found
      split at found
      next alias_ =>
        obtain ⟨⟨_, length⟩, inner, eq⟩ := Option.map_eq_some_iff.mp found
        obtain ⟨rfl, rfl⟩ := Prod.mk.inj eq
        obtain ⟨wellFormed, starts, length⟩ := bareTagAt?_eq_some.mp inner
        refine ⟨wellFormed, [c], .inr ⟨c, alias_, rfl⟩, ?_, congrArg (· + 1) length⟩
        exact List.cons_prefix_cons.mpr ⟨rfl, starts⟩
      next =>
        obtain ⟨wellFormed, starts, length⟩ := bareTagAt?_eq_some.mp found
        exact ⟨wellFormed, [], .inl rfl, starts, length⟩
  · rintro ⟨wellFormed, mark, rfl | ⟨c, alias_, rfl⟩, ⟨rest, rfl⟩, length⟩
    · obtain ⟨c, t, starts, plain⟩ := tag.text_start
      have found := bareTagAt?_eq_some.mpr ⟨wellFormed, List.prefix_append tag.text rest, length⟩
      rw [List.nil_append, starts, List.cons_append, withAlias, plain, if_neg Bool.false_ne_true]
      rwa [starts] at found
    · obtain rfl : tag.text.length = more := Nat.succ.inj length
      obtain ⟨d, t, starts, -⟩ := tag.text_start
      have found : bareTagAt? (tag.text ++ rest) = some (tag, tag.text.length - 1) :=
        bareTagAt?_eq_some.mpr ⟨wellFormed, List.prefix_append tag.text rest, by simp [starts]⟩
      simp only [List.cons_append, List.nil_append, withAlias, alias_, if_true, found]
      simp [starts]

theorem withAlias_mark {tag : Tag} (h : tag.WellFormed) {mark : Text} (is : Mark mark)
    (rest : Text) : withAlias bareTagAt? (mark ++ (tag.text ++ rest)) =
      some (tag, mark.length + (tag.text.length - 1)) := by
  have := tag.text_length_pos
  refine withAlias_eq_some.mpr ⟨h, mark, is, ⟨rest, List.append_assoc ..⟩, ?_⟩
  simp only [List.length_append]
  omega

/-- In a text that starts with a tag, any other tag stands behind it. -/
theorem Tag.same_or_behind {tag other : Tag} (h : tag.WellFormed) (h' : other.WellFormed)
    {rest front back : Text} (whole : tag.text ++ rest = front ++ (other.text ++ back)) :
    (tag = other ∧ front = []) ∨
      ∃ between, front = tag.text ++ between ∧ rest = between ++ (other.text ++ back) := by
  rcases List.append_eq_append_iff.mp whole with behind | ⟨inner, eq, whole'⟩
  · exact .inr behind
  · by_cases hf : front = []
    · subst hf
      exact .inl ⟨Tag.text_unique h h' (List.prefix_append _ rest) ⟨back, whole.symm⟩, rfl⟩
    · by_cases hi : inner = []
      · subst hi
        rw [List.append_nil] at eq
        exact .inr ⟨[], by rw [eq, List.append_nil], whole'.symm⟩
      · exact absurd ⟨back, whole'⟩ (Tag.text_not_inside h eq hf hi)

/-- In a text up to its first match and behind it, no tag stands before that match or inside of
it. -/
theorem first_tag {gap mark rest front back : Text} {tag other : Tag}
    (none : NoMatch (withAlias bareTagAt?) gap (mark ++ (tag.text ++ rest))) (is : Mark mark)
    (h : tag.WellFormed) (h' : other.WellFormed)
    (whole : gap ++ (mark ++ (tag.text ++ rest)) = front ++ (other.text ++ back)) :
    (tag = other ∧ front = gap ++ mark) ∨
      ∃ between, front = gap ++ (mark ++ (tag.text ++ between)) ∧
        rest = between ++ (other.text ++ back) := by
  have behind_mark (lead : Text) (eq : mark ++ (tag.text ++ rest) = lead ++ (other.text ++ back)) :
      ∃ between, lead = mark ++ between := by
    obtain ⟨d, t, starts, plain⟩ := other.text_start
    rcases is with rfl | ⟨c, alias_, rfl⟩
    · exact ⟨lead, rfl⟩
    · cases lead with
      | nil =>
        rw [starts] at eq
        obtain ⟨rfl, -⟩ := List.cons.inj eq
        cases alias_.symm.trans plain
      | cons e lead =>
        obtain ⟨rfl, -⟩ := List.cons.inj eq
        exact ⟨lead, rfl⟩
  have behind : ∃ lead, front = gap ++ (mark ++ lead) := by
    rcases List.append_eq_append_iff.mp whole with ⟨lead, rfl, eq⟩ | ⟨inner, rfl, eq⟩
    · obtain ⟨between, rfl⟩ := behind_mark lead eq
      exact ⟨between, rfl⟩
    · cases inner with
      | nil =>
        obtain ⟨between, empty⟩ := behind_mark [] eq.symm
        exact ⟨between, by rw [← empty, List.append_nil, List.append_nil]⟩
      | cons c u =>
        have found := withAlias_eq_some.mpr ⟨h', [], .inl rfl, ⟨back, eq⟩,
          (Nat.succ_pred_eq_of_pos (other.text_length_pos)).symm⟩
        cases (none c u (List.suffix_append front _)).symm.trans found
  obtain ⟨lead, rfl⟩ := behind
  simp only [List.append_assoc, List.append_cancel_left_eq] at whole
  rcases Tag.same_or_behind h h' whole with ⟨same, rfl⟩ | ⟨between, rfl, eq⟩
  · exact .inl ⟨same, by rw [List.append_nil]⟩
  · exact .inr ⟨between, rfl, eq⟩

/-! ## Neighbouring pieces -/

/-- The keyword of a piece that stands for a tag. -/
def Piece.keyword? : Piece → Option Keyword
  | .block _ => some .block
  | .elem _ => some .elem
  | .mod _ => some .mod
  | .literal _ => none

/-- Whether a piece may follow another: no literal follows a literal, and no tag follows a tag that
it cannot share a class with. -/
def Meets (last next : Piece) : Prop :=
  match last.keyword?, next.keyword? with
  | none, none => False
  | some k, some l => attaches k l false = true
  | _, _ => True

theorem keyword?_piece (tag : Tag) : tag.piece.keyword? = some tag.keyword := by
  obtain ⟨keyword, content⟩ := tag
  cases keyword <;> rfl

theorem attaches_first {k l : Keyword} {second : Bool} (h : attaches k l second = true) :
    attaches k l false = true := by
  cases k <;> cases l <;> first | rfl | cases h

theorem keyword?_literal (text : Text) : (Piece.literal text).keyword? = none := rfl

theorem meets_literal {piece : Piece} {k : Keyword} (h : piece.keyword? = some k) (text : Text) :
    Meets piece (.literal text) ∧ Meets (.literal text) piece := by
  simp [Meets, h, keyword?_literal]

theorem meets_tag {piece : Piece} {k : Keyword} (h : piece.keyword? = some k) {tag : Tag}
    {second : Bool} (joins : attaches k tag.keyword second = true) : Meets piece tag.piece := by
  simp [Meets, h, keyword?_piece, attaches_first joins]

theorem meets_piecesAfter {piece : Piece} {last : Keyword} (is : piece.keyword? = some last)
    (second : Bool) (gap : Text) (others : List (Tag × Text)) :
    (piece :: piecesAfter last second gap others).IsChain Meets := by
  induction others generalizing piece last second gap with
  | nil => exact .cons_cons (meets_literal is gap).1 (.singleton _)
  | cons match_ others ih =>
    obtain ⟨tag, next⟩ := match_
    have own := keyword?_piece tag
    rw [piecesAfter]
    split
    next joins => exact .cons_cons (meets_tag is (Bool.and_eq_true_iff.mp joins).2) (ih own ..)
    next =>
      exact .cons_cons (meets_literal is gap).1 (.cons_cons (meets_literal own gap).2 (ih own ..))

/-- Which pieces of a clause follow each other. -/
theorem meets_pieces (clause : Text) : (pieces clause).IsChain Meets := by
  rw [pieces]
  split
  next => exact .singleton _
  next lead tag next others _ =>
    have own := keyword?_piece tag
    exact .cons_cons (meets_literal own lead).2 (meets_piecesAfter own ..)

theorem getLast?_piecesAfter (last : Keyword) (second : Bool) (gap : Text)
    (others : List (Tag × Text)) :
    ∃ text, (piecesAfter last second gap others).getLast? = some (.literal text) := by
  induction others generalizing last second gap with
  | nil => exact ⟨gap, rfl⟩
  | cons match_ others ih =>
    obtain ⟨tag, next⟩ := match_
    rw [piecesAfter]
    split
    next =>
      obtain ⟨text, ends⟩ := ih tag.keyword (last == .mod) next
      exact ⟨text, by rw [List.getLast?_cons, ends]; rfl⟩
    next =>
      obtain ⟨text, ends⟩ := ih tag.keyword false next
      exact ⟨text, by rw [List.getLast?_cons, List.getLast?_cons, ends]; rfl⟩

/-- A clause starts and ends with a literal. -/
theorem ends_pieces (clause : Text) : (∃ text, (pieces clause).head? = some (.literal text)) ∧
    ∃ text, (pieces clause).getLast? = some (.literal text) := by
  rw [pieces]
  split
  next lead _ => exact ⟨⟨lead, rfl⟩, lead, rfl⟩
  next lead tag next others _ =>
    obtain ⟨text, ends⟩ := getLast?_piecesAfter tag.keyword false next others
    refine ⟨⟨lead, rfl⟩, text, ?_⟩
    rw [List.getLast?_cons, List.getLast?_cons, ends]
    rfl

end BemSheet.Bem
