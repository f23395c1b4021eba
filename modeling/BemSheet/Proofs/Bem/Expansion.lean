import BemSheet.Proofs.Bem.Scan
import BemSheet.Proofs.Css.Safe
import BemSheet.Proofs.Text.Blanks

/-!
What expanding does to the shape of a selector.

* `renders_expand`: the brackets of a selector match after expanding as they did before, every
  character is one that was there or belongs to a class selector, and no blank gets to the end.
* `expand_start`: only a class selector or the word that opens clauses may stand at the head of an
  expanded selector in the place of what stood there.
-/

namespace BemSheet.Bem

open Css Text

/-! ## The characters of class selectors -/

/-- Characters that class selectors are written with. -/
def isClassChar (c : Char) : Bool := c == '.' || (isValueChar c && c != '\'' && c != '"')

theorem isClassChar_cases {c : Char} (h : isClassChar c = true) :
    isHiding c = false ∧ c ∉ special ∧ c ≠ ':' := by
  have none : ∀ d ∈ hidingChars ++ special ++ [':'], isClassChar d = false := by decide
  have other := not_mem_of_test none h
  simp only [List.mem_append, not_or, List.mem_singleton] at other
  exact ⟨shown_of_not_mem other.1.1, other.1.2, other.2⟩

/-- A part of a class selector: it ends with no blank. -/
structure Part (s : Text) : Prop where
  chars : ∀ c ∈ s, isClassChar c = true
  ends : EndsFilled s

theorem Part.nil : Part [] := ⟨nofun, nofun⟩

theorem Part.append {a b : Text} (ha : Part a) (hb : Part b) : Part (a ++ b) :=
  ⟨List.forall_mem_append.mpr ⟨ha.chars, hb.chars⟩, endsFilled_append ha.ends hb.ends⟩

/-- A text of class characters without blanks. -/
theorem Part.of_filled {s : Text} (h : ∀ c ∈ s, isClassChar c = true ∧ isBlank c = false) :
    Part s := by
  constructor
  · intro c hc
    exact (h c hc).1
  · intro c hc
    exact (h c (List.mem_of_getLast? hc)).2

theorem toNat_of_isAlphanum {c : Char} (h : c.isAlphanum = true) :
    48 ≤ c.toNat ∧ c.toNat ≤ 122 := by
  have ranges : (decide (c.val ≥ 'A'.val ∧ c.val ≤ 'Z'.val) ||
      (decide (c.val ≥ 'a'.val) && decide (c.val ≤ 'z'.val)) ||
      (decide (c.val ≥ '0'.val) && decide (c.val ≤ '9'.val))) = true := h
  simp only [Bool.or_eq_true, Bool.and_eq_true, decide_eq_true_eq, ge_iff_le,
    UInt32.le_iff_toNat_le] at ranges
  have bounds : 'A'.val.toNat = 65 ∧ 'Z'.val.toNat = 90 ∧ 'a'.val.toNat = 97 ∧
      'z'.val.toNat = 122 ∧ '0'.val.toNat = 48 ∧ '9'.val.toNat = 57 := by decide
  have : c.toNat = c.val.toNat := rfl
  omega

theorem filled_of_isPlainChar {c : Char} (h : isPlainChar c = true) :
    isClassChar c = true ∧ isBlank c = false := by
  have no_quote : c ≠ '\'' ∧ c ≠ '"' := by
    constructor <;> rintro rfl <;> cases h
  simp only [isPlainChar, Bool.or_eq_true, beq_iff_eq] at h
  constructor
  · rcases h with (alphanum | rfl) | rfl
    · simp [isClassChar, isValueChar, alphanum, no_quote]
    · rfl
    · rfl
  · rcases h with (alphanum | rfl) | rfl
    · have bounds := toNat_of_isAlphanum alphanum
      simp only [isBlank, Bool.or_eq_false_iff, Bool.and_eq_false_iff, decide_eq_false_iff_not,
        beq_eq_false_iff_ne]
      omega
    · rfl
    · rfl

theorem part_valueOf {content : Text} (h : ∀ c ∈ content, isValueChar c = true) :
    Part (valueOf content) := by
  refine ⟨?_, (parts_of_cut _).2.1.last⟩
  intro c hc
  obtain ⟨front, back, -, -, whole⟩ := parts_of_trim (s := content.filter _) rfl
  have inside : c ∈ content.filter fun c => !(c == '(' || c == ')' || c == '\'' || c == '"') := by
    rw [whole]
    exact List.mem_append_left _ (List.mem_append_right _ hc)
  obtain ⟨mem, kept⟩ := List.mem_filter.mp inside
  simp only [Bool.not_eq_true', Bool.or_eq_false_iff] at kept
  simp [isClassChar, h c mem, bne, kept.1.2, kept.2]

/-- The characters of a modifier with delimiters belong to its words, where no separator starts, or to
the delimiter. -/
theorem forall_mem_delimit {P : Char → Prop} {value delimiter : Text}
    (hv : ∀ c t, c :: t <:+ value → separatorAt? (c :: t) = none → P c)
    (hd : ∀ c ∈ delimiter, P c) : ∀ c ∈ delimit value delimiter, P c := by
  obtain ⟨first, others⟩ := cut_mem 0 value hv
  intro c hc
  simp only [delimit, modifierWords, List.mem_append, List.mem_flatMap, List.mem_map] at hc
  rcases hc with hc | ⟨word, ⟨separator, mem, rfl⟩, hc | hc⟩
  · exact first c hc
  · exact hd c hc
  · exact others separator mem c hc

/-- A modifier with delimiters holds no blank, since every blank is part of a separator. -/
theorem part_delimit {value delimiter : Text} (hv : ∀ c ∈ value, isClassChar c = true)
    (hd : ∀ c ∈ delimiter, isPlainChar c = true) : Part (delimit value delimiter) := by
  apply Part.of_filled
  apply forall_mem_delimit
  · intro c t suffix none
    constructor
    · exact hv c (suffix.subset List.mem_cons_self)
    · rw [Bool.eq_false_iff]
      intro blank
      rw [separatorAt?, separatorLength, if_pos blank, Nat.add_comm] at none
      cases none
  · intro c hc
    exact filled_of_isPlainChar (hd c hc)

/-! ## Class selectors -/

/-- Delimiters of letters, digits, underscores and hyphens. -/
def Delimiters.Plain (delimiters : Delimiters) : Prop :=
  ∀ c ∈ delimiters.modifier ++ delimiters.element, isPlainChar c = true

instance (delimiters : Delimiters) : Decidable delimiters.Plain :=
  inferInstanceAs
    (Decidable (∀ c ∈ delimiters.modifier ++ delimiters.element, isPlainChar c = true))

theorem Part.of_plain {s : Text} (h : ∀ c ∈ s, isPlainChar c = true) : Part s := by
  apply Part.of_filled
  intro c hc
  exact filled_of_isPlainChar (h c hc)

/-- An entity whose names are parts of class selectors. -/
structure Entity.Named (entity : Entity) : Prop where
  block : ∀ name ∈ entity.block, Part name
  elem : ∀ name ∈ entity.elem, Part name

theorem named_empty : ({} : Entity).Named := ⟨nofun, nofun⟩

theorem part_named {name : Text} (h : Part name) : ∀ s ∈ named? name, Part s := by
  intro s hs
  rw [named?] at hs
  by_cases empty : name.isEmpty = true
  · rw [if_pos empty] at hs
    cases hs
  · rw [if_neg empty] at hs
    obtain rfl : name = s := Option.some.inj hs
    exact h

theorem part_part {delimiter : Text} (hd : Part delimiter) {name? : Option Text}
    (h : ∀ name ∈ name?, Part name) : Part (Entity.part delimiter name?) := by
  cases name? with
  | none => exact .nil
  | some name => exact hd.append (h name rfl)

theorem part_selector {entity : Entity} (h : entity.Named) {delimiters : Delimiters}
    (plain : delimiters.Plain) {modifier : Option Text} (hm : ∀ s ∈ modifier, Part s) :
    Part (entity.selector modifier delimiters) := by
  obtain ⟨mod, elem⟩ := List.forall_mem_append.mp plain
  have last : ∀ s ∈ modifier.bind named?, Part s := by
    intro s hs
    obtain ⟨value, eq, hs⟩ := Option.bind_eq_some_iff.mp hs
    exact part_named (hm value eq) s hs
  have point : Part ['.'] := .of_filled (by decide)
  have head := point.append (part_part .nil h.block)
  exact (head.append (part_part (.of_plain elem) h.elem)).append (part_part (.of_plain mod) last)

/-! ## Texts in the place of others -/

/-- In any selector, `b` may stand in the place of `a`: brackets that match go on matching, and
nothing but characters of class selectors is new. -/
structure MayReplace (a b : Text) : Prop where
  nested : ∀ opened after, openAfter? opened a = some after → openAfter? opened b = some after
  chars : ∀ c ∈ b, c ∈ a ∨ isClassChar c = true

namespace MayReplace

theorem refl (s : Text) : MayReplace s s := ⟨fun _ _ h => h, fun _ h => .inl h⟩

theorem append {a b a' b' : Text} (h : MayReplace a b) (h' : MayReplace a' b') :
    MayReplace (a ++ a') (b ++ b') where
  nested opened after reads := by
    rw [openAfter?_append] at reads ⊢
    obtain ⟨middle, first, second⟩ := Option.bind_eq_some_iff.mp reads
    rw [h.nested _ _ first, Option.bind_some, h'.nested _ _ second]
  chars c hc := by
    rcases List.mem_append.mp hc with hc | hc
    · exact (h.chars c hc).imp_left (List.mem_append_left _)
    · exact (h'.chars c hc).imp_left (List.mem_append_right _)

/-- A text that leaves all brackets as they are may be replaced by a class selector. -/
theorem part {a b : Text} (closed : ∀ opened, openAfter? opened a = some opened) (h : Part b) :
    MayReplace a b where
  nested opened after reads := by
    rw [closed] at reads
    rw [← reads]
    exact openAfter?_of_test (by decide) h.chars opened
  chars c hc := .inr (h.chars c hc)

end MayReplace

/-- What may be written for a text: it may stand in its place, and it gets no blank at its end. -/
structure Renders (source rendered : Text) : Prop where
  mayReplace : MayReplace source rendered
  ends : EndsFilled source → EndsFilled rendered

namespace Renders

variable {a b a' b' : Text}

theorem refl (s : Text) : Renders s s := ⟨.refl s, id⟩

/-- Side by side, the first text comes to the end only where the second one is empty, and it must be
empty before too. -/
theorem append (h : Renders a b) (h' : Renders a' b') (kept : b' = [] → a' = []) :
    Renders (a ++ a') (b ++ b') := by
  refine ⟨h.mayReplace.append h'.mayReplace, ?_⟩
  intro ends
  by_cases empty : b' = []
  · obtain rfl := kept empty
    rw [List.append_nil] at ends
    rw [empty, List.append_nil]
    exact h.ends ends
  · obtain ⟨c, t, rfl⟩ := List.exists_cons_of_ne_nil empty
    exact (endsFilled_append_cons b).mpr (h'.ends ends.of_append)

/-- A class selector may stand in front in the place of a text that leaves all brackets as they
are. -/
theorem part_append (closed : ∀ opened, openAfter? opened a = some opened) (part : Part b)
    (h : Renders a' b') : Renders (a ++ a') (b ++ b') := by
  refine ⟨(MayReplace.part closed part).append h.mayReplace, ?_⟩
  intro ends
  exact endsFilled_append part.ends (h.ends ends.of_append)

/-- A text that leaves all brackets as they are may be left out in front. -/
theorem skip (closed : ∀ opened, openAfter? opened a = some opened) (h : Renders a' b') :
    Renders (a ++ a') b' :=
  part_append closed .nil h

end Renders

theorem word_not_special (k : Keyword) : ∀ c ∈ k.word, c ∉ special := by
  cases k <;> decide

/-- A tag closes the parenthesis that it opens. -/
theorem closed_of_written {tag : Tag} {s : Text} (h : Aliased Tag.Written tag s)
    (opened : List Bracket) : openAfter? opened s = some opened := by
  obtain ⟨mark, matched, marks, ⟨rfl, wellFormed⟩, rfl⟩ := h
  have left : openAfterChar? opened '(' = some (.round :: opened) := by cases opened <;> rfl
  have right : openAfter? (.round :: opened) [')'] = some opened := by rfl
  calc openAfter? opened (mark ++ tag.text)
    _ = openAfter? opened tag.text := by
      rw [openAfter?_append, openAfter?_of_test (by decide) marks, Option.bind_some]
    _ = openAfter? opened ('(' :: (tag.content ++ [')'])) := by
      rw [Tag.text, openAfter?_append, openAfter?_of_neutral (word_not_special _), Option.bind_some]
    _ = openAfter? (.round :: opened) (tag.content ++ [')']) := by
      rw [openAfter?_cons, left, Option.bind_some]
    _ = openAfter? (.round :: opened) [')'] := by
      rw [openAfter?_append, openAfter?_of_test (by decide) wellFormed.values, Option.bind_some]
    _ = some opened := right

/-! ## A selector by its clauses -/

/-- What is written for the clauses of a selector, each with the text after it. -/
def renderClauses (delimiters : Delimiters) : List (Text × Text) → Text
  | [] => []
  | (clause, between) :: others =>
    renderClause delimiters clause ++ (between ++ renderClauses delimiters others)

theorem expand_eq (selector : Text) : expand delimiters selector =
    (clauses selector).1 ++ renderClauses delimiters (clauses selector).2 := by
  have all (others : List (Text × Text)) : (others.flatMap fun found =>
      renderClause delimiters found.1 ++ found.2) = renderClauses delimiters others := by
    induction others with
    | nil => rfl
    | cons found others ih => rw [List.flatMap_cons, ih, renderClauses, List.append_assoc]
  exact congrArg ((clauses selector).1 ++ ·) (all (clauses selector).2)

/-! ## The pieces of a clause -/

variable {delimiters : Delimiters}

/-- An entity that is pending is written next. -/
theorem renderPieces_pending (others : List (Tag × Text)) (last : Keyword) (second : Bool)
    (gap : Text) (entity : Entity) : ∃ t, renderPieces delimiters entity true
      (piecesAfter last second gap others) = '.' :: t := by
  induction others generalizing last second gap entity with
  | nil => exact ⟨_, rfl⟩
  | cons match_ others ih =>
    obtain ⟨⟨keyword, content⟩, next⟩ := match_
    rw [piecesAfter]
    split
    · cases keyword with
      | block | elem => exact ih ..
      | mod => exact ⟨_, rfl⟩
    · exact ⟨_, rfl⟩

section

variable (plain : delimiters.Plain)

include plain

/-- A tag leaves either a class selector or an entity for the next one. -/
theorem renderPieces_tag {tag : Tag} (values : ∀ c ∈ tag.content, isValueChar c = true)
    {entity : Entity} (named : entity.Named) (pending : Bool) :
    ∃ class_ entity' pending', Part class_ ∧ entity'.Named ∧
      ((class_ = [] ∧ pending' = true) ∨ ∃ name, class_ = '.' :: name) ∧
      ∀ rest, renderPieces delimiters entity pending (tag.piece :: rest) =
        class_ ++ renderPieces delimiters entity' pending' rest := by
  have value := part_valueOf values
  obtain ⟨keyword, content⟩ := tag
  cases keyword with
  | block =>
    exact ⟨[], .ofBlock (valueOf content), true, .nil, ⟨part_named value, nofun⟩, .inl ⟨rfl, rfl⟩,
      fun _ => rfl⟩
  | elem =>
    exact ⟨[], entity.element (valueOf content), true, .nil, ⟨named.block, part_named value⟩,
      .inl ⟨rfl, rfl⟩, fun _ => rfl⟩
  | mod =>
    have words := part_delimit value.chars (List.forall_mem_append.mp plain).1
    have own := part_selector named plain fun s hs => Option.some.inj hs ▸ words
    exact ⟨_, entity, false, own, named, .inr ⟨_, rfl⟩, fun _ => rfl⟩

theorem renders_tag {tag : Tag} {matched : Text} (is : Aliased Tag.Written tag matched)
    {entity : Entity} (named : entity.Named) {last : Keyword} {second : Bool} {next rest : Text}
    {others : List (Tag × Text)}
    (ih : ∀ {entity : Entity} (pending : Bool), entity.Named →
      Renders (next ++ rest)
        (renderPieces delimiters entity pending (piecesAfter last second next others)))
    (pending : Bool) :
    Renders (matched ++ (next ++ rest)) (renderPieces delimiters entity pending
      (tag.piece :: piecesAfter last second next others)) ∧
    ∃ t, renderPieces delimiters entity pending
      (tag.piece :: piecesAfter last second next others) = '.' :: t := by
  have closed := closed_of_written is
  obtain ⟨mark, written, -, ⟨-, wellFormed⟩, -⟩ := is
  obtain ⟨own, entity', pending', part, named', starts, eq⟩ :=
    renderPieces_tag plain wellFormed.values named pending
  have after := ih pending' named'
  rw [eq]
  constructor
  · exact .part_append closed part after
  · rcases starts with ⟨rfl, rfl⟩ | ⟨name, rfl⟩
    · exact renderPieces_pending others last second next entity'
    · exact ⟨_, rfl⟩

/-- A pending entity adds only its class selector in front of a literal. -/
theorem renders_literal {entity : Entity} (named : entity.Named) (pending : Bool) (text : Text) :
    Renders text ((if pending then entity.selector none delimiters else []) ++ text) := by
  have part : Part (if pending then entity.selector none delimiters else []) := by
    cases pending with
    | true => exact part_selector named plain nofun
    | false => exact .nil
  exact .part_append (a := []) (fun _ => rfl) part (.refl text)

theorem renders_pieces {others : List (Tag × Text)} {back : Text}
    (joined : Joined (Aliased Tag.Written) others back) (last : Keyword) (second : Bool)
    (gap : Text) {entity : Entity} (pending : Bool) (named : entity.Named) :
    Renders (gap ++ back)
      (renderPieces delimiters entity pending (piecesAfter last second gap others)) := by
  induction joined generalizing last second gap entity pending with
  | nil =>
    rw [piecesAfter, renderPieces, renderPieces, List.append_nil, List.append_nil]
    exact renders_literal plain named pending gap
  | @cons tag matched next rest others is joined ih =>
    rw [piecesAfter]
    split
    next joins =>
      have blank := List.all_eq_true.mp (Bool.and_eq_true_iff.mp joins).1
      obtain ⟨after, -⟩ :=
        renders_tag plain is named (fun p h => ih _ (last == .mod) next p h) pending
      exact .skip (openAfter?_of_test (by decide) blank) after
    next =>
      obtain ⟨after, t, starts⟩ := renders_tag plain is named (fun p h => ih _ false next p h) false
      rw [renderPieces]
      apply Renders.append (renders_literal plain named pending gap) after
      rw [starts]
      nofun

/-! ## Clauses and selectors -/

theorem renders_clause (clause : Text) : Renders clause (renderClause delimiters clause) := by
  obtain ⟨back, whole, joined⟩ := joined_tags clause
  rw [renderClause, pieces]
  generalize tags clause = found at whole joined
  obtain ⟨lead, others⟩ := found
  simp only at whole joined
  subst whole
  cases joined with
  | nil =>
    rw [renderPieces, renderPieces, List.append_nil, List.append_nil]
    exact .refl lead
  | @cons tag matched next rest others is joined =>
    obtain ⟨after, t, starts⟩ := renders_tag plain is named_empty
      (fun p h => renders_pieces plain joined tag.keyword false next p h) false
    simp only [renderPieces, Bool.false_eq_true, if_false, List.nil_append]
    apply Renders.append (.refl lead) after
    rw [starts]
    nofun

/-- A class selector, or the word that opens the clause, comes first in what is written for it. -/
theorem renderClause_start {clause : Text} (entry : entryWord <+: clause) :
    ∃ c t, renderClause delimiters clause = c :: t ∧ (c = '.' ∨ c = 'b') := by
  obtain ⟨rest, rfl⟩ := entry
  obtain ⟨back, whole, joined⟩ := joined_tags (entryWord ++ rest)
  rw [renderClause, pieces]
  generalize tags (entryWord ++ rest) = found at whole joined
  obtain ⟨lead, others⟩ := found
  simp only at whole joined
  cases lead with
  | cons c lead =>
    obtain rfl : 'b' = c := (List.cons.inj whole).1
    cases others <;> exact ⟨_, _, rfl, .inr rfl⟩
  | nil =>
    cases joined with
    | nil => cases whole
    | @cons tag matched next rest others is joined =>
      obtain ⟨-, t, starts⟩ := renders_tag plain is named_empty
        (fun p h => renders_pieces plain joined tag.keyword false next p h) false
      exact ⟨'.', t, starts, .inl rfl⟩

theorem renderClauses_eq_nil {others : List (Text × Text)} {back : Text}
    (joined : Joined (Aliased Clause) others back) (h : renderClauses delimiters others = []) :
    back = [] := by
  cases joined with
  | nil => rfl
  | cons is joined =>
    obtain ⟨mark, matched, -, ⟨rfl, entry⟩, -⟩ := is
    obtain ⟨c, t, starts, -⟩ := renderClause_start plain entry
    rw [renderClauses, starts] at h
    cases h

theorem renders_clauses {others : List (Text × Text)} {back : Text}
    (joined : Joined (Aliased Clause) others back) :
    Renders back (renderClauses delimiters others) := by
  induction joined with
  | nil => exact .refl []
  | @cons clause matched between rest others is joined ih =>
    have kept := renderClauses_eq_nil plain joined
    obtain ⟨mark, matched, marks, ⟨rfl, entry⟩, rfl⟩ := is
    have own : Renders (mark ++ matched) (renderClause delimiters matched) :=
      .skip (openAfter?_of_test (by decide) marks) (renders_clause plain matched)
    have tail : Renders (between ++ rest) (between ++ renderClauses delimiters others) :=
      .append (.refl between) ih kept
    rw [renderClauses]
    apply own.append tail
    intro empty
    rw [List.append_eq_nil_iff] at empty ⊢
    exact ⟨empty.1, kept empty.2⟩

/-- An expanded selector may stand in the place of the selector, and gets no blank at its end. -/
theorem renders_expand (selector : Text) : Renders selector (expand delimiters selector) := by
  obtain ⟨back, whole, joined⟩ := joined_clauses selector
  have parts := Renders.append (.refl (clauses selector).1) (renders_clauses plain joined)
    (renderClauses_eq_nil plain joined)
  rw [← whole] at parts
  rw [expand_eq]
  exact parts

/-- A selector without clauses stays. In another, the text before the first clause stays, and a
class selector or the word that opens clauses comes next. -/
theorem expand_start (selector : Text) : expand delimiters selector = selector ∨
    ∃ lead c t, lead <+: selector ∧ expand delimiters selector = lead ++ c :: t ∧
      (c = '.' ∨ c = 'b') := by
  obtain ⟨back, whole, joined⟩ := joined_clauses selector
  rw [expand_eq]
  generalize clauses selector = found at whole joined
  obtain ⟨lead, clauses⟩ := found
  simp only at whole joined ⊢
  subst whole
  cases joined with
  | nil => exact .inl rfl
  | cons is joined =>
    obtain ⟨mark, matched, -, ⟨rfl, entry⟩, -⟩ := is
    obtain ⟨c, t, starts, is⟩ := renderClause_start plain entry
    rw [renderClauses, starts]
    exact .inr ⟨lead, c, _, List.prefix_append _ _, rfl, is⟩

end

end BemSheet.Bem
