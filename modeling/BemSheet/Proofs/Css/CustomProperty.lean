import BemSheet.Proofs.Css.Origins

/-!
Which statements keep their blocks in curly brackets.

A custom property starts with a name of two hyphens and more, and has a colon next. Its blocks in
curly brackets belong to its value, and every other statement has its body opened by the first such
block. Splitting looks for the colon in all of the text before the block, though, so a statement
with such a name also keeps its blocks if a colon comes later (`opens_unless_property`).
-/

namespace BemSheet.Css

namespace Forest

/-- Whether a statement starts with the name of a custom property. -/
def startsCustom : Forest → Bool
  | leaf t _ => t.isCustomName
  | nil | block .. => false

/-- Whether the next token is a colon, white space and comments aside. -/
def colonNext : Forest → Bool
  | nil | block .. => false
  | leaf t rest =>
    match t.kind with
    | .space | .comment .. => rest.colonNext
    | .colon => true
    | _ => false

/-- Whether a statement is a custom property: its name comes first, and a colon next. -/
def isProperty : Forest → Bool
  | leaf t rest => t.isCustomName && rest.colonNext
  | nil | block .. => false

theorem Starts.of_append {f g : Forest} (h : (f.append g).Starts) (filled : f ≠ nil) :
    f.Starts := by
  cases f with
  | nil => exact absurd rfl filled
  | leaf => exact h
  | block => trivial

theorem runs_append {f g : Forest} : (f.append g).Runs ↔ f.Runs ∧ g.Runs := by
  induction f with
  | nil => simp [append, Runs]
  | leaf token rest ih => simp only [append, Runs, ih, and_assoc]
  | block opener body closer rest _ ih => simpa only [append, Runs] using ih

/-- A colon that is next stands in front of a block that follows. -/
theorem cut_of_colonNext {f : Forest} {opener : Token} {body : Forest} {closer : Option Token}
    {rest : Forest} (h : (f.append (block opener body closer rest)).colonNext = true) :
    ∃ front more : Forest, f = front.append more ∧ front.NoCurly ∧
      ∃ t ∈ front.tokens, t.kind = .colon := by
  induction f with
  | nil => cases h
  | block => cases h
  | leaf t f ih =>
    rw [append, colonNext] at h
    have gap (h : (f.append (block opener body closer rest)).colonNext = true) :
        ∃ front more : Forest, leaf t f = front.append more ∧ front.NoCurly ∧
          ∃ t ∈ front.tokens, t.kind = .colon := by
      obtain ⟨front, more, rfl, none, u, mem, is⟩ := ih h
      exact ⟨leaf t front, more, rfl, none, u, List.mem_cons_of_mem t mem, is⟩
    split at h
    · exact gap h
    · exact gap h
    next is => exact ⟨leaf t nil, f, rfl, trivial, t, List.mem_cons_self, is⟩
    · cases h

end Forest

namespace Outline

/-- What a statement is, by its text up to a place where it still goes on. -/
theorem ofForest_front {front : Forest} (spelled : ∀ t ∈ front.tokens, t.Spelled)
    (starts : front.Starts) (runs : front.Runs) (none : front.NoCurly) (g : Forest) :
    ∃ header start, ofForest (front.append g) = statement header start
      (finish front.startsCustom (front.text.contains ':') g).2 ∧
      header.text = front.text ++ (finish front.startsCustom (front.text.contains ':') g).1 := by
  cases front with
  | nil => exact starts.elim
  | leaf t rest =>
    have first := spelled t List.mem_cons_self
    rw [Forest.append, ofForest_leaf starts.no_space starts.no_semicolon starts.no_comment,
      finish_append runs.2 (.inr none), ← Forest.contains_leaf]
    refine ⟨_, _, rfl, ?_⟩
    rw [Header.text_of first, Forest.text, List.append_assoc]
    rfl
  | block opener body closer rest =>
    rw [Forest.append, ofForest, if_neg none.1]
    simp only [finish_append (f := rest) runs (.inr none.2), ← Forest.contains_block]
    refine ⟨_, _, rfl, ?_⟩
    simp [Header.text, Forest.text, Forest.blockText, Forest.startsCustom]

/-- Where the name and the colon have come, a statement goes on to its semicolon or the end. -/
theorem finish_flat (f : Forest) : ∃ text semicolon rest,
    finish true true f = (text, .flat semicolon rest) := by
  induction f with
  | nil => exact ⟨[], false, .done [], by rw [finish]⟩
  | leaf t f ih =>
    obtain ⟨text, semicolon, rest, eq⟩ := ih
    by_cases is : t.kind = .semicolon
    · exact ⟨[], true, ofForest f, by rw [finish, if_pos is]⟩
    · refine ⟨t.text ++ text, semicolon, rest, ?_⟩
      rw [finish, if_neg is, Bool.true_or, eq]
  | block opener body closer f _ ih =>
    obtain ⟨text, semicolon, rest, eq⟩ := ih
    refine ⟨Forest.blockText opener body closer ++ text, semicolon, rest, ?_⟩
    simp [finish, eq]

end Outline

/-- A block in curly brackets that stands in a statement outside of its other blocks: the statement
up to the block, the block, and all that follows. -/
structure Brace where
  front : Forest
  opener : Token
  body : Forest
  closer : Option Token
  rest : Forest

namespace Brace

/-- The statement with the block, and all that follows. -/
def whole (b : Brace) : Forest := b.front.append (.block b.opener b.body b.closer b.rest)

/-- The block stands in a statement of the text. -/
structure In (css : Text) (b : Brace) : Prop where
  starts : b.whole.Starts
  row : b.whole.tokens <:+: tokens css
  curly : b.opener.kind = .opener .curly
  runs : b.front.Runs

/-- The block is a piece of the text of its statement, which has no body. -/
def Kept (b : Brace) : Prop :=
  ∃ header start semicolon rest, Outline.ofForest b.whole = .flat [] header start semicolon rest ∧
    b.front.text ++ Forest.blockText b.opener b.body b.closer <+: header.text

/-- The block is the body of its statement, whose text ends in front of it. -/
def Opens (b : Brace) : Prop :=
  ∃ header start, Outline.ofForest b.whole = .nest [] header start (.ofForest b.body)
    b.closer.isSome (.ofForest b.rest) ∧ header.text = b.front.text

/-- The statement starts with a custom name and has a colon in front of the block, though not
next. -/
structure LateColon (b : Brace) : Prop where
  custom : b.whole.startsCustom = true
  no_property : b.whole.isProperty = false
  colon : ':' ∈ b.front.text

variable {css : Text} {b : Brace}

theorem In.spelled (h : b.In css) : ∀ t ∈ b.front.tokens, t.Spelled := by
  intro t ht
  refine tokens_spelled css t (h.row.subset ?_)
  rw [whole, Forest.tokens_append]
  exact List.mem_append_left _ ht

theorem Kept.not_opens (h : b.Kept) : ¬ b.Opens := by
  rintro ⟨_, _, nest, -⟩
  obtain ⟨_, _, _, _, flat, -⟩ := h
  rw [flat] at nest
  cases nest

/-- A statement that starts with a custom name keeps its blocks in curly brackets from the first
colon on. -/
theorem kept_of_colon (h : b.In css) {head more : Forest} (cut : b.front = head.append more)
    (none : head.NoCurly) (custom : head.startsCustom = true) (colon : ':' ∈ head.text) :
    b.Kept := by
  have spelled := h.spelled
  have runs := h.runs
  have filled : head ≠ .nil := by
    rintro rfl
    cases custom
  have starts := h.starts
  rw [whole, cut, Forest.append_assoc] at starts
  rw [cut, Forest.tokens_append] at spelled
  rw [cut, Forest.runs_append] at runs
  obtain ⟨header, start, eq, text⟩ := Outline.ofForest_front
    (fun t ht => spelled t (List.mem_append_left _ ht)) (starts.of_append filled) runs.1 none
    (more.append (.block b.opener b.body b.closer b.rest))
  obtain ⟨behind, semicolon, others, flat⟩ := Outline.finish_flat b.rest
  have kept : Outline.finish true true (.block b.opener b.body b.closer b.rest) =
      (Forest.blockText b.opener b.body b.closer ++ behind, .flat semicolon others) := by
    simp [Outline.finish, flat]
  have contains : head.text.contains ':' = true := by simpa using colon
  -- Behind `head` the colon has come, so no block of `more` ends the statement either.
  rw [custom, contains, Outline.finish_append runs.2 (.inl rfl), Bool.true_or, kept] at eq text
  refine ⟨header, start, semicolon, others, ?_, behind, ?_⟩
  · rw [whole, cut, Forest.append_assoc]
    exact eq
  · rw [text, cut, Forest.text_append]
    simp

/-- Without a colon, the first block in curly brackets opens a body, and so it does in any statement
that does not start with a custom name. -/
theorem opens_of_no_colon (h : b.In css) (none : b.front.NoCurly)
    (no_colon : b.front.startsCustom = true → ':' ∉ b.front.text) : b.Opens := by
  by_cases empty : b.front = .nil
  · refine ⟨.plain [], b.opener.start, ?_, by rw [empty]; rfl⟩
    rw [whole, empty, Forest.append, Outline.ofForest, if_pos h.curly]
  · have open_ : (b.front.startsCustom && b.front.text.contains ':') = false := by
      cases custom : b.front.startsCustom with
      | false => rfl
      | true => simpa using no_colon custom
    obtain ⟨header, start, eq, text⟩ := Outline.ofForest_front h.spelled
      (h.starts.of_append empty) h.runs none (.block b.opener b.body b.closer b.rest)
    rw [Outline.finish, open_, if_pos (by simp [h.curly])] at eq text
    exact ⟨header, start, eq, by rw [text, List.append_nil]⟩

theorem startsCustom_whole (b : Brace) : b.whole.startsCustom = b.front.startsCustom := by
  obtain ⟨front, opener, body, closer, rest⟩ := b
  cases front <;> rfl

/-- A custom property keeps all its blocks in curly brackets: its name and its colon stand in front
of each of them. -/
theorem kept_of_isProperty (h : b.In css) (property : b.whole.isProperty = true) : b.Kept := by
  have spelled := h.spelled
  obtain ⟨front, opener, body, closer, rest⟩ := b
  cases front with
  | nil | block => cases property
  | leaf t f =>
    obtain ⟨custom, next⟩ := Bool.and_eq_true_iff.mp property
    obtain ⟨head, more, rfl, none, u, mem, is⟩ := Forest.cut_of_colonNext next
    have spells := (spelled u (List.mem_cons_of_mem t (by simp [Forest.tokens_append, mem]))).spells
    rw [is] at spells
    have single : u.text = [':'] := spells
    have cut : (Forest.leaf t (head.append more)) = (Forest.leaf t head).append more := rfl
    refine kept_of_colon h cut none custom ?_
    rw [Forest.text, ← Forest.textOf_tokens]
    exact List.mem_append_right _ (List.mem_flatMap.mpr ⟨u, mem, by simp [single]⟩)

end Brace

/-- Which blocks in curly brackets open a body, of those that stand in a statement outside of its
other blocks. A custom property keeps all of them, and any other statement has its body opened by
the first. Only if the statement starts with a custom name and has a colon in front of the block
that is not next, it keeps the block as well. -/
theorem opens_unless_property (css : Text) :
    (∀ o ∈ (outline css).statements, Outline.Origin (.ofTokens (tokens css)) o) ∧
    ∀ b : Brace, b.In css →
      (b.whole.isProperty = true → b.Kept) ∧
      (b.front.NoCurly → ¬ b.LateColon →
        (b.Kept ↔ b.whole.isProperty = true) ∧ (b.Opens ↔ b.whole.isProperty = false)) ∧
      (b.front.NoCurly → b.LateColon → b.Kept) := by
  refine ⟨origin_outline css, fun b h => ⟨Brace.kept_of_isProperty h, ?_, ?_⟩⟩
  · intro none not_late
    cases property : b.whole.isProperty with
    | true =>
      have kept := Brace.kept_of_isProperty h property
      exact ⟨iff_of_true kept rfl, iff_of_false kept.not_opens (by simp)⟩
    | false =>
      have opens : b.Opens := by
        apply Brace.opens_of_no_colon h none
        intro custom colon
        exact not_late ⟨(b.startsCustom_whole).trans custom, property, colon⟩
      exact ⟨iff_of_false (fun kept => kept.not_opens opens) (by simp), iff_of_true opens rfl⟩
  · intro none late
    have custom : b.front.startsCustom = true := b.startsCustom_whole ▸ late.custom
    exact Brace.kept_of_colon h (b.front.append_nil).symm none custom late.colon

/-- The second block of the text `--x/**/:{}{}`. -/
def secondBrace : Brace where
  front := .leaf ⟨.ident, "--x".toList, ⟨1, 1⟩⟩ (.leaf ⟨.comment [] true, "/**/".toList, ⟨1, 4⟩⟩
    (.leaf ⟨.colon, [':'], ⟨1, 8⟩⟩ (.block ⟨.opener .curly, ['\x7b'], ⟨1, 9⟩⟩ .nil
      (some ⟨.closer .curly, ['\x7d'], ⟨1, 10⟩⟩) .nil)))
  opener := ⟨.opener .curly, ['\x7b'], ⟨1, 11⟩⟩
  body := .nil
  closer := some ⟨.closer .curly, ['\x7d'], ⟨1, 12⟩⟩
  rest := .nil

/-- A custom property whose colon comes behind a comment keeps its second block, too. -/
theorem opens_unless_property_second : secondBrace.In "--x/**/:\x7b\x7d\x7b\x7d".toList ∧
    secondBrace.whole.isProperty = true ∧ secondBrace.Kept := by
  have here : secondBrace.In "--x/**/:\x7b\x7d\x7b\x7d".toList := by
    refine ⟨⟨by simp, by simp, by simp⟩, ⟨[], [], rfl⟩, rfl, ?_⟩
    simp [secondBrace, Forest.Runs]
  exact ⟨here, rfl, ((opens_unless_property _).2 secondBrace here).1 rfl⟩

/-- The block of the text `--x a:hover{}`. -/
def hoverBrace : Brace where
  front := .leaf ⟨.ident, "--x".toList, ⟨1, 1⟩⟩ (.leaf ⟨.space, [' '], ⟨1, 4⟩⟩
    (.leaf ⟨.ident, ['a'], ⟨1, 5⟩⟩ (.leaf ⟨.colon, [':'], ⟨1, 6⟩⟩
      (.leaf ⟨.ident, "hover".toList, ⟨1, 7⟩⟩ .nil))))
  opener := ⟨.opener .curly, ['\x7b'], ⟨1, 12⟩⟩
  body := .nil
  closer := some ⟨.closer .curly, ['\x7d'], ⟨1, 13⟩⟩
  rest := .nil

/-- A rule whose selector starts with a custom name and goes on to a pseudo-class is read as a
statement without a body, though it is no custom property. -/
theorem hover_kept : hoverBrace.In "--x a:hover\x7b\x7d".toList ∧ hoverBrace.front.NoCurly ∧
    hoverBrace.whole.isProperty = false ∧ hoverBrace.Kept ∧ ¬ hoverBrace.Opens := by
  have here : hoverBrace.In "--x a:hover\x7b\x7d".toList := by
    refine ⟨⟨by simp, by simp, by simp⟩, ⟨[], [], rfl⟩, rfl, ?_⟩
    simp [hoverBrace, Forest.Runs]
  have none : hoverBrace.front.NoCurly := trivial
  have kept : hoverBrace.Kept :=
    Brace.kept_of_colon here hoverBrace.front.append_nil.symm none rfl (by decide)
  exact ⟨here, none, rfl, kept, kept.not_opens⟩

end BemSheet.Css
