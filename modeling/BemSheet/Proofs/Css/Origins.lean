import BemSheet.Proofs.Css.Layout
import BemSheet.Proofs.Css.Statement
import BemSheet.Proofs.Css.Succession

/-!
Where the statements of a text come from.

* `Outline.origin_of_mem`: every statement, however deep, is read from a row of tokens of the text,
  which starts with the first token of the statement. So what holds of tokens can be said of
  statements.
* `named_outline`: the name of an at-keyword is not empty, and starts with no second `@`.
-/

namespace BemSheet.Css

namespace Forest

/-- A forest from the first token or block of a statement on. -/
def Starts : Forest → Prop
  | nil => False
  | leaf t _ => t.Starts
  | block .. => True

end Forest

namespace Outline

/-- What a list is from each of its statements on, at any depth, in the order of the text. -/
def statements : Outline → List Outline
  | done _ => []
  | comment _ _ _ _ rest => rest.statements
  | flat before header start semicolon rest =>
    flat before header start semicolon rest :: rest.statements
  | nest before header start body closed rest =>
    nest before header start body closed rest :: (body.statements ++ rest.statements)

end Outline

/-- The statements behind the end of one, and in its body. -/
def Ending.statements : Ending → List Outline
  | flat _ rest => rest.statements
  | nest body _ rest => body.statements ++ rest.statements

namespace Outline

theorem statements_statement (header : Header) (start : Location) (e : Ending) :
    (statement header start e).statements = statement header start e :: e.statements := by
  cases e <;> rfl

theorem prepend_prepend (gap gap' : Text) (o : Outline) :
    (o.prepend gap').prepend gap = o.prepend (gap ++ gap') := by
  cases o <;> simp [prepend]

/-- A gap in front of a list belongs to its first statement. -/
theorem statements_prepend {p : Outline → Prop} {gap : Text} (first : ∀ o, p o → p (o.prepend gap))
    {o : Outline} (all : ∀ s ∈ o.statements, p s) : ∀ s ∈ (o.prepend gap).statements, p s := by
  cases o with
  | done | comment => exact all
  | flat | nest =>
    obtain ⟨own, others⟩ := List.forall_mem_cons.mp all
    exact List.forall_mem_cons.mpr ⟨first _ own, others⟩

/-- A statement that is read from a row of the tokens of a forest, behind some gap. -/
def Origin (f : Forest) (o : Outline) : Prop :=
  ∃ s gap, s.Starts ∧ s.tokens <:+: f.tokens ∧ o = (ofForest s).prepend gap

theorem Origin.self {f : Forest} (starts : f.Starts) : Origin f (ofForest f) :=
  ⟨f, [], starts, List.infix_rfl, (prepend_nil _).symm⟩

theorem Origin.within {f g : Forest} {o : Outline} (part : f.tokens <:+: g.tokens)
    (h : Origin f o) : Origin g o := by
  obtain ⟨s, gap, starts, row, eq⟩ := h
  exact ⟨s, gap, starts, row.trans part, eq⟩

theorem Origin.prepend {f : Forest} {o : Outline} (h : Origin f o) (gap : Text) :
    Origin f (o.prepend gap) := by
  obtain ⟨s, gap', starts, row, rfl⟩ := h
  exact ⟨s, gap ++ gap', starts, row, prepend_prepend gap gap' _⟩

/-- Every statement of a forest is read from a row of its tokens. -/
theorem origin_of_mem (f : Forest) : (∀ p ∈ (ofForest f).statements, Origin f p) ∧
    ∀ custom colon, ∀ p ∈ (finish custom colon f).2.statements, Origin f p := by
  -- The forest may start a list or stand inside a statement: the induction needs both.
  induction f with
  | nil =>
    constructor
    · rw [ofForest]
      intro p hp
      cases hp
    · intro custom colon
      rw [finish]
      intro p hp
      cases hp
  | leaf token rest ih =>
    have row : rest.tokens <:+: (Forest.leaf token rest).tokens :=
      (List.suffix_cons token rest.tokens).isInfix
    have list := fun p hp => (ih.1 p hp).within row
    have tail := fun custom colon p hp => (ih.2 custom colon p hp).within row
    constructor
    · cases leaf_first token with
      | gap _ eq =>
        rw [eq]
        exact statements_prepend (fun o own => own.prepend token.text) list
      | comment _ _ _ eq =>
        rw [eq]
        exact list
      | statement eq starts =>
        have own : Origin (.leaf token rest) (ofForest (.leaf token rest)) := .self starts
        rw [eq] at own ⊢
        rw [statements_statement]
        exact List.forall_mem_cons.mpr ⟨own, tail _ _⟩
    · intro custom colon
      cases leaf_inside custom colon token with
      | ends _ eq =>
        rw [eq]
        exact list
      | goesOn colon' eq =>
        rw [eq]
        exact tail custom colon'
  | block opener body closer rest inner ih =>
    have row : rest.tokens <:+: (Forest.block opener body closer rest).tokens :=
      ⟨opener :: (body.tokens ++ closer.toList), [], by simp [Forest.tokens]⟩
    have bodyRow : body.tokens <:+: (Forest.block opener body closer rest).tokens :=
      ⟨[opener], closer.toList ++ rest.tokens, by simp [Forest.tokens]⟩
    have list := fun p hp => (ih.1 p hp).within row
    have tail := fun custom colon p hp => (ih.2 custom colon p hp).within row
    have beneath := fun p hp => (inner.1 p hp).within bodyRow
    have nested := List.forall_mem_append.mpr ⟨beneath, list⟩
    have own : Origin (.block opener body closer rest)
        (ofForest (.block opener body closer rest)) := .self trivial
    constructor
    · cases block_first opener body closer with
      | nest _ eq =>
        rw [eq] at own ⊢
        exact List.forall_mem_cons.mpr ⟨own, nested⟩
      | statement colon eq =>
        rw [eq] at own ⊢
        rw [statements_statement]
        exact List.forall_mem_cons.mpr ⟨own, tail false colon⟩
    · intro custom colon
      cases block_inside opener body closer custom colon with
      | ends _ eq =>
        rw [eq]
        exact nested
      | goesOn colon' eq =>
        rw [eq]
        exact tail custom colon'

/-- The header of the statement that a list starts with. -/
def header? : Outline → Option Header
  | done _ | comment .. => none
  | flat _ header .. | nest _ header .. => some header

theorem header?_prepend (gap : Text) (o : Outline) : (o.prepend gap).header? = o.header? := by
  cases o <;> rfl

theorem header?_statement (header : Header) (start : Location) (e : Ending) :
    (statement header start e).header? = some header := by
  cases e <;> rfl

/-- What holds of plain headers, and of those that start with a token of the forest, holds of the
header of every statement. -/
theorem header_of_origin {q : Header → Prop} (plain : ∀ text, q (.plain text)) {f : Forest}
    (h : ∀ t ∈ f.tokens, ∀ rest, q (.of t rest)) {o : Outline} (origin : Origin f o) :
    ∀ header ∈ o.header?, q header := by
  obtain ⟨s, gap, starts, row, rfl⟩ := origin
  rw [header?_prepend]
  intro header own
  rw [Option.mem_def] at own
  cases s with
  | nil => exact starts.elim
  | leaf t rest =>
    have first : t ∈ f.tokens := row.subset List.mem_cons_self
    rw [ofForest_leaf starts.no_space starts.no_semicolon starts.no_comment,
      header?_statement] at own
    exact Option.some.inj own ▸ h t first _
  | block opener body closer rest =>
    cases block_first opener body closer with
    | nest _ eq =>
      rw [eq] at own
      exact Option.some.inj own ▸ plain []
    | statement colon eq =>
      rw [eq, header?_statement] at own
      exact Option.some.inj own ▸ plain _

end Outline

/-! ## The names of at-keywords -/

theorem nameUnit_of_startsIdent {s : Text} (h : startsIdent s = true) : nameUnit s ≠ 0 := by
  cases s with
  | nil => cases h
  | cons c s =>
    rw [startsIdent] at h
    rw [nameUnit]
    by_cases backslash : c = '\\'
    · rw [if_pos backslash] at h ⊢
      have inline : startsWith isNewline s = false := by simpa using h
      rw [inline, if_neg Bool.false_ne_true, escapeLength]
      split
      · split <;> simp
      · dsimp only
        omega
    · rw [if_neg backslash] at h ⊢
      have char : isNameChar c = true := by
        by_cases hyphen : c = '-'
        · rw [hyphen]
          rfl
        · rw [if_neg hyphen] at h
          rw [isNameChar, h]
          rfl
      rw [if_pos char]
      exact Nat.one_ne_zero

/-- A text that starts with something, and not with `@`. -/
def Named (name : Text) : Prop := name ≠ [] ∧ name.head? ≠ some '@'

theorem named_name {s : Text} (h : startsIdent s = true) : Named (name s) := by
  have unit := nameUnit_of_startsIdent h
  cases s with
  | nil => cases h
  | cons c s =>
    have starts : ∃ n, name (c :: s) = c :: Text.run nameUnit n s := by
      rw [name, Text.run]
      split
      next none => exact absurd none unit
      next n _ => exact ⟨n, rfl⟩
    obtain ⟨n, eq⟩ := starts
    rw [eq]
    refine ⟨List.cons_ne_nil _ _, ?_⟩
    intro at_
    obtain rfl := Option.some.inj at_
    cases h

/-- Whether a token has a name behind its `@`, if it is an at-keyword. -/
def Token.Named (t : Token) : Prop := t.kind = .atKeyword → Css.Named (t.text.drop 1)

/-- Whether a header has a name, if it starts with an at-keyword. -/
def Header.Named : Header → Prop
  | keyword name _ => Css.Named name
  | plain _ => True

theorem tokensFrom_named (p : Cursor) (left : Nat) (s : Text) :
    ∀ t ∈ tokensFrom p left s, t.Named := by
  induction s generalizing p left with
  | nil => cases left <;> exact nofun
  | cons c s ih =>
    cases left with
    | succ left => exact ih _ left
    | zero =>
      rw [tokensFrom_cons]
      refine List.forall_mem_cons.mpr ⟨?_, ih _ _⟩
      intro keyword
      obtain ⟨starts, eq⟩ := lexeme_atKeyword keyword
      rw [List.drop_one, List.tail_cons, eq]
      exact named_name starts

/-- Every statement of a text comes from a row of its tokens. -/
theorem origin_outline (s : Text) : ∀ o ∈ (outline s).statements,
    Outline.Origin (.ofTokens (tokens s)) o :=
  (Outline.origin_of_mem _).1

/-- Every at-keyword that starts a statement has a name. -/
theorem named_outline (s : Text) :
    ∀ o ∈ (outline s).statements, ∀ header ∈ o.header?, header.Named := by
  intro o ho
  refine Outline.header_of_origin (q := Header.Named) ?_ ?_ (origin_outline s o ho)
  · exact fun _ => trivial
  · intro t ht rest
    rw [Forest.tokens_ofTokens] at ht
    have named : t.Named := tokensFrom_named _ _ _ t ht
    rw [Header.of]
    split
    next keyword => exact named keyword
    next => trivial

end BemSheet.Css
