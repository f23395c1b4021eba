import BemSheet.Proofs.Css.Succession

/-!
The parts of a forest.

A forest of its own text (`Forest.Whole`) can be taken apart, and its parts are again forests of
their own text: its first statement and what follows it (`Forest.Whole.cut`), and the body of that
statement (`Forest.Whole.exists_body`).
-/

namespace BemSheet.Css

namespace Outline

/-! ## The first statement -/

/-- A forest is only white space and semicolons, or the first statement of it and the rest, which is
empty unless that statement ends. -/
theorem exists_first (f : Forest) :
    ((∃ gap, ofForest f = done gap) ∨ ∃ g h, f = g.append h ∧ (ofForest g).Single ∧
      ((ofForest g).Ended ∨ h = .nil)) ∧
    ∀ custom colon, ∃ g h, f = g.append h ∧ (finish custom colon g).2.Single ∧
      ((finish custom colon g).2.Ended ∨ h = .nil) := by
  induction f with
  | nil =>
    refine ⟨.inl ⟨[], ofForest_nil⟩, fun custom colon => ⟨.nil, .nil, rfl, ?_, .inr rfl⟩⟩
    rw [finish]
    rfl
  | leaf token rest ih =>
    obtain ⟨list, tail⟩ := ih
    constructor
    · cases leaf_first token with
      | gap _ eq =>
        rcases list with ⟨gap, done⟩ | ⟨g, h, rfl, single, ended⟩
        · exact .inl ⟨token.text ++ gap, by rw [eq, done]; rfl⟩
        · refine .inr ⟨.leaf token g, h, rfl, ?_, ?_⟩
          · rwa [eq, single_prepend]
          · rwa [eq, ended_prepend]
      | comment _ _ _ eq =>
        refine .inr ⟨.leaf token .nil, rest, rfl, ?_, .inl ?_⟩
        · rw [eq, ofForest_nil]
          rfl
        · rw [eq, ofForest_nil]
          trivial
      | statement eq =>
        obtain ⟨g, h, rfl, single, ended⟩ := tail token.isCustomName token.hasColon
        refine .inr ⟨.leaf token g, h, rfl, ?_, ?_⟩
        · rwa [eq, single_statement]
        · rwa [eq, ended_statement]
    · intro custom colon
      cases leaf_inside custom colon token with
      | ends _ eq =>
        refine ⟨.leaf token .nil, rest, rfl, ?_, .inl ?_⟩
        · rw [eq, ofForest_nil]
          rfl
        · rw [eq, ofForest_nil]
          exact ⟨rfl, trivial⟩
      | goesOn colon' eq =>
        obtain ⟨g, h, rfl, single, ended⟩ := tail custom colon'
        exact ⟨.leaf token g, h, rfl, by rwa [eq], by rwa [eq]⟩
  | block opener body closer rest _ ih =>
    obtain ⟨-, tail⟩ := ih
    constructor
    · cases block_first opener body closer with
      | nest _ eq =>
        refine .inr ⟨.block opener body closer .nil, rest, rfl, ?_, .inl ?_⟩
        · rw [eq, ofForest_nil]
          rfl
        · rw [eq, ofForest_nil]
          trivial
      | statement colon eq =>
        obtain ⟨g, h, rfl, single, ended⟩ := tail false colon
        refine .inr ⟨.block opener body closer g, h, rfl, ?_, ?_⟩
        · rwa [eq, single_statement]
        · rwa [eq, ended_statement]
    · intro custom colon
      cases block_inside opener body closer custom colon with
      | ends _ eq =>
        refine ⟨.block opener body closer .nil, rest, rfl, ?_, .inl ?_⟩
        · rw [eq, ofForest_nil]
          rfl
        · rw [eq, ofForest_nil]
          trivial
      | goesOn colon' eq =>
        obtain ⟨g, h, rfl, single, ended⟩ := tail custom colon'
        exact ⟨.block opener body closer g, h, rfl, by rwa [eq], by rwa [eq]⟩

/-! ## The body of a statement -/

/-- A list whose first statement has this body. -/
def Nests (inner : Outline) (shut : Bool) : Outline → Prop
  | nest _ _ _ body closed _ => body = inner ∧ closed = shut
  | _ => False

/-- The same of a statement that has begun. -/
def NestsLater (inner : Outline) (shut : Bool) : Ending → Prop
  | .nest body closed _ => body = inner ∧ closed = shut
  | .flat .. => False

theorem nests_prepend {inner : Outline} {shut : Bool} {gap : Text} {o : Outline} :
    Nests inner shut (o.prepend gap) ↔ Nests inner shut o := by
  cases o <;> rfl

theorem nests_statement {inner : Outline} {shut : Bool} {header : Header} {start : Location}
    {e : Ending} : Nests inner shut (statement header start e) ↔ NestsLater inner shut e := by
  cases e <;> rfl

/-- A forest with a block in curly brackets that has these statements in it. -/
def HasBlock (inner : Outline) (shut : Bool) (f : Forest) : Prop :=
  ∃ front opener body closer rest, f = Forest.append front (.block opener body closer rest) ∧
    opener.kind = .opener .curly ∧ ofForest body = inner ∧ closer.isSome = shut

/-- The body of the first statement is that of a block of the forest. -/
theorem hasBlock_of_nests {f : Forest} {inner : Outline} {shut : Bool} :
    (Nests inner shut (ofForest f) → HasBlock inner shut f) ∧
    ∀ custom colon, NestsLater inner shut (finish custom colon f).2 → HasBlock inner shut f := by
  induction f with
  | nil =>
    constructor
    · intro nests
      rw [ofForest] at nests
      cases nests
    · intro custom colon nests
      rw [finish] at nests
      cases nests
  | leaf token f ih =>
    obtain ⟨list, tail⟩ := ih
    have behind (h : HasBlock inner shut f) : HasBlock inner shut (.leaf token f) := by
      obtain ⟨front, opener, body, closer, rest, rfl, h⟩ := h
      exact ⟨.leaf token front, opener, body, closer, rest, rfl, h⟩
    constructor
    · intro nests
      cases leaf_first token with
      | gap _ eq =>
        rw [eq] at nests
        exact behind (list (nests_prepend.mp nests))
      | comment _ _ _ eq =>
        rw [eq] at nests
        cases nests
      | statement eq =>
        rw [eq] at nests
        exact behind (tail _ _ (nests_statement.mp nests))
    · intro custom colon nests
      cases leaf_inside custom colon token with
      | ends _ eq =>
        rw [eq] at nests
        cases nests
      | goesOn colon' eq =>
        rw [eq] at nests
        exact behind (tail custom colon' nests)
  | block opener body closer f _ ih =>
    obtain ⟨-, tail⟩ := ih
    have behind (h : HasBlock inner shut f) :
        HasBlock inner shut (.block opener body closer f) := by
      obtain ⟨front, opener', body', closer', rest, rfl, h⟩ := h
      exact ⟨.block opener body closer front, opener', body', closer', rest, rfl, h⟩
    constructor
    · intro nests
      cases block_first opener body closer with
      | nest is eq =>
        rw [eq] at nests
        exact ⟨.nil, opener, body, closer, f, rfl, is, nests⟩
      | statement colon eq =>
        rw [eq] at nests
        exact behind (tail _ _ (nests_statement.mp nests))
    · intro custom colon nests
      cases block_inside opener body closer custom colon with
      | ends is eq =>
        rw [eq] at nests
        exact ⟨.nil, opener, body, closer, f, rfl, is, nests⟩
      | goesOn colon' eq =>
        rw [eq] at nests
        exact behind (tail custom colon' nests)

theorem closed_of_nests {inner o : Outline} {shut : Bool} (nests : Nests inner shut o)
    (closed : o.closed = true) : shut = true ∧ inner.closed = true := by
  cases o with
  | done | comment | flat => cases nests
  | nest =>
    obtain ⟨rfl, rfl⟩ := nests
    rw [closed_nest, Bool.and_eq_true, Bool.and_eq_true] at closed
    exact closed.1

end Outline

/-! ## Forests of their own text -/

/-- A forest of its own text can be cut behind statements that all end: each part is the forest of
its own text again. -/
theorem Forest.Whole.cut {p : Cursor} {f g : Forest} (h : (f.append g).Whole p)
    (closed : (Outline.ofForest (f.append g)).closed = true)
    (ended : (Outline.ofForest f).Ended ∨ g = .nil) :
    f.Whole p ∧ g.Whole (p.through f.text) ∧
      Outline.ofForest (f.append g) = (Outline.ofForest f).append (Outline.ofForest g) ∧
      (Outline.ofForest f).closed = true ∧ (Outline.ofForest g).closed = true := by
  rcases ended with ended | rfl
  · have split := (Outline.ofForest_append f g).1 ended
    rw [split, Outline.closed_append, Bool.and_eq_true] at closed
    have ends := (Outline.ends_of_ended (grouped_append.mp h.grouped).1
      (openLast_append h.last).1).1 ended closed.1
    exact ⟨h.front ends.shut, h.back, split, closed⟩
  · have back := h.back
    rw [append_nil] at h closed ⊢
    rw [Outline.ofForest_nil, Outline.append_nil]
    exact ⟨h, back, rfl, closed, rfl⟩

/-- In a forest of its own text, so is the body of the first statement. -/
theorem Forest.Whole.exists_body {p : Cursor} {f : Forest} (h : f.Whole p) {inner : Outline}
    (nests : Outline.Nests inner true (Outline.ofForest f)) :
    ∃ body q, Outline.ofForest body = inner ∧ body.Whole q ∧
      body.tokens.length < f.tokens.length := by
  obtain ⟨front, opener, body, closer, rest, rfl, curly, rfl, some⟩ :=
    Outline.hasBlock_of_nests.1 nests
  obtain ⟨closer, rfl⟩ := Option.isSome_iff_exists.mp some
  refine ⟨body, _, rfl, h.back.body curly, ?_⟩
  rw [tokens_append, tokens, List.length_append, List.length_cons, List.length_append]
  omega

end BemSheet.Css
