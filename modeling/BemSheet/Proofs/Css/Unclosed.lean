import BemSheet.Css.Outline
import BemSheet.Proofs.Css.Spelling

/-!
What the end of a text leaves open.

A comment that is not closed takes all the rest of a text, and so does a block. So at most one
comment is open, every open block stands at the end of the one around it, and whatever is closed
has nothing open in it: `Forest.openLast_ofTokens`, `Outline.openLast_ofForest`.
-/

namespace BemSheet.Css

/-- Whether a token ends as it should. Only a comment can fail to. -/
def Token.closed (t : Token) : Bool :=
  match t.kind with
  | .comment _ closed => closed
  | _ => true

theorem punctuation_comment {c : Char} {s body : Text} {closed : Bool}
    (h : (punctuation c s).1 = .comment body closed) :
    ∃ rest, s = '*' :: rest ∧ commentBody rest = (body, closed) ∧
      (punctuation c s).2 = '*' :: body ++ commentEnd closed := by
  unfold punctuation at h ⊢
  split at h
  case h_5 =>
    split at h
    next star =>
      obtain ⟨rest, rfl⟩ := singleton_isPrefix_of_startsWith star
      obtain ⟨rfl, rfl⟩ := Kind.comment.inj h
      exact ⟨rest, rfl, rfl, rfl⟩
    next => cases h
  case h_3 | h_4 | h_6 | h_7 | h_8 | h_9 | h_10 | h_11 => split at h <;> cases h
  all_goals cases h

theorem lexeme_comment {c : Char} {s body : Text} {closed : Bool}
    (h : (lexeme c s).1 = .comment body closed) : lexeme c s = punctuation c s := by
  have first := firstToken_lexeme c s
  generalize lexeme c s = token at first h ⊢
  cases first with
  | space | number | arrow => cases h
  | word => rcases wordToken_kind (c :: s) with kind | kind | kind <;> rw [kind] at h <;> cases h
  | punctuation => rfl

theorem lexeme_unclosed {c : Char} {s body : Text} (h : (lexeme c s).1 = .comment body false) :
    (lexeme c s).2 = s := by
  have same := lexeme_comment h
  rw [same] at h ⊢
  obtain ⟨rest, rfl, eq, text⟩ := punctuation_comment h
  have all := commentBody_unclosed (s := rest) (by rw [eq])
  rw [eq] at all
  obtain rfl : body = rest := all
  simp [text, commentEnd]

theorem tokensFrom_length (p : Cursor) (s : Text) : tokensFrom p s.length s = [] := by
  induction s generalizing p with
  | nil => rfl
  | cons c s ih => exact ih _

/-- Only the last token of a text can be left open. -/
theorem tokensFrom_closed (p : Cursor) (left : Nat) (s : Text) :
    (tokensFrom p left s).Pairwise fun t _ => t.closed = true := by
  induction s generalizing p left with
  | nil => cases left <;> exact .nil
  | cons c s ih =>
    cases left with
    | succ left => exact ih _ left
    | zero =>
      rw [tokensFrom_cons, List.pairwise_cons]
      constructor
      · intro u hu
        simp only [Token.closed]
        split
        next body closed kind =>
          cases closed with
          | true => rfl
          | false =>
            -- An open comment goes up to the end, so no token `u` comes after it.
            rw [lexeme_unclosed kind, tokensFrom_length] at hu
            cases hu
        next => rfl
      · exact ih _ _

/-! ## Forests -/

namespace Forest

/-- Whether nothing in a forest is left open. -/
def closed : Forest → Bool
  | nil => true
  | leaf token rest => token.closed && rest.closed
  | block _ body closer rest => body.closed && closer.isSome && rest.closed

/-- What is left open stands last, and nothing is left open in a block that is closed. -/
def OpenLast : Forest → Prop
  | nil => True
  | leaf token rest => (token.closed = false → rest = nil) ∧ rest.OpenLast
  | block _ body closer rest =>
    (closer = none → rest = nil) ∧ (closer.isSome = true → body.closed = true) ∧ body.OpenLast ∧
      rest.OpenLast

end Forest

namespace Continuation

/-- What is left open stands last at every level. A bracket that is left open leaves all brackets
around it open. -/
def OpenLast : {opened : List Bracket} → Continuation opened → Prop
  | [], forest => Forest.OpenLast forest
  | _ :: outer, ((forest, closer), rest) =>
    forest.OpenLast ∧ (closer = none → rest = atEnd outer) ∧
      (closer.isSome = true → forest.closed = true) ∧ OpenLast rest

theorem openLast_atEnd (opened : List Bracket) : OpenLast (atEnd opened) := by
  induction opened with
  | nil => trivial
  | cons bracket outer ih => exact ⟨trivial, fun _ => rfl, nofun, ih⟩

theorem openLast_leaf {token : Token} {opened : List Bracket} {c : Continuation opened}
    (hc : OpenLast c) (h : token.closed = false → c = atEnd opened) :
    OpenLast (change (.leaf token) c) := by
  cases opened with
  | nil => exact ⟨h, hc⟩
  | cons bracket outer =>
    obtain ⟨⟨forest, closer⟩, rest⟩ := c
    obtain ⟨last, ends, whole, after⟩ := hc
    refine ⟨⟨?_, last⟩, ends, ?_, after⟩
    · intro unclosed
      exact congrArg (·.1.1) (h unclosed)
    · intro closes
      cases shut : token.closed with
      | true => simp [Forest.closed, shut, whole closes]
      | false =>
        have open_ : closer = none := congrArg (·.1.2) (h shut)
        simp [open_] at closes

theorem openLast_block {token : Token} {body : Forest} {closer : Option Token} {bracket : Bracket}
    {opened : List Bracket} {c : Continuation opened}
    (h : @OpenLast (bracket :: opened) ((body, closer), c)) :
    OpenLast (change (.block token body closer) c) := by
  obtain ⟨inner, ends, whole, outside⟩ := h
  cases opened with
  | nil => exact ⟨ends, whole, inner, outside⟩
  | cons bracket' outer =>
    obtain ⟨⟨forest, closer'⟩, rest⟩ := c
    obtain ⟨last, ends', whole', after⟩ := outside
    refine ⟨⟨?_, whole, inner, last⟩, ends', ?_, after⟩
    · intro unclosed
      exact congrArg (·.1.1) (ends unclosed)
    · intro closes
      cases closer with
      | some t => simp [Forest.closed, whole rfl, whole' closes]
      | none =>
        have open_ : closer' = none := congrArg (·.1.2) (ends rfl)
        simp [open_] at closes

/-- No token stands behind one that is left open. -/
theorem ofTokens_of_unclosed {token : Token} {tokens : List Token}
    (h : (token :: tokens).Pairwise fun t _ => t.closed = true) (opened : List Bracket)
    (unclosed : token.closed = false) : ofTokens opened tokens = atEnd opened := by
  cases tokens with
  | nil => rw [ofTokens]
  | cons u tokens =>
    have shut := List.rel_of_pairwise_cons h List.mem_cons_self
    simp [shut] at unclosed

theorem openLast_ofTokens (opened : List Bracket) (tokens : List Token)
    (h : tokens.Pairwise fun t _ => t.closed = true) : OpenLast (ofTokens opened tokens) := by
  fun_induction ofTokens opened tokens with
  | case1 opened => exact openLast_atEnd opened
  | case2 token tokens bracket opened opens body closer rest eq ih =>
    have inner := ih (List.pairwise_cons.mp h).2
    rw [eq] at inner
    exact openLast_block inner
  | case3 token tokens bracket outer opens closes ih =>
    refine ⟨trivial, ?_, fun _ => rfl, ih (List.pairwise_cons.mp h).2⟩
    intro unclosed
    cases unclosed
  | case4 token tokens bracket outer opens closes ih | case5 token tokens opens ih =>
    exact openLast_leaf (ih (List.pairwise_cons.mp h).2) (ofTokens_of_unclosed h _)

end Continuation

theorem Forest.openLast_ofTokens {tokens : List Token}
    (h : tokens.Pairwise fun t _ => t.closed = true) : (Forest.ofTokens tokens).OpenLast :=
  Continuation.openLast_ofTokens [] tokens h

/-! ## Outlines -/

namespace Outline

/-- Whether each comment of a list is closed, in the order of the text. -/
def comments : Outline → List Bool
  | done _ => []
  | comment _ _ closed _ rest => closed :: rest.comments
  | flat _ _ _ _ rest => rest.comments
  | nest _ _ _ body _ rest => body.comments ++ rest.comments

/-- Whether the body of each statement that has one is closed, in the order of the text. -/
def bodies : Outline → List Bool
  | done _ => []
  | comment _ _ _ _ rest => rest.bodies
  | flat _ _ _ _ rest => rest.bodies
  | nest _ _ _ body closed rest => closed :: body.bodies ++ rest.bodies

/-- Whether every comment and every body is closed. -/
def closed (o : Outline) : Bool := o.comments.all id && o.bodies.all id

/-- What is left open stands last, and nothing is left open in a body that is closed. -/
def OpenLast : Outline → Prop
  | done _ => True
  | comment _ _ closed _ rest => (closed = false → rest = done []) ∧ rest.OpenLast
  | flat _ _ _ _ rest => rest.OpenLast
  | nest _ _ _ body closed rest =>
    (closed = false → rest = done []) ∧ (closed = true → body.closed = true) ∧ body.OpenLast ∧
      rest.OpenLast

@[simp] theorem comments_prepend (gap : Text) (o : Outline) :
    (o.prepend gap).comments = o.comments := by cases o <;> rfl

@[simp] theorem bodies_prepend (gap : Text) (o : Outline) :
    (o.prepend gap).bodies = o.bodies := by cases o <;> rfl

theorem closed_prepend (gap : Text) (o : Outline) : (o.prepend gap).closed = o.closed := by
  simp [closed]

theorem openLast_prepend {gap : Text} {o : Outline} (h : o.OpenLast) :
    (o.prepend gap).OpenLast := by
  cases o <;> exact h

theorem closed_nest {before : Text} {header : Header} {start : Location} {body : Outline}
    {shut : Bool} {rest : Outline} :
    (nest before header start body shut rest).closed = (shut && body.closed && rest.closed) := by
  simp only [closed, comments, bodies, List.all_append, List.all_cons, id, List.cons_append]
  cases shut <;> cases body.comments.all id <;> cases rest.comments.all id <;> simp

theorem closed_comment {before text : Text} {shut : Bool} {start : Location} {rest : Outline} :
    (comment before text shut start rest).closed = (shut && rest.closed) := by
  simp [closed, comments, bodies, Bool.and_assoc]

/-- Where nothing is left open in a forest, nothing is in its statements. -/
theorem closed_ofForest {f : Forest} (h : f.closed = true) :
    (ofForest f).closed = true ∧ ∀ custom colon header start,
      (statement header start (finish custom colon f).2).closed = true := by
  induction f with
  | nil =>
    constructor
    · rw [ofForest]
      rfl
    · intro custom colon header start
      rw [finish]
      rfl
  | leaf token rest ih =>
    obtain ⟨shut, h⟩ := Bool.and_eq_true_iff.mp h
    obtain ⟨list, tail⟩ := ih h
    constructor
    · rw [ofForest]
      split
      · rw [closed_prepend, list]
      · rw [closed_prepend, list]
      next body closed kind =>
        simp only [Token.closed, kind] at shut
        rw [closed_comment, shut, list]
        rfl
      next => exact tail _ _ _ _
    · intro custom colon header start
      rw [finish]
      split
      · exact list
      · exact tail _ _ _ _
  | block opener body closer rest inner ih =>
    obtain ⟨h, after⟩ := Bool.and_eq_true_iff.mp h
    obtain ⟨within, shut⟩ := Bool.and_eq_true_iff.mp h
    obtain ⟨list, tail⟩ := ih after
    have nested (before header start) :
        (nest before header start (ofForest body) closer.isSome (ofForest rest)).closed = true := by
      rw [closed_nest, shut, (inner within).1, list]
      rfl
    constructor
    · rw [ofForest]
      split
      · exact nested _ _ _
      · exact tail _ _ _ _
    · intro custom colon header start
      rw [finish]
      split
      · exact nested _ _ _
      · exact tail _ _ _ _

theorem openLast_ofForest {f : Forest} (h : f.OpenLast) :
    (ofForest f).OpenLast ∧ ∀ custom colon header start,
      (statement header start (finish custom colon f).2).OpenLast := by
  induction f with
  | nil =>
    constructor
    · rw [ofForest]
      trivial
    · intro custom colon header start
      rw [finish]
      trivial
  | leaf token rest ih =>
    obtain ⟨last, h⟩ := h
    obtain ⟨list, tail⟩ := ih h
    constructor
    · rw [ofForest]
      split
      · exact openLast_prepend list
      · exact openLast_prepend list
      next body closed kind =>
        refine ⟨?_, list⟩
        intro unclosed
        have open_ : token.closed = false := by rw [Token.closed, kind, unclosed]
        rw [last open_, ofForest]
      next => exact tail _ _ _ _
    · intro custom colon header start
      rw [finish]
      split
      · exact list
      · exact tail _ _ _ _
  | block opener body closer rest inner ih =>
    obtain ⟨ends, whole, within, after⟩ := h
    obtain ⟨list, tail⟩ := ih after
    have nested (before header start) :
        (nest before header start (ofForest body) closer.isSome (ofForest rest)).OpenLast := by
      refine ⟨?_, ?_, (inner within).1, list⟩
      · intro unclosed
        rw [ends (by simpa using unclosed), ofForest]
      · intro shut
        exact (closed_ofForest (whole shut)).1
    constructor
    · rw [ofForest]
      split
      · exact nested _ _ _
      · exact tail _ _ _ _
    · intro custom colon header start
      rw [finish]
      split
      · exact nested _ _ _
      · exact tail _ _ _ _

end Outline

theorem openLast_outline (s : Text) : (outline s).OpenLast :=
  (Outline.openLast_ofForest (Forest.openLast_ofTokens (tokensFrom_closed _ 0 s))).1

end BemSheet.Css
