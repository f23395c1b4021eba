import BemSheet.Proofs.Css.Regrouping
import BemSheet.Proofs.Css.Succession

/-!
Tokens and statements know where they stand.

The place of a token is where the cursor comes to after the text in front of it
(`tokensFrom_placed`), and a statement or comment has the place of its first token. So places can be
counted along the statements of a text, through everything written in front of them
(`placed_outline`).
-/

namespace BemSheet.Css

/-! ## Tokens -/

/-- Tokens with their places, the first of which stands at `p`. -/
def Placed (p : Cursor) : List Token → Prop
  | [] => True
  | t :: tokens => t.start = p.location ∧ Placed (p.through t.text) tokens

theorem placed_append {p : Cursor} {ts us : List Token} :
    Placed p (ts ++ us) ↔ Placed p ts ∧ Placed (p.through (textOf ts)) us := by
  induction ts generalizing p with
  | nil => simp [Placed, textOf, Cursor.through]
  | cons t ts ih =>
    have text : textOf (t :: ts) = t.text ++ textOf ts := rfl
    rw [List.cons_append, Placed, Placed, ih, text, Cursor.through_append, and_assoc]

theorem tokensFrom_placed (p : Cursor) (left : Nat) (s : Text) :
    Placed (p.through (s.take left)) (tokensFrom p left s) := by
  induction s generalizing p left with
  | nil => cases left <;> trivial
  | cons c s ih =>
    cases left with
    | succ left => exact ih (p.step c) left
    | zero =>
      rw [tokensFrom_cons]
      have others := ih (p.step c) (lexeme c s).2.length
      rw [← List.prefix_iff_eq_take.mp (lexeme_isPrefix c s)] at others
      exact ⟨rfl, others⟩

/-- The tokens of a block and of what follows it. -/
theorem placed_block {p : Cursor} {opener : Token} {body : Forest} {closer : Option Token}
    {rest : Forest} (h : Placed p (Forest.block opener body closer rest).tokens) :
    opener.start = p.location ∧ Placed (p.through opener.text) body.tokens ∧
      Placed (p.through (Forest.blockText opener body closer)) rest.tokens := by
  obtain ⟨first, others⟩ := h
  obtain ⟨within, others⟩ := placed_append.mp others
  obtain ⟨-, behind⟩ := placed_append.mp others
  refine ⟨first, within, ?_⟩
  have closing : textOf closer.toList = Forest.closerText closer := by
    cases closer <;> simp [textOf, Forest.closerText]
  rwa [Forest.textOf_tokens, closing, ← Cursor.through_append, ← Cursor.through_append,
    ← List.append_assoc] at behind

/-! ## Statements -/

namespace Outline

/-- Each statement and comment has the place that `p` comes to after the text before it. -/
def Placed : (p : Cursor) → Outline → Prop
  | _, done _ => True
  | p, comment before body closed start rest =>
    start = (p.through before).location ∧
      rest.Placed (p.through (before ++ '/' :: '*' :: body ++ commentEnd closed))
  | p, flat before header start semicolon rest =>
    start = (p.through before).location ∧
      rest.Placed (p.through (before ++ header.text ++ if semicolon then [';'] else []))
  | p, nest before header start body closed rest =>
    start = (p.through before).location ∧
      body.Placed (p.through (before ++ header.text ++ ['{'])) ∧
      rest.Placed (p.through (before ++ header.text ++ '{' :: body.text ++ bodyEnd closed))

theorem placed_prepend {gap : Text} {p : Cursor} {o : Outline} (h : o.Placed (p.through gap)) :
    (o.prepend gap).Placed p := by
  cases o with
  | done after => trivial
  | comment | flat | nest => simpa [prepend, Placed] using h

theorem placed_nest {p : Cursor} {opener : Token} {body : Forest} {closer : Option Token}
    (curly : opener.kind = .opener .curly)
    (spelled : (Forest.block opener body closer .nil).Spelled) {header : Header} {ahead : Text}
    (text : header.text = ahead) {inner rest : Outline} (within : inner.text = body.text)
    (h : inner.Placed ((p.through ahead).through opener.text))
    (h' : rest.Placed ((p.through ahead).through (Forest.blockText opener body closer))) :
    (nest [] header p.location inner closer.isSome rest).Placed p := by
  obtain ⟨left, whole⟩ := Forest.blockText_curly curly spelled
  subst text
  rw [left] at h
  rw [whole, ← within] at h'
  exact ⟨rfl, by simpa using h, by simpa using h'⟩

/-- Statements stand where their tokens do. A statement that has begun at `q` goes on behind the
text `ahead`. -/
theorem placed_ofForest {f : Forest} (spelled : f.Spelled) {p : Cursor}
    (placed : Css.Placed p f.tokens) :
    (ofForest f).Placed p ∧ ∀ custom colon header q ahead,
      header.text = ahead ++ (finish custom colon f).1 → q.through ahead = p →
        (statement header q.location (finish custom colon f).2).Placed q := by
  -- Inside a statement its place is behind, so `q` and `ahead` stay open in the induction.
  induction f generalizing p with
  | nil =>
    constructor
    · rw [ofForest]
      trivial
    · intro custom colon header q ahead _ _
      rw [finish]
      exact ⟨rfl, trivial⟩
  | leaf token rest ih =>
    obtain ⟨first, spelled⟩ := spelled
    obtain ⟨start, placed⟩ := placed
    obtain ⟨list, tail⟩ := ih spelled placed
    have spells := first.spells
    constructor
    · cases leaf_first token with
      | gap _ eq =>
        rw [eq]
        exact placed_prepend list
      | comment body closed is eq =>
        rw [is] at spells
        rw [spells.1] at list
        rw [eq]
        exact ⟨start, list⟩
      | statement eq =>
        rw [eq, start]
        exact tail _ _ _ p token.text (Header.text_of first _) rfl
    · intro custom colon header q ahead text behind
      cases leaf_inside custom colon token with
      | ends is eq =>
        rw [eq] at text ⊢
        rw [is] at spells
        have single : token.text = [';'] := spells
        rw [single, ← behind] at list
        rw [List.append_nil] at text
        exact ⟨rfl, by simpa [text] using list⟩
      | goesOn colon' eq =>
        rw [eq] at text ⊢
        refine tail custom colon' header q (ahead ++ token.text) ?_ ?_
        · rw [text, List.append_assoc]
        · rw [Cursor.through_append, behind]
  | block opener body closer rest inner ih =>
    obtain ⟨first, closes, within, after⟩ := spelled
    obtain ⟨start, inside, behind⟩ := placed_block placed
    obtain ⟨list, tail⟩ := ih after behind
    have single : (Forest.block opener body closer .nil).Spelled := ⟨first, closes, within, trivial⟩
    have beneath := (inner within inside).1
    constructor
    · cases block_first opener body closer with
      | nest is eq =>
        rw [eq, start]
        exact placed_nest is single rfl (text_ofForest within).1 beneath list
      | statement colon eq =>
        rw [eq, start]
        exact tail _ _ _ p (Forest.blockText opener body closer) rfl rfl
    · intro custom colon header q ahead text at_
      cases block_inside opener body closer custom colon with
      | ends is eq =>
        rw [eq] at text ⊢
        rw [← at_] at beneath list
        rw [List.append_nil] at text
        exact placed_nest is single text (text_ofForest within).1 beneath list
      | goesOn colon' eq =>
        rw [eq] at text ⊢
        refine tail custom colon' header q (ahead ++ Forest.blockText opener body closer) ?_ ?_
        · rw [text, List.append_assoc]
        · rw [Cursor.through_append, at_]

end Outline

/-- Every statement and comment of a text stands behind the text in front of it. -/
theorem placed_outline (s : Text) : (outline s).Placed .start := by
  have placed := tokensFrom_placed .start 0 s
  have spelled := Forest.spelled_ofTokens (tokens_spelled s)
  refine (Outline.placed_ofForest spelled ?_).1
  rw [Forest.tokens_ofTokens]
  exact placed

end BemSheet.Css
