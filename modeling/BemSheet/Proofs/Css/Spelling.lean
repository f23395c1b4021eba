import BemSheet.Css.Outline

/-!
How tokens, forests and outlines are written.

* `tokens_spelled`: the kind of a token fixes how it is written, wherever it matters for statements.
* `Forest.spelled_ofTokens`: in a forest, what closes a block is the bracket that its opener calls
  for.
* `text_outline`: the statements of a text, put together again, are that text.
-/

namespace BemSheet.Css

/-- The character that opens a bracket. -/
def Bracket.left : Bracket → Char
  | round => '('
  | square => '['
  | curly => '{'

/-- The character that closes a bracket. -/
def Bracket.right : Bracket → Char
  | round => ')'
  | square => ']'
  | curly => '}'

/-- The end of a comment, which is there if the comment is closed. -/
def commentEnd (closed : Bool) : Text := if closed then ['*', '/'] else []

/-- How a token of this kind is written. Kinds that may be written in several ways say nothing. -/
def Kind.Spells : Kind → Text → Prop
  | space, s => ∃ c, isSpace c = true ∧ s = [c]
  | comment body closed, s =>
    s = '/' :: '*' :: body ++ commentEnd closed ∧ ¬ ['*', '/'] <:+: body
  | atKeyword, s => ∃ name, s = '@' :: name
  | colon, s => s = [':']
  | semicolon, s => s = [';']
  | opener bracket, s => s = [bracket.left]
  | closer bracket, s => s = [bracket.right]
  | _, _ => True

/-- A token that is written as its kind says, and that is white space if it starts with it. -/
structure Token.Spelled (t : Token) : Prop where
  spells : t.kind.Spells t.text
  nonempty : t.text ≠ []
  space_of_startsWith : startsWith isSpace t.text = true → t.kind = .space

/-! ## Comments -/

theorem startsWith_of_isPrefix {test : Char → Bool} {piece s : Text} (h : piece <+: s)
    (starts : startsWith test piece = true) : startsWith test s = true := by
  cases piece with
  | nil => cases starts
  | cons c piece =>
    obtain ⟨rest, rfl⟩ := h
    exact starts

theorem startsWith_isPrefix_false {test : Char → Bool} {piece s : Text} (h : piece <+: s)
    (none : startsWith test s = false) : startsWith test piece = false := by
  rw [Bool.eq_false_iff] at none ⊢
  intro starts
  exact none (startsWith_of_isPrefix h starts)

theorem startsWith_beq {c : Char} {s : Text} (h : [c] <+: s) : startsWith (· == c) s = true :=
  startsWith_of_isPrefix h (beq_self_eq_true c)

/-- The body of a comment goes up to the first end, so it holds none. -/
theorem commentBody_no_end (s : Text) : ¬ ['*', '/'] <:+: (commentBody s).1 := by
  induction s with
  | nil => simp [commentBody]
  | cons c s ih =>
    simp only [commentBody]
    by_cases ends : (decide (c = '*') && startsWith (· == '/') s) = true
    · simp [ends]
    · rw [if_neg ends]
      intro inside
      rcases List.infix_cons_iff.mp inside with ahead | inside
      · obtain ⟨rfl, slash⟩ := List.cons_prefix_cons.mp ahead
        have body : (commentBody s).1 <+: s :=
          (List.prefix_append _ _).trans (commentBody_isPrefix s)
        have starts := startsWith_beq (slash.trans body)
        simp [starts] at ends
      · exact ih inside

/-- A comment that is not closed takes all there is. -/
theorem commentBody_unclosed {s : Text} (h : (commentBody s).2 = false) :
    (commentBody s).1 = s := by
  induction s with
  | nil => rfl
  | cons c s ih =>
    simp only [commentBody] at h ⊢
    by_cases ends : (decide (c = '*') && startsWith (· == '/') s) = true
    · simp [ends] at h
    · rw [if_neg ends] at h ⊢
      simp only [ih h]

/-! ## Tokens -/

theorem punctuation_spells (c : Char) (s : Text) :
    (punctuation c s).1.Spells (c :: (punctuation c s).2) := by
  unfold punctuation
  split
  case h_5 =>
    split
    next star =>
      obtain ⟨rest, rfl⟩ := singleton_isPrefix_of_startsWith star
      exact ⟨rfl, commentBody_no_end rest⟩
    next => trivial
  case h_4 =>
    split
    · exact ⟨name s, rfl⟩
    · trivial
  case h_3 | h_6 | h_7 | h_8 | h_9 | h_10 | h_11 => split <;> trivial
  all_goals trivial

theorem wordToken_kind (s : Text) :
    (wordToken s).1 = .ident ∨ (wordToken s).1 = .function ∨ (wordToken s).1 = .url := by
  simp only [wordToken]
  split
  · split
    · split <;> simp
    · simp
  · simp

theorem wordToken_spells (s text : Text) : (wordToken s).1.Spells text := by
  rcases wordToken_kind s with h | h | h <;> rw [h] <;> trivial

/-- The ways of reading the first token of `c :: s`, each with what it takes to be read so. -/
inductive FirstToken (c : Char) (s : Text) : Kind × Text → Prop
  | space (h : isSpace c = true) : FirstToken c s (.space, [])
  | number (h : startsNumber c s = true) : FirstToken c s (.number, numberTail c s)
  | arrow (h : c = '-') : FirstToken c s (.commentClose, ['-', '>'])
  | word (h : startsIdent (c :: s) = true) :
    FirstToken c s ((wordToken (c :: s)).1, (wordToken (c :: s)).2.tail)
  | punctuation : FirstToken c s (punctuation c s)

theorem firstToken_lexeme (c : Char) (s : Text) : FirstToken c s (lexeme c s) := by
  unfold lexeme
  by_cases space : isSpace c = true
  · rw [if_pos space]
    exact .space space
  by_cases number : startsNumber c s = true
  · rw [if_neg space, if_pos number]
    exact .number number
  rw [if_neg space, if_neg number]
  split
  next arrow =>
    rw [Bool.and_eq_true, decide_eq_true_eq] at arrow
    exact .arrow arrow.1
  next =>
    by_cases ident : startsIdent (c :: s) = true
    · rw [if_pos ident]
      exact .word ident
    · rw [if_neg ident]
      exact .punctuation

theorem lexeme_spells (c : Char) (s : Text) : (lexeme c s).1.Spells (c :: (lexeme c s).2) := by
  have first := firstToken_lexeme c s
  generalize lexeme c s = token at first ⊢
  cases first with
  | space space => exact ⟨c, space, rfl⟩
  | number => trivial
  | arrow => trivial
  | word => exact wordToken_spells (c :: s) _
  | punctuation => exact punctuation_spells c s

theorem lexeme_of_isSpace {c : Char} (h : isSpace c = true) (s : Text) :
    lexeme c s = (.space, []) := by
  rw [lexeme, if_pos h]

theorem lexeme_spelled (c : Char) (s : Text) (start : Location) :
    Token.Spelled ⟨(lexeme c s).1, c :: (lexeme c s).2, start⟩ where
  spells := lexeme_spells c s
  nonempty := List.cons_ne_nil _ _
  space_of_startsWith h := by rw [lexeme_of_isSpace h]

theorem tokensFrom_cons (p : Cursor) (c : Char) (s : Text) :
    tokensFrom p 0 (c :: s) = ⟨(lexeme c s).1, c :: (lexeme c s).2, p.location⟩ ::
      tokensFrom (p.step c) (lexeme c s).2.length s := rfl

theorem tokensFrom_spelled (p : Cursor) (left : Nat) (s : Text) :
    ∀ t ∈ tokensFrom p left s, t.Spelled := by
  induction s generalizing p left with
  | nil => cases left <;> simp [tokensFrom]
  | cons c s ih =>
    cases left with
    | succ left => exact ih _ left
    | zero =>
      rw [tokensFrom_cons]
      exact List.forall_mem_cons.mpr ⟨lexeme_spelled c s _, ih _ _⟩

theorem tokens_spelled (s : Text) : ∀ t ∈ tokens s, t.Spelled := tokensFrom_spelled _ 0 s

/-! ## Forests -/

namespace Forest

/-- A forest of tokens that are spelled, in which every block ends with the bracket of its own
kind. -/
def Spelled : Forest → Prop
  | nil => True
  | leaf token rest => token.Spelled ∧ rest.Spelled
  | block opener body closer rest =>
    opener.Spelled ∧ (∃ bracket, opener.opens? = some bracket ∧
      ∀ t ∈ closer, t.text = [bracket.right]) ∧ body.Spelled ∧ rest.Spelled

end Forest

namespace Continuation

def Spelled : {opened : List Bracket} → Continuation opened → Prop
  | [], forest => Forest.Spelled forest
  | bracket :: _, ((forest, closer), outer) =>
    forest.Spelled ∧ (∀ t ∈ closer, t.text = [bracket.right]) ∧ Spelled outer

theorem spelled_atEnd (opened : List Bracket) : Spelled (atEnd opened) := by
  induction opened with
  | nil => trivial
  | cons bracket outer ih => exact ⟨trivial, nofun, ih⟩

theorem spelled_change {g : Forest → Forest} (h : ∀ f : Forest, f.Spelled → (g f).Spelled)
    {opened : List Bracket} {c : Continuation opened} (hc : Spelled c) : Spelled (change g c) := by
  cases opened with
  | nil => exact h c hc
  | cons bracket outer =>
    obtain ⟨⟨forest, closer⟩, rest⟩ := c
    exact ⟨h forest hc.1, hc.2⟩

theorem spelled_ofTokens (opened : List Bracket) (tokens : List Token)
    (h : ∀ t ∈ tokens, t.Spelled) : Spelled (ofTokens opened tokens) := by
  fun_induction ofTokens opened tokens with
  | case1 opened => exact spelled_atEnd opened
  | case2 token tokens bracket opened opens body closer rest eq ih =>
    obtain ⟨first, others⟩ := List.forall_mem_cons.mp h
    have inner := ih others
    rw [eq] at inner
    obtain ⟨within, ends, outside⟩ := inner
    apply spelled_change _ outside
    intro f hf
    exact ⟨first, ⟨bracket, opens, ends⟩, within, hf⟩
  | case3 token tokens bracket outer opens closes ih =>
    obtain ⟨first, others⟩ := List.forall_mem_cons.mp h
    refine ⟨trivial, ?_, ih others⟩
    intro t ht
    obtain rfl := Option.mem_some.mp ht
    have spells := first.spells
    rwa [closes] at spells
  | case4 token tokens bracket outer opens closes ih | case5 token tokens opens ih =>
    obtain ⟨first, others⟩ := List.forall_mem_cons.mp h
    apply spelled_change (g := .leaf token) _ (ih others)
    intro f hf
    exact ⟨first, hf⟩

end Continuation

theorem Forest.spelled_ofTokens {tokens : List Token} (h : ∀ t ∈ tokens, t.Spelled) :
    (Forest.ofTokens tokens).Spelled :=
  Continuation.spelled_ofTokens [] tokens h

/-! ## Outlines -/

theorem Header.text_of {first : Token} (h : first.Spelled) (rest : Text) :
    (Header.of first rest).text = first.text ++ rest := by
  rw [Header.of]
  by_cases keyword : first.kind = .atKeyword
  · have spells := h.spells
    rw [keyword] at spells
    obtain ⟨name, eq⟩ := spells
    simp [keyword, Header.text, eq]
  · rw [if_neg keyword]
    rfl

/-- The end of a body, which is there if the body is closed. -/
def bodyEnd (closed : Bool) : Text := if closed then ['}'] else []

theorem Forest.blockText_curly {opener : Token} {body : Forest} {closer : Option Token}
    (curly : opener.kind = .opener .curly) (spelled : (block opener body closer nil).Spelled) :
    opener.text = ['{'] ∧
      blockText opener body closer = '{' :: body.text ++ bodyEnd closer.isSome := by
  obtain ⟨first, ⟨bracket, opens, closes⟩, -, -⟩ := spelled
  have spells := first.spells
  rw [curly] at spells
  have left : opener.text = ['{'] := spells
  rw [Token.opens?, curly] at opens
  obtain rfl := Option.some.inj opens
  have right : Forest.closerText closer = bodyEnd closer.isSome := by
    cases closer with
    | none => rfl
    | some t => exact closes t rfl
  exact ⟨left, by rw [blockText, left, right, List.singleton_append]⟩

namespace Outline

/-- The text of a list of statements. `ends` tells of a comment or a body, by whether it is closed,
whether its end is written. -/
def textBy (ends : Bool → Bool) : Outline → Text
  | done after => after
  | comment before body closed _ rest =>
    before ++ '/' :: '*' :: body ++ commentEnd (ends closed) ++ rest.textBy ends
  | flat before header _ semicolon rest =>
    before ++ header.text ++ (if semicolon then [';'] else []) ++ rest.textBy ends
  | nest before header _ body closed rest =>
    before ++ header.text ++ '{' :: body.textBy ends ++ bodyEnd (ends closed) ++ rest.textBy ends

/-- The text that a list of statements was read from. -/
def text (o : Outline) : Text := o.textBy id

theorem text_prepend (gap : Text) (o : Outline) : (o.prepend gap).text = gap ++ o.text := by
  cases o <;> simp [prepend, text, textBy]

theorem text_nest {opener : Token} {body : Forest} {closer : Option Token} {header : Header}
    {start : Location} {before : Text} {inner rest : Outline} (curly : opener.kind = .opener .curly)
    (spelled : (Forest.block opener body closer .nil).Spelled) (within : inner.text = body.text) :
    (nest before header start inner closer.isSome rest).text =
      before ++ header.text ++ Forest.blockText opener body closer ++ rest.text := by
  rw [(Forest.blockText_curly curly spelled).2]
  rw [text] at within ⊢
  simp [textBy, within, text]

theorem text_ofForest {f : Forest} (h : f.Spelled) :
    (ofForest f).text = f.text ∧ ∀ custom colon header start ahead,
      header.text = ahead ++ (finish custom colon f).1 →
        (statement header start (finish custom colon f).2).text = ahead ++ f.text := by
  induction f with
  | nil =>
    constructor
    · rw [ofForest]
      rfl
    · intro custom colon header start ahead eq
      rw [finish] at eq ⊢
      simp [statement, text, textBy, eq, Forest.text]
  | leaf token rest ih =>
    obtain ⟨first, h⟩ := h
    obtain ⟨list, tail⟩ := ih h
    have spells := first.spells
    constructor
    · rw [ofForest]
      split
      next => rw [text_prepend, list, Forest.text]
      next => rw [text_prepend, list, Forest.text]
      next body closed kind =>
        rw [kind] at spells
        rw [text] at list ⊢
        simp [textBy, list, Forest.text, spells.1]
      next =>
        rw [tail _ _ _ _ token.text (Header.text_of first _), Forest.text]
    · intro custom colon header start ahead eq
      rw [finish] at eq ⊢
      by_cases semicolon : token.kind = .semicolon
      · rw [if_pos semicolon] at eq
        rw [semicolon] at spells
        rw [text] at list
        have single : token.text = [';'] := spells
        simp [semicolon, statement, text, textBy, eq, list, Forest.text, single]
      · rw [if_neg semicolon] at eq ⊢
        rw [Forest.text, ← List.append_assoc]
        apply tail
        rw [eq, List.append_assoc]
  | block opener body closer rest inner ih =>
    obtain ⟨first, closes, within, after⟩ := h
    obtain ⟨list, tail⟩ := ih after
    have single : (Forest.block opener body closer .nil).Spelled := ⟨first, closes, within, trivial⟩
    constructor
    · rw [ofForest]
      by_cases curly : opener.kind = .opener .curly
      · rw [if_pos curly, text_nest curly single (inner within).1, list]
        simp [Header.text, Forest.text, Forest.blockText]
      · rw [if_neg curly, tail _ _ _ _ (Forest.blockText opener body closer) rfl]
        simp [Forest.text, Forest.blockText]
    · intro custom colon header start ahead eq
      rw [finish] at eq ⊢
      by_cases curly : (decide (opener.kind = .opener .curly) && !(custom && colon)) = true
      · rw [if_pos curly] at eq ⊢
        simp only [Bool.and_eq_true, decide_eq_true_eq] at curly
        rw [statement, text_nest curly.1 single (inner within).1, list, eq]
        simp [Forest.text, Forest.blockText]
      · rw [if_neg curly] at eq ⊢
        rw [← List.append_assoc] at eq
        rw [tail _ _ _ _ _ eq]
        simp [Forest.text, Forest.blockText]

end Outline

/-- The statements of a text, put together again, are that text. -/
theorem text_outline (s : Text) : (outline s).text = s := by
  have spelled := Forest.spelled_ofTokens (tokens_spelled s)
  calc (outline s).text
    _ = (Forest.ofTokens (tokens s)).text := (Outline.text_ofForest spelled).1
    _ = (tokens s).flatMap Token.text := Forest.text_ofTokens _
    _ = s := text_tokens s

end BemSheet.Css
