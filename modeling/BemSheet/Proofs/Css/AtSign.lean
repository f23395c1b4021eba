import BemSheet.Proofs.Css.Around
import BemSheet.Proofs.Css.Placement
import BemSheet.Proofs.Css.Places
import BemSheet.Proofs.Location

/-!
At-rules without their `@`.

Without its sign, the name of an at-rule is an identifier, or it names a function if a parenthesis
follows it at once. Either way it starts a statement with the same text, body and end.

* `tokensFrom_word`: how the name is read without the sign.
* `outline_without_at`: so the statements of a text are the same without the sign, but for the
  header of that one statement and for their places.
-/

namespace BemSheet.Css

/-! ## Words -/

/-- A name that starts with a letter, and that stands neither for an address nor for a custom
property. -/
structure Word (word : Text) : Prop where
  letter : startsWith Char.isAlpha word = true
  no_url : saysUrl word = false
  no_custom : ['-', '-'].isPrefixOf (nameValue 0 word) = false

theorem not_isDigit_of_isAlpha {c : Char} (letter : c.isAlpha = true) : c.isDigit = false := by
  cases digit : c.isDigit with
  | false => rfl
  | true =>
    have small : c.val ≤ '9'.val := of_decide_eq_true (Bool.and_eq_true_iff.mp digit).2
    have above : 'A'.val ≤ c.val := by
      rcases Bool.or_eq_true_iff.mp letter with upper | lower
      · exact (of_decide_eq_true upper).1
      · have low : 'A'.val ≤ 'a'.val := by decide
        exact UInt32.le_trans low (of_decide_eq_true (Bool.and_eq_true_iff.mp lower).1)
    exact absurd (UInt32.le_trans above small) (by decide)

theorem lexeme_letter {c : Char} (letter : c.isAlpha = true) (s : Text) :
    lexeme c s = ((wordToken (c :: s)).1, (wordToken (c :: s)).2.tail) := by
  have other {d : Char} (h : d.isAlpha = false) : c ≠ d := by
    rintro rfl
    cases letter.symm.trans h
  have space : isSpace c = false := by
    simp [isSpace, isNewline, other]
  have number : startsNumber c s = false := by
    have fraction : startsFraction (c :: s) = false := by
      unfold startsFraction
      split
      next eq => exact absurd (List.cons.inj eq).1 (other rfl)
      next => rfl
    rw [startsNumber, fraction]
    simp [isSign, other, not_isDigit_of_isAlpha letter]
  have ident : startsIdent (c :: s) = true := by
    rw [startsIdent, if_neg (other rfl), if_neg (other rfl)]
    simp [isNameStart, letter]
  simp [lexeme, space, number, ident, other]

theorem tokensFrom_of_lexeme {c : Char} {tail rest : Text} {kind : Kind}
    (lex : lexeme c (tail ++ rest) = (kind, tail)) (p : Cursor) :
    tokensFrom p 0 (c :: (tail ++ rest)) =
      ⟨kind, c :: tail, p.location⟩ :: tokensFrom (p.through (c :: tail)) 0 rest := by
  have behind : Text.after tail (tail ++ rest) = rest := List.drop_left
  rw [tokensFrom_piece, lex, behind]

/-- A word by itself is an identifier, and with a parenthesis behind it names a function. -/
theorem tokensFrom_word {word : Text} (h : Word word) {rest : Text}
    (whole : name (word ++ rest) = word) (p : Cursor) :
    (startsWith (· == '(') rest = false → tokensFrom p 0 (word ++ rest) =
      ⟨.ident, word, p.location⟩ :: tokensFrom (p.through word) 0 rest) ∧
    ∀ inner, rest = '(' :: inner → tokensFrom p 0 (word ++ rest) =
      ⟨.function, word ++ ['('], p.location⟩ :: tokensFrom (p.through (word ++ ['('])) 0 inner := by
  have behind : Text.after word (word ++ rest) = rest := List.drop_left
  cases word with
  | nil => cases h.letter
  | cons c word =>
    have lex := lexeme_letter h.letter (word ++ rest)
    rw [← List.cons_append] at lex
    constructor
    · intro other
      have kind : wordToken (c :: word ++ rest) = (.ident, c :: word) := by
        rw [wordToken_ident (by rw [whole, behind, other]), whole]
      rw [kind] at lex
      exact tokensFrom_of_lexeme lex p
    · rintro inner rfl
      have kind : wordToken (c :: word ++ '(' :: inner) = (.function, c :: word ++ ['(']) := by
        rw [wordToken_call (by rw [whole, behind]), whole, h.no_url]
        rfl
      rw [kind, List.append_cons word] at lex
      rw [List.cons_append, List.append_cons word]
      exact tokensFrom_of_lexeme lex p

/-! ## Headers -/

/-- A header without the sign of its name, if that is one of these and the text behind it follows
at once. -/
def Header.unsigned (names : Text → Bool) : Header → Header
  | keyword name rest =>
    if names name && rest.leading.isEmpty then plain (name ++ rest) else keyword name rest
  | plain text => plain text

namespace Forest

/-- A statement that starts with a word, in the place of one that starts with an at-keyword at
`start`. A parenthesis behind a word belongs to it. -/
def ofWord (word : Text) (start : Location) : Forest → Forest
  | block opener body closer rest =>
    if opener.kind = .opener .round then
      block ⟨.function, word ++ opener.text, start⟩ body closer rest
    else leaf ⟨.ident, word, start⟩ (block opener body closer rest)
  | rest => leaf ⟨.ident, word, start⟩ rest

theorem takes_ofWord (word : Text) {t : Token} (is : t.kind = .atKeyword) (rest : Forest) :
    Takes (leaf t rest) (ofWord word t.start rest) := by
  have whole : t.closed = true := by rw [Token.closed, is]
  have alone : Takes (leaf t rest) (leaf ⟨.ident, word, t.start⟩ rest) := by
    refine ⟨by simp, ?_, fun within grouped => ⟨rfl, by simp, grouped.2.2⟩, fun last => ?_⟩
    · rw [closed, closed, whole]
      rfl
    · refine ⟨?_, last.2⟩
      intro unclosed
      cases unclosed
  cases rest with
  | nil | leaf => exact alone
  | block opener body closer rest =>
    rw [ofWord]
    split
    next round =>
      refine ⟨by simp, ?_, fun within grouped => ?_, fun last => last.2⟩
      · rw [closed, closed, closed, whole, Bool.true_and]
      · obtain ⟨⟨b, opens, inside, closes⟩, outside⟩ := grouped.2.2
        rw [Token.opens?, round] at opens
        obtain rfl := Option.some.inj opens
        exact ⟨⟨.round, rfl, inside, closes⟩, outside⟩
    next => exact alone

end Forest

namespace Outline

section

variable {names : Text → Bool} {word rest : Text} {t : Token} {f : Forest} {body others : Outline}
  {closed : Bool}

/-- Behind a word, a statement goes on as it does behind the at-keyword. -/
theorem ofForest_ofWord (is : Word word) (text : t.text = '@' :: word)
    (nests : finish false t.hasColon f = (rest, .nest body closed others)) :
    ofForest (.ofWord word t.start f) =
      .nest [] (.plain (word ++ rest)) t.start body closed others := by
  have colon : t.hasColon = word.contains ':' := by
    rw [Token.hasColon, text]
    simp
  have alone : ofForest (.leaf ⟨.ident, word, t.start⟩ f) =
      .nest [] (.plain (word ++ rest)) t.start body closed others := by
    have custom : Token.isCustomName ⟨.ident, word, t.start⟩ = false := is.no_custom
    have same : Token.hasColon ⟨.ident, word, t.start⟩ = t.hasColon := colon.symm
    rw [ofForest_leaf (by simp) (by simp) (by simp), custom, same, nests]
    rfl
  cases f with
  | nil | leaf => exact alone
  | block opener inner closer f =>
    rw [Forest.ofWord]
    split
    next round =>
      have flat : ¬ opener.kind = .opener .curly := by simp [round]
      let within := Forest.blockText opener inner closer
      have first : Forest.blockText ⟨.function, word ++ opener.text, t.start⟩ inner closer =
          word ++ within := by
        simp [Forest.blockText, within]
      have goesOn : finish false t.hasColon (.block opener inner closer f) =
          (within ++ (finish false ((word ++ within).contains ':') f).1,
            (finish false ((word ++ within).contains ':') f).2) := by
        rw [finish, colon, List.contains_append]
        simp [flat, within]
      have own : ofForest (.block ⟨.function, word ++ opener.text, t.start⟩ inner closer f) =
          statement (.plain (word ++ within ++ (finish false ((word ++ within).contains ':') f).1))
            t.start (finish false ((word ++ within).contains ':') f).2 := by
        rw [ofForest, if_neg (by simp)]
        simp only [first]
      rw [goesOn] at nests
      obtain ⟨rfl, ending⟩ := Prod.mk.inj nests
      rw [own, ending, List.append_assoc]
      rfl
    next => exact alone

/-- So the statement is the same without the sign, but for its header. -/
theorem mapHeaders_ofWord {names : Text → Bool} (is : Word word) (named : names word = true)
    (keyword : t.kind = .atKeyword) (text : t.text = '@' :: word)
    (nests : finish false t.hasColon f = (rest, .nest body closed others))
    (apart : rest.leading = []) : (ofForest (.ofWord word t.start f)).mapHeaders (.unsigned names) =
      (ofForest (.leaf t f)).mapHeaders (.unsigned names) := by
  have custom : t.isCustomName = false := by simp [Token.isCustomName, keyword]
  have own : ofForest (.leaf t f) = .nest [] (.keyword word rest) t.start body closed others := by
    rw [ofForest_leaf (by simp [keyword]) (by simp [keyword]) (by simp [keyword]), custom, nests,
      Header.of, if_pos keyword, text]
    rfl
  have unsigned : Header.unsigned names (.keyword word rest) = .plain (word ++ rest) := by
    simp [Header.unsigned, named, apart]
  rw [ofForest_ofWord is text nests, own, mapHeaders, mapHeaders, unsigned]
  rfl

/-- A statement with the name of an at-keyword apart starts with that token. -/
theorem leaf_of_keyword {gap before name : Text} {start : Location} (starts : f.Starts)
    (eq : nest before (.keyword name rest) start body closed others = (ofForest f).prepend gap) :
    ∃ t g, f = .leaf t g ∧ t.kind = .atKeyword ∧ t.text.drop 1 = name ∧ t.start = start ∧
      finish false t.hasColon g = (rest, .nest body closed others) := by
  cases f with
  | nil => exact starts.elim
  | leaf t g =>
    rw [ofForest_leaf starts.no_space starts.no_semicolon starts.no_comment] at eq
    have custom (keyword : t.kind = .atKeyword) : t.isCustomName = false := by
      simp [Token.isCustomName, keyword]
    rcases ends : finish t.isCustomName t.hasColon g with ⟨text, ending⟩
    rw [ends] at eq
    cases ending with
    | flat => cases eq
    | nest body' closed' others' =>
      obtain ⟨-, header, rfl, rfl, rfl, rfl⟩ := nest.inj eq
      rw [Header.of] at header
      split at header
      next keyword =>
        obtain ⟨rfl, rfl⟩ := Header.keyword.inj header
        exact ⟨t, g, rfl, keyword, rfl, rfl, by rw [← custom keyword, ends]⟩
      next => cases header
  | block opener inner closer g =>
    cases block_first opener inner closer with
    | nest _ first =>
      rw [first] at eq
      cases eq
    | statement colon first =>
      rw [first] at eq
      cases ending : (finish false colon g).2 with
      | flat => rw [ending] at eq; cases eq
      | nest => rw [ending] at eq; cases eq

end

end Outline

/-! ## Texts -/

/-- The tokens of a word and of what stands behind it. -/
theorem tokens_ofWord {word : Text} (is : Word word) {s : Text} (whole : name (word ++ s) = word)
    {q : Cursor} {f : Forest} {back : List Token} (behind : tokensFrom q 0 s = f.tokens ++ back)
    (nonempty : f ≠ .nil) {within : Option Bracket} (grouped : f.Grouped within) (p : Cursor)
    (start : Location) : (tokensFrom p 0 (word ++ s)).map (Token.relocate nowhere) =
      ((Forest.ofWord word start f).tokens ++ back).map (Token.relocate nowhere) := by
  obtain ⟨alone, call⟩ := tokensFrom_word is whole p
  rcases startsWith_cases (c := '(') (s := s) with other | ⟨inner, rfl⟩
  · have plain : Forest.ofWord word start f = .leaf ⟨.ident, word, start⟩ f := by
      cases f with
      | nil | leaf => rfl
      | block opener body closer rest =>
        rw [Forest.ofWord, if_neg]
        intro round
        have spells := (tokensFrom_spelled q 0 s opener (by
          rw [behind]
          exact List.mem_cons_self)).spells
        obtain ⟨c, tail, _, rfl, -, own, -⟩ := tokensFrom_cons_inv behind
        rw [round, own] at spells
        obtain ⟨rfl, -⟩ := List.cons.inj (spells : c :: tail = ['('])
        cases other
    rw [alone other, plain, Forest.tokens, List.cons_append, ← behind, List.map_cons,
      List.map_cons, tokensFrom_nowhere (p.through word) q]
    rfl
  · have opens : tokensFrom q 0 ('(' :: inner) =
        ⟨.opener .round, ['('], q.location⟩ :: tokensFrom (q.through ['(']) 0 inner := by
      have lex : lexeme '(' ([] ++ inner) = (.opener .round, []) := rfl
      exact tokensFrom_of_lexeme lex q
    rw [opens] at behind
    cases f with
    | nil => exact absurd rfl nonempty
    | leaf t rest =>
      obtain ⟨first, -⟩ := List.cons.inj behind
      have plain := grouped.1
      rw [← first] at plain
      cases plain
    | block opener body closer rest =>
      rw [Forest.tokens, List.cons_append] at behind
      obtain ⟨rfl, others⟩ := List.cons.inj behind
      rw [call inner rfl, Forest.ofWord, if_pos rfl, Forest.tokens, List.cons_append, ← others,
        List.map_cons, List.map_cons, tokensFrom_nowhere _ (q.through ['('])]
      rfl

/-- An at-keyword is known by its place: its name stands behind the sign there, and then the text of
the other tokens. -/
theorem word_of_atKeyword {u v word : Text} {front others : List Token} {t : Token}
    (whole : tokens (u ++ '@' :: v) = front ++ t :: others) (keyword : t.kind = .atKeyword)
    (named : t.text.drop 1 = word) (start : t.start = (Cursor.start.through u).location) :
    textOf front = u ∧ t.text = '@' :: word ∧ ∃ s, v = word ++ s ∧ name (word ++ s) = word ∧
      tokensFrom ((Cursor.start.through u).through t.text) 0 s = others := by
  have spells := (tokens_spelled _ t (by
    rw [whole]
    exact List.mem_append_right front List.mem_cons_self)).spells
  rw [keyword] at spells
  obtain ⟨word', text⟩ := spells
  have same : word' = word := by
    rw [← named, text]
    rfl
  rw [same] at text
  have place : t.start = (Cursor.start.through (textOf front)).location := by
    have placed := tokensFrom_placed .start 0 (u ++ '@' :: v)
    rw [← tokens, whole] at placed
    exact (placed_append.mp placed).2.1
  have parts : u ++ '@' :: v = textOf front ++ '@' :: (word ++ textOf others) := by
    calc u ++ '@' :: v
      _ = textOf (tokens (u ++ '@' :: v)) := (text_tokens _).symm
      _ = textOf front ++ '@' :: (word ++ textOf others) := by
        rw [whole]
        simp [textOf, text]
  obtain rfl : u = textOf front :=
    Cursor.through_unique (by decide) parts (start.symm.trans place)
  obtain rfl : v = word ++ textOf others := (List.cons.inj (List.append_cancel_left parts)).2
  have behind := tokensFrom_behind whole rfl
  rw [← List.cons_append, ← text] at behind
  obtain ⟨c, tail, own, lex, behind⟩ := tokensFrom_append_inv behind
  obtain ⟨rfl, rfl⟩ : c = '@' ∧ tail = word := by
    rw [own] at text
    exact List.cons.inj text
  rw [keyword] at lex
  have named := (lexeme_atKeyword (congrArg Prod.fst lex)).2
  rw [lex] at named
  exact ⟨rfl, text, textOf others, rfl, named.symm, behind⟩

/-- Without the sign of an at-rule that has a body, and whose name the rest of its header follows at
once, the statements of a text are the same, but for the header of that at-rule and for places. -/
theorem outline_without_at {names : Text → Bool} {word : Text} (is : Word word)
    (named : names word = true) {u v before rest : Text} {body others : Outline} {closed : Bool}
    (mem : .nest before (.keyword word rest) (Cursor.start.through u).location body closed others ∈
      (outline (u ++ '@' :: v)).statements) (apart : rest.leading = []) :
    ∃ o : Outline,
      o.mapHeaders (.unsigned names) = (outline (u ++ '@' :: v)).mapHeaders (.unsigned names) ∧
      (outline (u ++ v)).relocate nowhere = o.relocate nowhere := by
  have grouped : (Forest.ofTokens (tokens (u ++ '@' :: v))).Grouped none :=
    Continuation.grouped_ofTokens [] _
  have last : (Forest.ofTokens (tokens (u ++ '@' :: v))).OpenLast :=
    Forest.openLast_ofTokens (tokensFrom_closed .start 0 _)
  have whole := Forest.tokens_ofTokens (tokens (u ++ '@' :: v))
  obtain ⟨a, g, gap, starts, eq, fill, settled, alike⟩ :=
    (Outline.stands_of_mem (.unsigned names) grouped last).list _ mem
  obtain ⟨t, f, rfl, keyword, spelled, start, nests⟩ := Outline.leaf_of_keyword starts eq
  rw [← fill, a.tokens_fill, Forest.tokens, List.cons_append] at whole
  obtain ⟨front, text, s, rfl, name_, behind⟩ := word_of_atKeyword whole.symm keyword spelled start
  let f' := Forest.ofWord word t.start f
  have takes : Takes _ (a.fill f') := (Forest.takes_ofWord word keyword f).fill a
  rw [fill] at takes
  have nonempty : f ≠ .nil := by
    rintro rfl
    rw [Outline.finish] at nests
    cases nests
  have unsigned : (Outline.ofForest f').mapHeaders (.unsigned names) =
      (Outline.ofForest (.leaf t f)).mapHeaders (.unsigned names) :=
    Outline.mapHeaders_ofWord is named keyword text nests apart
  obtain ⟨_, -, -, inside⟩ := a.grouped_of_fill (fill ▸ grouped)
  have same : (tokens (u ++ (word ++ s))).map (Token.relocate nowhere) =
      (a.fill f').tokens.map (Token.relocate nowhere) := by
    rw [tokens, settled.tokensFrom whole.symm front, a.tokens_fill, List.map_append,
      List.map_append, tokens_ofWord is name_ behind nonempty inside _ t.start]
  refine ⟨Outline.ofForest (a.fill f'), alike f' unsigned, ?_⟩
  rw [outline, relocate_ofTokens, same, ← relocate_ofTokens,
    Forest.ofTokens_of_grouped (takes.grouped none grouped) (takes.openLast last)]

end BemSheet.Css
