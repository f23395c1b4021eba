import BemSheet.Css.Number
import BemSheet.Css.Quoted
import BemSheet.Css.Token

/-!
Reading the tokens of a text.

Every character belongs to exactly one token: the texts of the tokens, in order, are the text that
was read (`text_tokens`). Each white space is a token of its own, so a text can be cut between two
of them without cutting a token.
-/

namespace BemSheet.Css

/-- The contents of a comment, by the text after its opening, and whether its end was found. -/
def commentBody : Text → Text × Bool
  | [] => ([], false)
  | c :: s =>
    if c = '*' && startsWith (· == '/') s then ([], true)
    else
      let (body, closed) := commentBody s
      (c :: body, closed)

/-- Whether a name says `url` in any letter case. -/
def saysUrl (word : Text) : Bool := (nameValue 0 word).map Char.toLower == ['u', 'r', 'l']

/-- The identifier, function or address that a text starts with. -/
def wordToken (s : Text) : Kind × Text :=
  let word := name s
  match Text.after word s with
  | '(' :: rest =>
    if saysUrl word then
      match urlTail? rest with
      | some tail => (.url, word ++ '(' :: tail)
      | none => (.function, word ++ ['('])
    else (.function, word ++ ['('])
  | _ => (.ident, word)

/-- A token that starts with a character of no name and no number: its kind, and the characters
after the first. -/
def punctuation (c : Char) (s : Text) : Kind × Text :=
  match c with
  | '"' | '\'' => (.string, stringTail c s)
  | '#' =>
    if startsIdent s || startsWith (fun d => d.isDigit || d == '-') s then (.hash, name s)
    else (.delim, [])
  | '@' => if startsIdent s then (.atKeyword, name s) else (.delim, [])
  | '/' =>
    if startsWith (· == '*') s then
      let (body, closed) := commentBody (s.drop 1)
      (.comment body closed, '*' :: body ++ if closed then ['*', '/'] else [])
    else (.delim, [])
  | '<' => if ['!', '-', '-'].isPrefixOf s then (.commentOpen, ['!', '-', '-']) else (.delim, [])
  | '$' | '*' | '^' | '|' | '~' =>
    if startsWith (· == '=') s then (.matching, ['=']) else (.delim, [])
  | ':' => (.colon, [])
  | ';' => (.semicolon, [])
  | ',' => (.comma, [])
  | '(' => (.opener .round, [])
  | '[' => (.opener .square, [])
  | '{' => (.opener .curly, [])
  | ')' => (.closer .round, [])
  | ']' => (.closer .square, [])
  | '}' => (.closer .curly, [])
  | _ => (.delim, [])

/-- The token that starts with `c`: its kind, and those of its characters that follow `c`. -/
def lexeme (c : Char) (s : Text) : Kind × Text :=
  if isSpace c then (.space, [])
  else if startsNumber c s then (.number, numberTail c s)
  else if c = '-' && ['-', '>'].isPrefixOf s then (.commentClose, ['-', '>'])
  else if startsIdent (c :: s) then
    let (kind, text) := wordToken (c :: s)
    (kind, text.tail)
  else punctuation c s

/-- The tokens of a text whose first `left` characters belong to a token already read, from the
place `p` on. -/
def tokensFrom (p : Cursor) : (left : Nat) → Text → List Token
  | _, [] => []
  | left + 1, c :: s => tokensFrom (p.step c) left s
  | 0, c :: s =>
    let (kind, tail) := lexeme c s
    ⟨kind, c :: tail, p.location⟩ :: tokensFrom (p.step c) tail.length s

/-- The tokens of a text. -/
def tokens (s : Text) : List Token := tokensFrom .start 0 s

/-! ## No character is lost -/

theorem commentBody_isPrefix (s : Text) :
    (commentBody s).1 ++ (if (commentBody s).2 then ['*', '/'] else []) <+: s := by
  induction s with
  | nil => exact List.nil_prefix
  | cons c s ih =>
    simp only [commentBody]
    split
    next h =>
      simp only [Bool.and_eq_true, decide_eq_true_eq] at h
      obtain ⟨rfl, h⟩ := h
      exact List.cons_prefix_cons.mpr ⟨rfl, singleton_isPrefix_of_startsWith h⟩
    next => exact List.cons_prefix_cons.mpr ⟨rfl, ih⟩

theorem wordToken_isPrefix (s : Text) : (wordToken s).2 <+: s := by
  have opening {rest : Text} (h : Text.after (name s) s = '(' :: rest) (tail : Text)
      (h' : tail <+: rest) : name s ++ '(' :: tail <+: s :=
    Text.append_isPrefix (name_isPrefix s) (h ▸ List.cons_prefix_cons.mpr ⟨rfl, h'⟩)
  simp only [wordToken]
  split
  next rest h =>
    split
    · split
      next tail eq => exact opening h tail (urlTail?_isPrefix eq)
      next => exact opening h [] List.nil_prefix
    · exact opening h [] List.nil_prefix
  next => exact name_isPrefix s

theorem punctuation_isPrefix (c : Char) (s : Text) : (punctuation c s).2 <+: s := by
  unfold punctuation
  split
  case h_1 | h_2 => exact stringTail_isPrefix _ _
  case h_3 | h_4 =>
    split
    · exact name_isPrefix s
    · exact List.nil_prefix
  case h_5 =>
    split
    next h =>
      obtain ⟨rest, rfl⟩ := singleton_isPrefix_of_startsWith h
      exact List.cons_prefix_cons.mpr ⟨rfl, commentBody_isPrefix rest⟩
    next => exact List.nil_prefix
  case h_6 =>
    split
    next h => exact List.isPrefixOf_iff_prefix.mp h
    next => exact List.nil_prefix
  case h_7 | h_8 | h_9 | h_10 | h_11 =>
    split
    next h => exact singleton_isPrefix_of_startsWith h
    next => exact List.nil_prefix
  all_goals exact List.nil_prefix

theorem lexeme_isPrefix (c : Char) (s : Text) : (lexeme c s).2 <+: s := by
  unfold lexeme
  split
  · exact List.nil_prefix
  · split
    · exact numberTail_isPrefix c s
    · split
      next h =>
        simp only [Bool.and_eq_true] at h
        exact List.isPrefixOf_iff_prefix.mp h.2
      next =>
        split
        · have h := wordToken_isPrefix (c :: s)
          generalize wordToken (c :: s) = word at h
          obtain ⟨kind, _ | ⟨d, t⟩⟩ := word
          · exact List.nil_prefix
          · exact (List.cons_prefix_cons.mp h).2
        · exact punctuation_isPrefix c s

theorem text_tokensFrom (p : Cursor) (left : Nat) (s : Text) :
    (tokensFrom p left s).flatMap Token.text = s.drop left := by
  induction s generalizing p left with
  | nil => cases left <;> simp [tokensFrom]
  | cons c s ih =>
    cases left with
    | succ left => exact ih _ left
    | zero =>
      have whole := Text.append_after (lexeme_isPrefix c s)
      simpa [tokensFrom, ih, Text.after] using whole

/-- The texts of the tokens, in order, are the text that was read. -/
theorem text_tokens (s : Text) : (tokens s).flatMap Token.text = s := text_tokensFrom _ 0 s

end BemSheet.Css
