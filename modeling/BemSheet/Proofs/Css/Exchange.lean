import BemSheet.Proofs.Css.Lookahead

/-!
Exchanging the text behind whole tokens.

* `tokensFrom_seam`: where a token ends and a seam comes next, the tokens up to there are the same
  whatever follows.
* `Shut.tokensFrom`: so are tokens of which the last, white space aside, is one that nothing is
  added to.
-/

namespace BemSheet.Css

/-! ## Texts of whole tokens -/

/-- The first of the tokens of a text, by the text after it. -/
theorem tokensFrom_cons_inv {p : Cursor} {s : Text} {t : Token} {tokens : List Token}
    (h : tokensFrom p 0 s = t :: tokens) : ∃ c tail rest, s = c :: (tail ++ rest) ∧
      lexeme c (tail ++ rest) = (t.kind, tail) ∧ t = ⟨t.kind, c :: tail, p.location⟩ ∧
      tokensFrom (p.through t.text) 0 rest = tokens := by
  cases s with
  | nil => cases h
  | cons c s =>
    obtain ⟨rest, whole⟩ := lexeme_isPrefix c s
    rw [tokensFrom_piece] at h
    obtain ⟨rfl, others⟩ := List.cons.inj h
    refine ⟨c, (lexeme c s).2, rest, by rw [whole], by rw [whole], rfl, ?_⟩
    rw [← others]
    congr 1
    exact List.append_cancel_left (whole.trans (Text.append_after (lexeme_isPrefix c s)).symm)

/-- The first token of a text that goes on: its characters come first, and the other tokens are
those of what follows. -/
theorem tokensFrom_append_inv {p : Cursor} {s : Text} {t : Token} {tokens : List Token}
    (h : tokensFrom p 0 (t.text ++ s) = t :: tokens) : ∃ c tail,
      t = ⟨t.kind, c :: tail, p.location⟩ ∧ lexeme c (tail ++ s) = (t.kind, tail) ∧
        tokensFrom (p.through t.text) 0 s = tokens := by
  obtain ⟨c, tail, rest, eq, lex, own, behind⟩ := tokensFrom_cons_inv h
  have first : t.text = c :: tail := by rw [own]
  rw [first, List.cons_append] at eq
  obtain rfl : s = rest := List.append_cancel_left (List.cons.inj eq).2
  exact ⟨c, tail, own, lex, behind⟩

/-- Behind whole tokens stand the tokens of what follows. -/
theorem tokensFrom_behind {p : Cursor} {s e : Text} {tokens others : List Token}
    (whole : tokensFrom p 0 (s ++ e) = tokens ++ others) (text : textOf tokens = s) :
    tokensFrom (p.through s) 0 e = others := by
  induction tokens generalizing p s with
  | nil =>
    obtain rfl : [] = s := text
    exact whole
  | cons t tokens ih =>
    obtain rfl : t.text ++ textOf tokens = s := text
    rw [List.append_assoc] at whole
    obtain ⟨-, -, -, -, behind⟩ := tokensFrom_append_inv whole
    rw [Cursor.through_append]
    exact ih behind rfl

/-- Where a token ends, and a seam comes next, the tokens up to there are the same whatever
follows. -/
theorem tokensFrom_seam {e e' : Text} (seam : Seam e e') {p : Cursor} {s : Text}
    {tokens others : List Token} (whole : tokensFrom p 0 (s ++ e) = tokens ++ others)
    (text : textOf tokens = s) :
    tokensFrom p 0 (s ++ e') = tokens ++ tokensFrom (p.through s) 0 e' := by
  induction tokens generalizing p s with
  | nil =>
    obtain rfl : [] = s := text
    rfl
  | cons t tokens ih =>
    obtain rfl : t.text ++ textOf tokens = s := text
    rw [List.append_assoc] at whole
    obtain ⟨c, tail, own, lex, behind⟩ := tokensFrom_append_inv whole
    have first : t.text = c :: tail := by rw [own]
    have same : lexeme c (tail ++ (textOf tokens ++ e')) = (t.kind, tail) := by
      rw [← List.append_assoc] at lex ⊢
      rw [lexeme_seam seam c (tail ++ textOf tokens), lex]
      rw [lex, List.length_append]
      exact Nat.le_add_right _ _
    have rest : Text.after tail (tail ++ (textOf tokens ++ e')) = textOf tokens ++ e' :=
      List.drop_left
    have start : t.text ++ textOf tokens ++ e' = c :: (tail ++ (textOf tokens ++ e')) := by
      rw [first, List.append_assoc, List.cons_append]
    rw [start, tokensFrom_piece, same, ← own, rest, ← first, ih behind rfl, Cursor.through_append]
    rfl

/-- A token of which nothing that follows becomes a part: a semicolon, a closing curly bracket or a
closed comment. -/
def Token.shut (t : Token) : Bool :=
  match t.kind with
  | .semicolon | .closer .curly | .comment _ true => true
  | _ => false

theorem lexeme_shut {c : Char} {tail rest : Text} {kind : Kind} {start : Location}
    (lex : lexeme c (tail ++ rest) = (kind, tail))
    (h : Token.shut ⟨kind, c :: tail, start⟩ = true) :
    c ∈ halts ∧ ∀ rest, lexeme c (tail ++ rest) = (kind, tail) := by
  have spells := lexeme_spells c (tail ++ rest)
  rw [lex] at spells
  unfold Token.shut at h
  split at h
  next eq =>
    obtain rfl : kind = .semicolon := eq
    obtain ⟨rfl, rfl⟩ := List.cons.inj (spells : c :: tail = [';'])
    exact ⟨by decide, fun _ => rfl⟩
  next eq =>
    obtain rfl : kind = .closer .curly := eq
    obtain ⟨rfl, rfl⟩ := List.cons.inj (spells : c :: tail = ['}'])
    exact ⟨by decide, fun _ => rfl⟩
  next body eq =>
    obtain rfl : kind = .comment body true := eq
    obtain ⟨text, no_end⟩ := spells
    obtain ⟨rfl, rfl⟩ := List.cons.inj text
    exact ⟨by decide, lexeme_closedComment no_end⟩
  next => cases h

/-- Behind a token of which nothing that follows becomes a part, a text may be exchanged. -/
theorem tokensFrom_shut {p : Cursor} {s e : Text} {tokens others : List Token} {t : Token}
    (whole : tokensFrom p 0 (s ++ e) = tokens ++ t :: others)
    (text : textOf tokens ++ t.text = s) (shut : t.shut = true) (e' : Text) :
    tokensFrom p 0 (s ++ e') = tokens ++ t :: tokensFrom (p.through s) 0 e' := by
  subst text
  rw [List.append_assoc] at whole ⊢
  have behind := tokensFrom_behind whole rfl
  obtain ⟨c, tail, own, lex, -⟩ := tokensFrom_append_inv behind
  have first : t.text = c :: tail := by rw [own]
  rw [own] at shut
  obtain ⟨halts, lex⟩ := lexeme_shut lex shut
  have seam : Seam (t.text ++ e) (t.text ++ e') := by
    rw [first]
    exact .same halts _ _
  have rest : Text.after tail (tail ++ e') = e' := List.drop_left
  rw [tokensFrom_seam seam whole rfl, Cursor.through_append, first, List.cons_append,
    tokensFrom_piece, lex, rest, ← own]

/-! ## Tokens that nothing is added to -/

/-- Tokens of which the last one that is no white space is shut. -/
def Shut (tokens : List Token) : Prop := ∃ front spaces, tokens = front ++ spaces ∧
  (∀ t ∈ spaces, t.kind = .space) ∧ ∀ t ∈ front.getLast?, t.shut = true

theorem shut_nil : Shut [] := ⟨[], [], rfl, nofun, nofun⟩

/-- A token in front leaves the tokens shut, if it is white space or shut itself, or if others than
white space follow. -/
theorem Shut.cons {tokens : List Token} (h : Shut tokens) {t : Token}
    (own : t.kind = .space ∨ t.shut = true ∨ ∃ u ∈ tokens, u.kind ≠ .space) :
    Shut (t :: tokens) := by
  obtain ⟨front, spaces, rfl, blank, last⟩ := h
  cases front with
  | cons u front => exact ⟨t :: u :: front, spaces, rfl, blank, last⟩
  | nil =>
    rcases own with space | shut | ⟨u, mem, other⟩
    · exact ⟨[], t :: spaces, rfl, List.forall_mem_cons.mpr ⟨space, blank⟩, nofun⟩
    · exact ⟨[t], spaces, rfl, blank, fun u hu => Option.some.inj hu ▸ shut⟩
    · exact absurd (blank u mem) other

theorem Shut.append {tokens : List Token} (h : Shut tokens) (other : ∃ u ∈ tokens, u.kind ≠ .space)
    (front : List Token) : Shut (front ++ tokens) := by
  induction front with
  | nil => exact h
  | cons t front ih =>
    obtain ⟨u, mem, other⟩ := other
    exact ih.cons (.inr (.inr ⟨u, List.mem_append_right front mem, other⟩))

/-- White space is a token of its own whatever follows. -/
theorem tokensFrom_spaces {p : Cursor} {s e : Text} {spaces others : List Token}
    (whole : tokensFrom p 0 (s ++ e) = spaces ++ others) (text : textOf spaces = s)
    (blank : ∀ t ∈ spaces, t.kind = .space) (e' : Text) :
    tokensFrom p 0 (s ++ e') = spaces ++ tokensFrom (p.through s) 0 e' := by
  induction spaces generalizing p s with
  | nil =>
    obtain rfl : [] = s := text
    rfl
  | cons t spaces ih =>
    obtain rfl : t.text ++ textOf spaces = s := text
    obtain ⟨space, blank⟩ := List.forall_mem_cons.mp blank
    rw [List.append_assoc] at whole
    obtain ⟨c, tail, own, lex, behind⟩ := tokensFrom_append_inv whole
    have spells := lexeme_spells c (tail ++ (textOf spaces ++ e))
    rw [lex, space] at spells
    obtain ⟨d, is, eq⟩ := spells
    obtain ⟨rfl, rfl⟩ := List.cons.inj eq
    have first : t.text = [c] := by rw [own]
    rw [space] at own
    rw [List.append_assoc, first, List.singleton_append, tokensFrom_piece, lexeme_of_isSpace is,
      ← own]
    rw [first] at behind
    exact congrArg (t :: ·) (ih behind rfl blank)

/-- Behind tokens that nothing is added to, a text may be exchanged. -/
theorem Shut.tokensFrom {tokens : List Token} (h : Shut tokens) {p : Cursor} {s e : Text}
    {others : List Token} (whole : tokensFrom p 0 (s ++ e) = tokens ++ others)
    (text : textOf tokens = s) (e' : Text) :
    Css.tokensFrom p 0 (s ++ e') = tokens ++ Css.tokensFrom (p.through s) 0 e' := by
  obtain ⟨front, spaces, rfl, blank, last⟩ := h
  obtain rfl : textOf front ++ textOf spaces = s := by
    rw [← text, textOf, textOf, textOf, List.flatMap_append]
  rw [List.append_assoc, List.append_assoc] at whole
  have behind := tokensFrom_behind whole rfl
  have tail := tokensFrom_spaces behind rfl blank e'
  rw [List.append_assoc, List.append_assoc, Cursor.through_append]
  obtain rfl | ⟨front, t, rfl⟩ := List.eq_nil_or_concat front
  · exact tail
  · rw [List.concat_eq_append] at whole tail last ⊢
    have shut := last t List.getLast?_concat
    have text : textOf front ++ t.text = textOf (front ++ [t]) := by
      simp [textOf]
    rw [List.append_assoc] at whole
    have exchanged := tokensFrom_shut whole text shut (textOf spaces ++ e')
    rw [exchanged, tail, List.append_assoc]
    rfl

end BemSheet.Css
