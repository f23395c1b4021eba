import BemSheet.Proofs.Css.Safe

/-!
The tokens of a plain text do not depend on what follows.

A semicolon or a curly bracket belongs to no longer token, so a plain text in front of one, or at
the end, has the tokens it has alone (`tokensFrom_append`). Each reader is local in this sense, and
readers that are put together stay local.
-/

namespace BemSheet.Css

/-- The characters that end every token in front of them. -/
def stops : List Char := [';', '{', '}']

/-- A text that is empty or starts with a character that ends every token in front of it. -/
def Stops (s : Text) : Prop := ∀ c ∈ s.head?, c ∈ stops

theorem stops_nil : Stops [] := nofun

theorem stops_cons {c : Char} {s : Text} : Stops (c :: s) ↔ c ∈ stops := by
  simp [Stops]

/-- The characters that no test for the next characters looks beyond. -/
def halts : List Char := '/' :: stops

/-- A text that is empty or starts with a character that no test looks beyond. -/
def Halts (s : Text) : Prop := ∀ c ∈ s.head?, c ∈ halts

theorem halts_nil : Halts [] := nofun

theorem halts_cons {c : Char} {s : Text} : Halts (c :: s) ↔ c ∈ halts := by
  simp [Halts]

theorem Stops.halts {s : Text} (h : Stops s) : Halts s := by
  intro c hc
  exact List.mem_cons_of_mem _ (h c hc)

/-- A test that no such character satisfies looks at the text in front of it only. -/
theorem startsWith_append {test : Char → Bool} {rest : Text} (hr : Halts rest)
    (h : ∀ c ∈ halts, test c = false) (s : Text) :
    startsWith test (s ++ rest) = startsWith test s := by
  cases s with
  | nil =>
    cases rest with
    | nil => rfl
    | cons c rest => exact h c (halts_cons.mp hr)
  | cons c s => rfl

theorem takeWhile_append {test : Char → Bool} {rest : Text} (hr : Halts rest)
    (h : ∀ c ∈ halts, test c = false) (s : Text) :
    (s ++ rest).takeWhile test = s.takeWhile test := by
  induction s with
  | nil =>
    cases rest with
    | nil => rfl
    | cons c rest => exact List.takeWhile_cons_of_neg (by simp [h c (halts_cons.mp hr)])
  | cons c s ih => simp only [List.cons_append, List.takeWhile_cons, ih]

theorem isPrefixOf_append {rest : Text} (hr : Halts rest) {word : Text}
    (h : ∀ c ∈ word, c ∉ halts) (s : Text) :
    word.isPrefixOf (s ++ rest) = word.isPrefixOf s := by
  induction word generalizing s with
  | nil => rfl
  | cons d word ih =>
    obtain ⟨first, others⟩ := List.forall_mem_cons.mp h
    cases s with
    | cons c s => simp [List.isPrefixOf, ih others s]
    | nil =>
      cases rest with
      | nil => rfl
      | cons c rest =>
        have differ : d ≠ c := fun eq => first (eq ▸ halts_cons.mp hr)
        simp [List.isPrefixOf, differ]

theorem after_append {piece s : Text} (h : piece <+: s) (rest : Text) :
    Text.after piece (s ++ rest) = Text.after piece s ++ rest := by
  obtain ⟨back, rfl⟩ := h
  simp [Text.after]

theorem after_suffix (piece s : Text) : Text.after piece s <:+ s := List.drop_suffix _ _

/-! ## Readers -/

/-- A reader that takes the same piece of a text without hiding characters whatever follows its
stop. -/
def Local (reader : Text → Text) : Prop :=
  ∀ s rest, (∀ c ∈ s, isHiding c = false) → Stops rest → reader (s ++ rest) = reader s

theorem shown_of_suffix {s t : Text} (h : ∀ c ∈ t, isHiding c = false) (suffix : s <:+ t) :
    ∀ c ∈ s, isHiding c = false := by
  intro c hc
  exact h c (suffix.subset hc)

theorem followedBy_local {first second : Text → Text} (h : Local first) (h' : Local second)
    (piece : ∀ s, first s <+: s) : Local (followedBy first second) := by
  intro s rest shown stops
  have others := shown_of_suffix shown (after_suffix (first s) s)
  simp only [followedBy, h s rest shown stops, after_append (piece s), h' _ rest others stops]

theorem not_backslash {c : Char} (h : isHiding c = false) : c ≠ '\\' := by
  rintro rfl
  cases h

theorem nameUnit_cons {c : Char} (h : isHiding c = false) (s : Text) :
    nameUnit (c :: s) = if isNameChar c then 1 else 0 := by
  rw [nameUnit, if_neg (not_backslash h)]

theorem nameUnit_of_stops {s : Text} (h : Stops s) : nameUnit s = 0 := by
  cases s with
  | nil => rfl
  | cons c s =>
    have none : ∀ c ∈ stops, c ≠ '\\' ∧ isNameChar c = false := by decide
    obtain ⟨plain, other⟩ := none c (stops_cons.mp h)
    rw [nameUnit, if_neg plain, other]
    rfl

/-- Without escapes, a name is a row of name characters. -/
theorem name_append {s rest : Text} (shown : ∀ c ∈ s, isHiding c = false) (hr : Stops rest) :
    name (s ++ rest) = s.takeWhile isNameChar := by
  induction s with
  | nil =>
    cases rest with
    | nil => rfl
    | cons c rest =>
      rw [List.nil_append, name, Text.run, nameUnit_of_stops hr]
      rfl
  | cons c s ih =>
    obtain ⟨first, others⟩ := List.forall_mem_cons.mp shown
    rw [List.cons_append, name, Text.run, nameUnit_cons first]
    by_cases char : isNameChar c = true
    · rw [if_pos char, List.takeWhile_cons_of_pos char]
      exact congrArg (c :: ·) (ih others)
    · rw [if_neg char, List.takeWhile_cons_of_neg char]

theorem name_eq_takeWhile {s : Text} (shown : ∀ c ∈ s, isHiding c = false) :
    name s = s.takeWhile isNameChar := by
  have alone := name_append shown stops_nil
  rwa [List.append_nil] at alone

theorem name_local : Local name := by
  intro s rest shown stops
  rw [name_append shown stops, name_eq_takeWhile shown]

theorem startsIdent_append {rest : Text} (hr : Halts rest) (s : Text) :
    startsIdent (s ++ rest) = startsIdent s := by
  cases s with
  | nil =>
    cases rest with
    | nil => rfl
    | cons c rest =>
      have none : ∀ c ∈ halts, c ≠ '\\' ∧ c ≠ '-' ∧ isNameStart c = false := by decide
      obtain ⟨plain, nohyphen, other⟩ := none c (halts_cons.mp hr)
      show startsIdent (c :: rest) = false
      rw [startsIdent, if_neg plain, if_neg nohyphen, other]
  | cons c s =>
    rw [List.cons_append, startsIdent, startsIdent, startsWith_append hr (by decide),
      startsWith_append hr (by decide)]

theorem digits_append {rest : Text} (hr : Halts rest) (s : Text) :
    digits (s ++ rest) = digits s :=
  takeWhile_append hr (by decide) s

theorem startsFraction_of_ne {c : Char} (h : c ≠ '.') (s : Text) :
    startsFraction (c :: s) = false := by
  unfold startsFraction
  split
  next eq => exact absurd (List.cons.inj eq).1 h
  next => rfl

theorem startsFraction_append {rest : Text} (hr : Halts rest) (s : Text) :
    startsFraction (s ++ rest) = startsFraction s := by
  cases s with
  | nil =>
    cases rest with
    | nil => rfl
    | cons c rest =>
      have nopoint : ∀ c ∈ halts, c ≠ '.' := by decide
      exact startsFraction_of_ne (nopoint c (halts_cons.mp hr)) rest
  | cons c s =>
    by_cases point : c = '.'
    · subst point
      exact startsWith_append hr (by decide) s
    · rw [List.cons_append, startsFraction_of_ne point, startsFraction_of_ne point]

theorem fraction_append {rest : Text} (hr : Halts rest) (s : Text) :
    fraction (s ++ rest) = fraction s := by
  rw [fraction, fraction, startsFraction_append hr]
  cases s with
  | nil => rfl
  | cons c s =>
    simp only [List.cons_append, List.take_succ_cons, List.take_zero, List.drop_succ_cons,
      List.drop_zero, digits_append hr]

theorem exponent_append {rest : Text} (hr : Halts rest) (s : Text) :
    exponent (s ++ rest) = exponent s := by
  have letter := startsWith_append hr (by decide : ∀ c ∈ halts, (c == 'e' || c == 'E') = false) s
  have digit := startsWith_append hr (by decide : ∀ c ∈ halts, Char.isDigit c = false)
  have sign := startsWith_append hr (by decide : ∀ c ∈ halts, isSign c = false)
  simp only [exponent, letter]
  cases s with
  | nil => rfl
  | cons c s =>
    simp only [List.cons_append, List.take_succ_cons, List.take_zero, List.drop_succ_cons,
      List.drop_zero, digit, sign, digits_append hr]
    cases s with
    | nil => rfl
    | cons d s =>
      simp only [List.cons_append, List.take_succ_cons, List.take_zero, List.drop_succ_cons,
        List.drop_zero, digit, digits_append hr]

theorem unitOf_local : Local unitOf := by
  intro s rest shown hr
  rw [unitOf, unitOf, startsWith_append hr.halts (by decide), startsIdent_append hr.halts,
    name_local s rest shown hr]
  cases s with
  | nil => rfl
  | cons c s => rfl

theorem numberTail_local (c : Char) : Local (numberTail c) := by
  have digits_local : Local digits := fun s _ _ hr => digits_append hr.halts s
  have exponent_local : Local exponent := fun s _ _ hr => exponent_append hr.halts s
  refine followedBy_local digits_local (followedBy_local ?_
    (followedBy_local exponent_local unitOf_local exponent_isPrefix) ?_) digits_isPrefix
  · split
    · intro s rest _ _
      rfl
    · intro s rest _ hr
      exact fraction_append hr.halts s
  · split
    · intro s
      exact List.nil_prefix
    · exact fraction_isPrefix

theorem startsNumber_append {rest : Text} (hr : Halts rest) (c : Char) (s : Text) :
    startsNumber c (s ++ rest) = startsNumber c s := by
  rw [startsNumber, startsNumber, ← List.cons_append, startsFraction_append hr,
    startsFraction_append hr, startsWith_append hr (by decide)]

/-! ## Tokens -/

/-- Without escapes, a name says what is written, except for null characters. -/
theorem nameValue_of_shown {s : Text} (shown : ∀ c ∈ s, isHiding c = false) :
    nameValue 0 s = s.map fun c => if c = '\x00' then replacement else c := by
  induction s with
  | nil => rfl
  | cons c s ih =>
    obtain ⟨first, others⟩ := List.forall_mem_cons.mp shown
    rw [nameValue, if_neg (not_backslash first), ih others, List.map_cons]

theorem toLower_replacement : replacement.toLower ∉ ['u', 'r', 'l'] := by decide

theorem startsUrl_of_saysUrl {word : Text} (shown : ∀ c ∈ word, isHiding c = false)
    (h : saysUrl word = true) (rest : Text) : startsUrl (word ++ '(' :: rest) = true := by
  rw [saysUrl, nameValue_of_shown shown, beq_iff_eq, List.map_map] at h
  have same : word.map Char.toLower = ['u', 'r', 'l'] := by
    rw [← h]
    apply List.map_congr_left
    intro c hc
    have letter : (if c = '\x00' then replacement else c).toLower ∈ ['u', 'r', 'l'] := by
      rw [← h]
      exact List.mem_map_of_mem (f := Char.toLower ∘ _) hc
    rw [Function.comp_apply]
    by_cases null : c = '\x00'
    · rw [if_pos null] at letter
      exact absurd letter toLower_replacement
    · rw [if_neg null]
  have length : (word ++ ['(']).length = 4 := by simpa using congrArg List.length same
  have front : (word ++ '(' :: rest).take 4 = word ++ ['('] := by
    rw [List.append_cons, ← length, List.take_left]
  simp [startsUrl, front, same]

/-- Without addresses, the word that a text starts with is a function or an identifier. -/
theorem wordToken_append {s rest : Text} (h : Plain s) (hr : Stops rest) :
    wordToken (s ++ rest) = if startsWith (· == '(') (Text.after (name s) s)
      then (.function, name s ++ ['(']) else (.ident, name s) := by
  have same := name_local s rest h.shown hr
  simp only [wordToken, same, after_append (name_isPrefix s)]
  cases eq : Text.after (name s) s with
  | nil =>
    rw [List.nil_append]
    cases rest with
    | nil => rfl
    | cons c rest =>
      have noparen : ∀ c ∈ stops, c ≠ '(' := by decide
      split
      next eq => exact absurd (List.cons.inj eq).1 (noparen c (stops_cons.mp hr))
      next => rfl
  | cons c t =>
    by_cases paren : c = '('
    · subst paren
      have whole : name s ++ '(' :: t = s := by rw [← eq, Text.append_after (name_isPrefix s)]
      have nourl : saysUrl (name s) = false := by
        rw [Bool.eq_false_iff]
        intro same_word
        have shown : ∀ c ∈ name s, isHiding c = false := by
          intro c hc
          exact h.shown c ((name_isPrefix s).subset hc)
        have starts := startsUrl_of_saysUrl shown same_word t
        rw [whole] at starts
        cases s with
        | nil => cases starts
        | cons c s =>
          rw [(containsUrl_cons_eq_false h.no_url).1] at starts
          cases starts
      simp [nourl, startsWith]
    · split
      next eq => exact absurd (List.cons.inj eq).1 paren
      next => simp [startsWith, paren]

theorem wordToken_of_plain {s : Text} (h : Plain s) :
    wordToken s = if startsWith (· == '(') (Text.after (name s) s)
      then (.function, name s ++ ['(']) else (.ident, name s) := by
  have alone := wordToken_append h stops_nil
  rwa [List.append_nil] at alone

theorem punctuation_append {c : Char} {s rest : Text} (h : Plain (c :: s)) (hr : Stops rest) :
    punctuation c (s ++ rest) = punctuation c s := by
  obtain ⟨first, others⟩ := List.forall_mem_cons.mp h.shown
  have ident := startsIdent_append hr.halts s
  have same := name_local s rest others hr
  unfold punctuation
  split
  case h_1 | h_2 | h_5 => cases first
  case h_3 => rw [ident, same, startsWith_append hr.halts (by decide)]
  case h_4 => rw [ident, same]
  case h_6 => rw [isPrefixOf_append hr.halts (by decide)]
  case h_7 | h_8 | h_9 | h_10 | h_11 => rw [startsWith_append hr.halts (by decide)]
  all_goals rfl

/-- The first token of a plain text is the same in front of a stop. -/
theorem lexeme_append {c : Char} {s rest : Text} (h : Plain (c :: s)) (hr : Stops rest) :
    lexeme c (s ++ rest) = lexeme c s := by
  obtain ⟨first, others⟩ := List.forall_mem_cons.mp h.shown
  have word : wordToken (c :: (s ++ rest)) = wordToken (c :: s) := by
    rw [← List.cons_append, wordToken_append h hr, wordToken_of_plain h]
  have ident : startsIdent (c :: (s ++ rest)) = startsIdent (c :: s) := by
    rw [← List.cons_append, startsIdent_append hr.halts]
  simp only [lexeme, startsNumber_append hr.halts, numberTail_local c s rest others hr,
    isPrefixOf_append hr.halts (by decide : ∀ d ∈ ['-', '>'], d ∉ halts), word, ident,
    punctuation_append h hr]

/-- The tokens after one that is being read are those of the text after it. -/
theorem tokensFrom_left (p : Cursor) (left : Nat) (s : Text) :
    tokensFrom p left s = tokensFrom (p.through (s.take left)) 0 (s.drop left) := by
  induction s generalizing p left with
  | nil => cases left <;> simp [tokensFrom]
  | cons c s ih =>
    cases left with
    | zero => rfl
    | succ left => exact ih (p.step c) left

/-- The tokens of a text start with its first one, and the others start after its piece. -/
theorem tokensFrom_piece (p : Cursor) (c : Char) (s : Text) :
    tokensFrom p 0 (c :: s) = ⟨(lexeme c s).1, c :: (lexeme c s).2, p.location⟩ ::
      tokensFrom (p.through (c :: (lexeme c s).2)) 0 (Text.after (lexeme c s).2 s) := by
  have piece : s.take (lexeme c s).2.length = (lexeme c s).2 :=
    (List.prefix_iff_eq_take.mp (lexeme_isPrefix c s)).symm
  rw [tokensFrom_cons, tokensFrom_left, piece]
  rfl

/-- A plain text in front of a stop has the tokens that it has alone. -/
theorem tokensFrom_append {s rest : Text} (h : Plain s) (hr : Stops rest) (p : Cursor) :
    tokensFrom p 0 (s ++ rest) = tokensFrom p 0 s ++ tokensFrom (p.through s) 0 rest := by
  match s, h with
  | [], _ => rfl
  | c :: s, h =>
    have piece := lexeme_isPrefix c s
    have whole := Text.append_after piece
    have smaller : (Text.after (lexeme c s).2 s).length ≤ s.length := (after_suffix _ s).length_le
    have plain : Plain (Text.after (lexeme c s).2 s) :=
      h.of_suffix ((after_suffix _ s).trans (List.suffix_cons c s))
    have others := tokensFrom_append plain hr (p.through (c :: (lexeme c s).2))
    rw [List.cons_append, tokensFrom_piece, tokensFrom_piece, lexeme_append h hr,
      after_append piece, others, ← Cursor.through_append, List.cons_append, whole]
    rfl
termination_by s.length
decreasing_by
  rw [List.length_cons]
  omega

end BemSheet.Css
