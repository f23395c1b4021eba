import BemSheet.Proofs.Css.Grouping

/-!
How far a token depends on what follows it.

A token that ends in front of a seam is the same on either side of the exchange (`lexeme_seam`): a
semicolon, a bracket of a body or a comment comes next and stays, whatever stands behind it, or the
bracket that closes a body gives way to the end of the text. Unlike a plain text, the text in front
may hold strings, comments, addresses and escapes, which can reach over a seam, so each reader is
steady only where it stops in time.
-/

namespace BemSheet.Css

/-- What may stand in the place of what: the first character stays, or the end of the text comes in
the place of a bracket. -/
inductive Seam : Text → Text → Prop
  | same {c : Char} (h : c ∈ halts) (e e' : Text) : Seam (c :: e) (c :: e')
  | last (e : Text) : Seam ('}' :: e) []

namespace Seam

variable {e e' : Text}

theorem halts (h : Seam e e') : Halts e ∧ Halts e' := by
  cases h with
  | same h e e' => exact ⟨halts_cons.mpr h, halts_cons.mpr h⟩
  | last e => exact ⟨halts_cons.mpr (by decide), halts_nil⟩

theorem length_pos (h : Seam e e') : 0 < e.length := by
  cases h <;> exact Nat.succ_pos _

end Seam

/-! ## Steady readers -/

/-- A reader that stops in front of a seam stops there whatever follows. -/
def Steady (reader : Text → Text) : Prop :=
  ∀ e e' s, Seam e e' → (reader (s ++ e)).length ≤ s.length → reader (s ++ e') = reader (s ++ e)

/-- The same of a measure of what stands at the head of a text. -/
def SteadyUnit (unit : Text → Nat) : Prop :=
  ∀ e e' s, Seam e e' → unit (s ++ e) ≤ s.length → unit (s ++ e') = unit (s ++ e)

theorem le_length_run (unit : Text → Nat) (left : Nat) (s : Text) :
    min left s.length ≤ (Text.run unit left s).length := by
  induction s generalizing left with
  | nil => simp
  | cons c s ih =>
    cases left with
    | zero => simp
    | succ left =>
      have := ih left
      simp only [Text.run, List.length_cons]
      omega

theorem run_eq_nil {unit : Text → Nat} {s : Text} (h : unit s = 0) : Text.run unit 0 s = [] := by
  cases s with
  | nil => rfl
  | cons c s => rw [Text.run, h]

theorem unit_of_run_eq_nil {unit : Text → Nat} {c : Char} {s : Text}
    (h : Text.run unit 0 (c :: s) = []) : unit (c :: s) = 0 := by
  rw [Text.run] at h
  split at h
  next none => exact none
  next => cases h

theorem run_of_unit {unit : Text → Nat} {c : Char} {s : Text} {n : Nat}
    (h : unit (c :: s) = n + 1) : Text.run unit 0 (c :: s) = c :: Text.run unit n s := by
  rw [Text.run, h]

theorem run_seam {unit : Text → Nat} (h : SteadyUnit unit) {e e' : Text} (seam : Seam e e')
    (left : Nat) (s : Text) (short : (Text.run unit left (s ++ e)).length ≤ s.length) :
    Text.run unit left (s ++ e') = Text.run unit left (s ++ e) := by
  have behind := seam.length_pos
  induction s generalizing left with
  | nil =>
    have long := le_length_run unit left e
    rw [List.nil_append, List.length_nil] at short
    obtain rfl : left = 0 := by omega
    have empty := List.eq_nil_of_length_eq_zero (Nat.le_zero.mp short)
    have none : unit ([] ++ e) = 0 := by
      cases e with
      | nil => cases seam
      | cons c e => exact unit_of_run_eq_nil empty
    have none' := h e e' [] seam (Nat.le_of_eq none)
    exact (run_eq_nil (none'.trans none)).trans empty.symm
  | cons c s ih =>
    simp only [List.cons_append, List.length_cons] at short ⊢
    cases left with
    | succ left =>
      rw [Text.run, List.length_cons] at short
      rw [Text.run, Text.run, ih left (by omega)]
    | zero =>
      have same (bound : unit (c :: (s ++ e)) ≤ s.length + 1) :
          unit (c :: (s ++ e')) = unit (c :: (s ++ e)) := h e e' (c :: s) seam bound
      cases step : unit (c :: (s ++ e)) with
      | zero =>
        rw [step] at same
        rw [run_eq_nil step, run_eq_nil (same (Nat.zero_le _))]
      | succ n =>
        have long := le_length_run unit n (s ++ e)
        rw [run_of_unit step, List.length_cons] at short
        rw [List.length_append] at long
        rw [step] at same
        rw [run_of_unit step, run_of_unit (same (by omega)), ih n (by omega)]

theorem steady_run {unit : Text → Nat} (h : SteadyUnit unit) : Steady (Text.run unit 0) :=
  fun _ _ s seam short => run_seam h seam 0 s short

/-- A reader that no text behind a seam has a part in. -/
theorem steady_of_append {reader : Text → Text}
    (h : ∀ s rest, Halts rest → reader (s ++ rest) = reader s) : Steady reader := by
  intro e e' s seam _
  rw [h s e' seam.halts.2, h s e seam.halts.1]

/-- What a piece that stops in front of a seam leaves. -/
theorem after_seam {piece s e : Text} (h : piece <+: s ++ e) (short : piece.length ≤ s.length) :
    ∃ t, s = piece ++ t ∧ ∀ rest, Text.after piece (s ++ rest) = t ++ rest := by
  obtain ⟨t, rfl⟩ := List.prefix_of_prefix_length_le h (List.prefix_append s e) short
  refine ⟨t, rfl, ?_⟩
  intro rest
  simp [Text.after]

theorem steady_followedBy {first second : Text → Text} (h : Steady first) (h' : Steady second)
    (piece : ∀ s, first s <+: s) : Steady (followedBy first second) := by
  intro e e' s seam short
  rw [followedBy, List.length_append] at short
  have same := h e e' s seam (by omega)
  obtain ⟨t, eq, behind⟩ := after_seam (piece (s ++ e)) (by omega)
  have size := congrArg List.length eq
  rw [List.length_append] at size
  rw [behind e] at short
  rw [followedBy, followedBy, same, behind e, behind e', h' e e' t seam (by omega)]

/-! ## Escapes and names -/

theorem newlineLength_cons (c : Char) (s : Text) : newlineLength (c :: s) =
    if c = '\r' ∧ startsWith (· == '\n') s = true then 2 else if isNewline c then 1 else 0 := by
  cases s with
  | nil => simp [newlineLength, startsWith]
  | cons d s =>
    by_cases crlf : c = '\r' ∧ d = '\n'
    · obtain ⟨rfl, rfl⟩ := crlf
      rfl
    · have other : ¬ (c = '\r' ∧ startsWith (· == '\n') (d :: s) = true) := by
        rwa [startsWith, beq_iff_eq]
      rw [if_neg other]
      unfold newlineLength
      split
      next eq =>
        obtain ⟨rfl, back⟩ := List.cons.inj eq
        exact absurd ⟨rfl, (List.cons.inj back).1⟩ crlf
      next eq => rw [(List.cons.inj eq).1]
      next eq => cases eq

theorem newlineLength_append {rest : Text} (hr : Halts rest) (s : Text) :
    newlineLength (s ++ rest) = newlineLength s := by
  cases s with
  | nil =>
    cases rest with
    | nil => rfl
    | cons c rest =>
      have none : ∀ c ∈ halts, c ≠ '\r' ∧ isNewline c = false := by decide
      obtain ⟨other, plain⟩ := none c (halts_cons.mp hr)
      rw [List.nil_append, newlineLength_cons, if_neg (fun h => other h.1), plain]
      rfl
  | cons c s =>
    rw [List.cons_append, newlineLength_cons, newlineLength_cons, startsWith_append hr (by decide)]

theorem escapeDigits_append {rest : Text} (hr : Halts rest) (s : Text) :
    escapeDigits (s ++ rest) = escapeDigits s := by
  have front : Halts (rest.take (6 - s.length)) := by
    cases rest with
    | nil => simpa using halts_nil
    | cons c rest =>
      cases 6 - s.length with
      | zero => exact halts_nil
      | succ n => exact halts_cons.mpr (halts_cons.mp hr)
  rw [escapeDigits, escapeDigits, List.take_append, takeWhile_append front (by decide)]

theorem escapeDigits_isPrefix (s : Text) : escapeDigits s <+: s :=
  (List.takeWhile_prefix _).trans (List.take_prefix 6 s)

/-- Behind the backslash something comes, or the escape reaches over the seam. -/
theorem escapeLength_append {rest : Text} (hr : Halts rest) {s : Text} (nonempty : s ≠ []) :
    escapeLength (s ++ rest) = escapeLength s := by
  have digits := escapeDigits_append hr s
  have piece := after_append (escapeDigits_isPrefix s) rest
  simp only [escapeLength, digits]
  cases eq : escapeDigits s with
  | nil => simp [nonempty]
  | cons d ds =>
    rw [eq] at piece
    simp only [piece, startsWith_append hr (by decide : ∀ c ∈ halts, isNewline c = false),
      startsWith_append hr (by decide : ∀ c ∈ halts, isSpace c = false), newlineLength_append hr]

theorem escapeLength_seam {e e' : Text} (seam : Seam e e') (s : Text)
    (short : escapeLength (s ++ e) ≤ s.length + 1) :
    escapeLength (s ++ e') = escapeLength (s ++ e) := by
  by_cases nonempty : s = []
  · subst nonempty
    have digits := escapeDigits_append seam.halts.1 []
    have none : escapeLength ([] ++ e) = 2 := by
      cases seam <;> simp only [escapeLength, digits] <;> rfl
    rw [none] at short
    cases short with
    | step h => cases h
  · rw [escapeLength_append seam.halts.1 nonempty, escapeLength_append seam.halts.2 nonempty]

/-- A measure is steady if it looks at the first character only where it halts, and if it is steady
behind any other. -/
theorem steadyUnit_of {unit : Text → Nat} (empty : unit [] = 0)
    (head : ∀ c ∈ halts, ∀ e e', unit (c :: e) = unit (c :: e'))
    (step : ∀ c s e e', Seam e e' → unit (c :: (s ++ e)) ≤ s.length + 1 →
      unit (c :: (s ++ e')) = unit (c :: (s ++ e))) : SteadyUnit unit := by
  intro e e' s seam short
  cases s with
  | cons c s => exact step c s e e' seam short
  | nil =>
    cases seam with
    | same h e e' => exact head _ h e' e
    | last e => exact empty.trans (Nat.le_zero.mp short).symm

theorem startsWith_seam {e e' : Text} (seam : Seam e e') {test : Char → Bool}
    (h : ∀ c ∈ halts, test c = false) (s : Text) :
    startsWith test (s ++ e') = startsWith test (s ++ e) := by
  rw [startsWith_append seam.halts.2 h, startsWith_append seam.halts.1 h]

/-- A measure that reads escapes, and what a backslash makes of a line break, and tells every other
character from itself. -/
theorem steadyUnit_of_escape {unit : Text → Nat} (bare : Text → Nat) (plain : Char → Nat)
    (empty : unit [] = 0) (cons : ∀ c s, unit (c :: s) =
      if c = '\\' then if startsWith isNewline s then bare s else escapeLength s else plain c)
    (broken : ∀ s rest, Halts rest → bare (s ++ rest) = bare s) : SteadyUnit unit := by
  refine steadyUnit_of empty ?_ ?_
  · intro c hc e e'
    have other : ∀ c ∈ halts, c ≠ '\\' := by decide
    rw [cons, cons, if_neg (other c hc), if_neg (other c hc)]
  · intro c s e e' seam short
    have newline := startsWith_seam seam (by decide : ∀ c ∈ halts, isNewline c = false) s
    rw [cons] at short
    rw [cons, cons, newline]
    by_cases backslash : c = '\\'
    · rw [if_pos backslash] at short ⊢
      rw [if_pos backslash]
      by_cases break_ : startsWith isNewline (s ++ e) = true
      · rw [if_pos break_, if_pos break_, broken s e' seam.halts.2, broken s e seam.halts.1]
      · rw [if_neg break_] at short ⊢
        rw [if_neg break_, escapeLength_seam seam s short]
    · rw [if_neg backslash, if_neg backslash]

theorem steady_nameUnit : SteadyUnit nameUnit :=
  steadyUnit_of_escape (fun _ => 0) (fun c => if isNameChar c then 1 else 0) rfl
    (fun _ _ => rfl) (fun _ _ _ => rfl)

theorem steady_name : Steady name := steady_run steady_nameUnit

/-! ## Numbers -/

theorem steady_unitOf : Steady unitOf := by
  intro e e' s seam short
  have percent := startsWith_seam seam (by decide : ∀ c ∈ halts, (c == '%') = false) s
  have ident := startsIdent_append seam.halts.1 s
  have ident' := startsIdent_append seam.halts.2 s
  simp only [unitOf, percent, ident, ident'] at short ⊢
  by_cases sign : startsWith (· == '%') (s ++ e) = true
  · rw [if_pos sign, if_pos sign]
    rw [startsWith_append seam.halts.1 (by decide)] at sign
    cases s with
    | nil => cases sign
    | cons c s => rfl
  · rw [if_neg sign] at short ⊢
    rw [if_neg sign]
    by_cases word : startsIdent s = true
    · rw [if_pos word] at short ⊢
      rw [if_pos word, steady_name e e' s seam short]
    · rw [if_neg word, if_neg word]

theorem steady_numberTail (c : Char) : Steady (numberTail c) := by
  have digits : Steady digits := steady_of_append fun s _ hr => digits_append hr s
  have exponent : Steady exponent := steady_of_append fun s _ hr => exponent_append hr s
  refine steady_followedBy digits (steady_followedBy ?_
    (steady_followedBy exponent steady_unitOf exponent_isPrefix) ?_) digits_isPrefix
  · split
    · exact steady_of_append fun _ _ _ => rfl
    · exact steady_of_append fun s _ hr => fraction_append hr s
  · split
    · exact fun _ => List.nil_prefix
    · exact fraction_isPrefix

/-! ## Strings and addresses -/

theorem steady_stringUnit (quote : Char) : SteadyUnit (stringUnit quote) :=
  steadyUnit_of_escape (fun s => 1 + newlineLength s)
    (fun c => if c = quote || isNewline c then 0 else 1) rfl
    (fun _ _ => rfl) (fun s rest hr => by rw [newlineLength_append hr])

theorem steady_urlUnit : SteadyUnit urlUnit :=
  steadyUnit_of_escape (fun _ => 0) (fun c => if c = ')' || c = '"' || c = '\'' ||
      c = '(' || isSpace c || isControl c then 0 else 1) rfl
    (fun _ _ => rfl) (fun _ _ _ => rfl)

theorem steady_brokenUrlUnit : SteadyUnit brokenUrlUnit := by
  refine steadyUnit_of rfl ?_ ?_
  · intro c hc e e'
    have other : ∀ c ∈ halts, c ≠ '\\' := by decide
    simp [brokenUrlUnit, other c hc]
  · intro c s e e' seam short
    rw [brokenUrlUnit, brokenUrlUnit, startsWith_seam seam (by decide)]

theorem steady_stringTail {quote : Char} (h : ∀ c ∈ halts, (c == quote) = false) :
    Steady (stringTail quote) := by
  intro e e' s seam short
  have inner : (Text.run (stringUnit quote) 0 (s ++ e)).length ≤ s.length := by
    simp only [stringTail] at short
    split at short
    · rw [List.length_append] at short
      omega
    · exact short
  have same := steady_run (steady_stringUnit quote) e e' s seam inner
  obtain ⟨t, -, behind⟩ := after_seam (Text.run_isPrefix _ _ _) inner
  simp only [stringTail, same, behind, startsWith_seam seam h]

theorem steady_closing : Steady closing := by
  intro e e' s seam _
  rw [closing, closing, startsWith_seam seam (by decide)]

theorem steady_urlEnd : Steady urlEnd := by
  intro e e' s seam short
  cases s with
  | nil =>
    have filled (c : Char) (e : Text) : 0 < (urlEnd (c :: e)).length := by
      rw [urlEnd]
      split <;> exact Nat.succ_pos _
    cases seam with
    | same _ e => exact absurd short (Nat.not_le.mpr (filled _ e))
    | last e => exact absurd short (Nat.not_le.mpr (filled '}' e))
  | cons c s =>
    have broken := steady_followedBy (steady_run steady_brokenUrlUnit) steady_closing
      (Text.run_isPrefix _ _) e e' s seam
    simp only [followedBy] at broken
    simp only [List.cons_append, urlEnd] at short ⊢
    split
    next => rfl
    next other =>
      rw [if_neg other, List.length_cons, List.length_cons] at short
      rw [broken (by omega)]

/-- What `urlTail?` reads where no quote comes first. -/
def urlText : Text → Text :=
  followedBy (·.takeWhile isSpace) (followedBy (Text.run urlUnit 0)
    (followedBy (·.takeWhile isSpace) urlEnd))

theorem after_takeWhile (test : Char → Bool) (s : Text) :
    Text.after (s.takeWhile test) s = s.dropWhile test := by
  have whole := congrArg (List.drop (s.takeWhile test).length)
    (List.takeWhile_append_dropWhile (p := test) (l := s))
  rwa [List.drop_left, eq_comm] at whole

theorem urlTail?_eq (s : Text) : urlTail? s =
    if startsWith (fun c => c == '"' || c == '\'') (s.dropWhile isSpace) then none
    else some (urlText s) := by
  simp only [urlTail?, urlText, followedBy, after_takeWhile, List.append_assoc]

theorem steady_urlText : Steady urlText := by
  have spaces : Steady fun s => s.takeWhile isSpace :=
    steady_of_append fun s _ hr => takeWhile_append hr (by decide) s
  exact steady_followedBy spaces (steady_followedBy (steady_run steady_urlUnit)
    (steady_followedBy spaces steady_urlEnd fun s => List.takeWhile_prefix _)
    (Text.run_isPrefix _ _)) fun s => List.takeWhile_prefix _

theorem dropWhile_append {test : Char → Bool} {rest : Text} (hr : Halts rest)
    (h : ∀ c ∈ halts, test c = false) (s : Text) :
    (s ++ rest).dropWhile test = s.dropWhile test ++ rest := by
  have piece := after_append (List.takeWhile_prefix test (l := s)) rest
  rwa [after_takeWhile, ← takeWhile_append hr h, after_takeWhile] at piece

theorem urlTail?_seam {e e' : Text} (seam : Seam e e') (s : Text)
    (short : ∀ tail ∈ urlTail? (s ++ e), tail.length ≤ s.length) :
    urlTail? (s ++ e') = urlTail? (s ++ e) := by
  have quoted := startsWith_seam seam
    (by decide : ∀ c ∈ halts, (c == '"' || c == '\'') = false) (s.dropWhile isSpace)
  rw [← dropWhile_append seam.halts.1 (by decide), ← dropWhile_append seam.halts.2 (by decide)]
    at quoted
  rw [urlTail?_eq] at short
  rw [urlTail?_eq, urlTail?_eq, quoted]
  split
  next => rfl
  next other =>
    rw [if_neg other] at short
    rw [steady_urlText e e' s seam (short _ rfl)]

/-! ## Tokens -/

theorem wordToken_ident {s : Text} (h : startsWith (· == '(') (Text.after (name s) s) = false) :
    wordToken s = (.ident, name s) := by
  simp only [wordToken]
  split
  next rest eq =>
    rw [eq] at h
    cases h
  next => rfl

theorem wordToken_call {s rest : Text} (h : Text.after (name s) s = '(' :: rest) :
    wordToken s = match (if saysUrl (name s) then urlTail? rest else none) with
      | some tail => (.url, name s ++ '(' :: tail)
      | none => (.function, name s ++ ['(']) := by
  simp only [wordToken, h]
  cases saysUrl (name s) with
  | false => rfl
  | true => cases urlTail? rest <;> rfl

theorem startsWith_cases {c : Char} {s : Text} :
    startsWith (· == c) s = false ∨ ∃ rest, s = c :: rest := by
  cases s with
  | nil => exact .inl rfl
  | cons d s =>
    by_cases same : d = c
    · subst same
      exact .inr ⟨s, rfl⟩
    · exact .inl (beq_false_of_ne same)

theorem length_name_le (s : Text) : (name s).length ≤ (wordToken s).2.length := by
  rcases startsWith_cases (c := '(') (s := Text.after (name s) s) with ident | ⟨rest, call⟩
  · exact Nat.le_of_eq (by rw [wordToken_ident ident])
  · rw [wordToken_call call]
    split <;> simp

theorem wordToken_seam {e e' : Text} (seam : Seam e e') (s : Text)
    (short : (wordToken (s ++ e)).2.length ≤ s.length) :
    wordToken (s ++ e') = wordToken (s ++ e) := by
  have word := Nat.le_trans (length_name_le (s ++ e)) short
  have same := steady_name e e' s seam word
  obtain ⟨t, whole, behind⟩ := after_seam (name_isPrefix (s ++ e)) word
  have size := congrArg List.length whole
  rw [List.length_append] at size
  have noparen : ∀ c ∈ halts, (c == '(') = false := by decide
  have paren := startsWith_append seam.halts.1 noparen t
  have paren' := startsWith_append seam.halts.2 noparen t
  rcases startsWith_cases (c := '(') (s := t) with ident | ⟨t, rfl⟩
  · rw [wordToken_ident, wordToken_ident, same]
    · rw [behind, paren, ident]
    · rw [same, behind, paren', ident]
  · have call : Text.after (name (s ++ e)) (s ++ e) = '(' :: (t ++ e) := behind e
    have call' : Text.after (name (s ++ e')) (s ++ e') = '(' :: (t ++ e') := by
      rw [same]
      exact behind e'
    rw [wordToken_call call] at short
    rw [wordToken_call call', wordToken_call call, same]
    by_cases url : saysUrl (name (s ++ e)) = true
    · rw [if_pos url] at short ⊢
      rw [if_pos url, urlTail?_seam seam]
      intro tail found
      rw [Option.mem_def] at found
      rw [found] at short
      simp only [List.length_append, List.length_cons] at short size
      omega
    · rw [if_neg url, if_neg url]

/-- The contents of a comment and its end, by the text after its opening. -/
def commentTail (s : Text) : Text := (commentBody s).1 ++ commentEnd (commentBody s).2

/-- A comment that ends in front of a seam is closed, and ends there whatever follows. -/
theorem commentBody_seam {e e' : Text} (seam : Seam e e') (s : Text)
    (short : (commentTail (s ++ e)).length ≤ s.length) :
    commentBody (s ++ e') = commentBody (s ++ e) := by
  have piece : commentTail (s ++ e) <+: s ++ e := commentBody_isPrefix (s ++ e)
  have no_end := commentBody_no_end (s ++ e)
  have all := commentBody_unclosed (s := s ++ e)
  rw [commentTail] at short piece
  generalize commentBody (s ++ e) = comment at short piece no_end all ⊢
  obtain ⟨body, closed⟩ := comment
  cases closed with
  | false =>
    have size := congrArg List.length (all rfl)
    have := seam.length_pos
    rw [List.length_append] at size short
    omega
  | true =>
    obtain ⟨t, rfl⟩ := List.prefix_of_prefix_length_le piece (List.prefix_append s e) short
    rw [List.append_assoc, List.append_assoc]
    exact commentBody_append no_end (t ++ e')

theorem punctuation_seam {e e' : Text} (seam : Seam e e') (c : Char) (s : Text)
    (short : (punctuation c (s ++ e)).2.length ≤ s.length) :
    punctuation c (s ++ e') = punctuation c (s ++ e) := by
  have ident := startsIdent_append seam.halts.1 s
  have ident' := startsIdent_append seam.halts.2 s
  have word := steady_name e e' s seam
  have equals := startsWith_seam seam (by decide : ∀ c ∈ halts, (c == '=') = false) s
  have nostar : ∀ c ∈ halts, (c == '*') = false := by decide
  have star := startsWith_append seam.halts.1 nostar s
  have star' := startsWith_append seam.halts.2 nostar s
  unfold punctuation at short ⊢
  split at short
  case h_1 | h_2 =>
    exact congrArg _ (steady_stringTail (by decide) e e' s seam short)
  case h_3 =>
    rw [ident, startsWith_append seam.halts.1 (by decide)] at short ⊢
    rw [ident', startsWith_append seam.halts.2 (by decide)]
    split at short
    next names => rw [if_pos names, if_pos names, word short]
    next other => rw [if_neg other, if_neg other]
  case h_4 =>
    rw [ident] at short ⊢
    rw [ident']
    split at short
    next names => rw [if_pos names, if_pos names, word short]
    next other => rw [if_neg other, if_neg other]
  case h_5 =>
    rw [star] at short ⊢
    rw [star']
    cases s with
    | nil => rfl
    | cons d s =>
      simp only [List.cons_append, List.drop_succ_cons, List.drop_zero] at short ⊢
      split at short
      next comments =>
        rw [if_pos comments, if_pos comments,
          commentBody_seam seam s (Nat.le_of_succ_le_succ short)]
      next other => rw [if_neg other, if_neg other]
  case h_6 =>
    rw [isPrefixOf_append seam.halts.1 (by decide), isPrefixOf_append seam.halts.2 (by decide)]
  case h_7 | h_8 | h_9 | h_10 | h_11 => rw [equals]
  all_goals rfl

/-- A token that ends in front of a seam is the same whatever follows. -/
theorem lexeme_seam {e e' : Text} (seam : Seam e e') (c : Char) (s : Text)
    (short : (lexeme c (s ++ e)).2.length ≤ s.length) :
    lexeme c (s ++ e') = lexeme c (s ++ e) := by
  have number := startsNumber_append seam.halts.1 c s
  have number' := startsNumber_append seam.halts.2 c s
  have noarrow : ∀ c ∈ ['-', '>'], c ∉ halts := by decide
  have arrow := isPrefixOf_append seam.halts.1 noarrow s
  have arrow' := isPrefixOf_append seam.halts.2 noarrow s
  have ident := startsIdent_append seam.halts.1 (c :: s)
  have ident' := startsIdent_append seam.halts.2 (c :: s)
  rw [List.cons_append] at ident ident'
  simp only [lexeme, number, number', arrow, arrow', ident, ident'] at short ⊢
  split at short
  next space => rw [if_pos space, if_pos space]
  next space =>
    rw [if_neg space, if_neg space]
    split at short
    next starts => rw [if_pos starts, if_pos starts, steady_numberTail c e e' s seam short]
    next starts =>
      rw [if_neg starts, if_neg starts]
      split at short
      next is => rw [if_pos is, if_pos is]
      next is =>
        rw [if_neg is, if_neg is]
        split at short
        next word =>
          have whole := wordToken_seam seam (c :: s)
          rw [List.cons_append, List.cons_append] at whole
          rw [if_pos word, if_pos word, whole]
          rw [List.length_tail] at short
          rw [List.length_cons]
          omega
        next word => rw [if_neg word, if_neg word, punctuation_seam seam c s short]

end BemSheet.Css
