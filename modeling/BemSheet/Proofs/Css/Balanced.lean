import BemSheet.Proofs.Css.Locality

/-!
Tokens whose brackets match make a forest of their own, whatever follows them.

* `lexeme_written`: in a plain text, only brackets and the characters that end or start a statement
  matter, and their tokens show them.
* `ofTokens_of_matched`: tokens that leave no bracket open are grouped apart from what follows, and
  no statement ends or starts among the groups.
-/

namespace BemSheet.Css

/-! ## The tokens of plain texts -/

/-- Kinds, apart from white space, whose tokens hold no bracket and neither end nor start a
statement. -/
def Kind.isOrdinary : Kind → Bool
  | .ident | .hash | .number | .commentOpen | .commentClose | .matching | .colon | .comma
  | .delim => true
  | _ => false

/-- How the tokens of a plain text are written. -/
inductive Written : Kind → Text → Prop
  | space (c : Char) (h : isSpace c = true) : Written .space [c]
  | function (word : Text) (h : ∀ c ∈ word, c ∉ special) : Written .function (word ++ ['('])
  | opener (bracket : Bracket) : Written (.opener bracket) [bracket.left]
  | closer (bracket : Bracket) : Written (.closer bracket) [bracket.right]
  | semicolon : Written .semicolon [';']
  | atKeyword (word : Text) (h : ∀ c ∈ word, c ∉ special) : Written .atKeyword ('@' :: word)
  | atSign : Written .delim ['@']
  | ordinary (kind : Kind) (text : Text) (ordinary : kind.isOrdinary = true)
      (h : ∀ c ∈ text, c ∉ special) : Written kind text

theorem takeWhile_not_special {test : Char → Bool} (none : ∀ c ∈ special, test c = false)
    (s : Text) : ∀ c ∈ s.takeWhile test, c ∉ special := by
  intro c hc
  exact not_special_of none (List.all_eq_true.mp List.all_takeWhile c hc)

theorem take_not_special {test : Char → Bool} (none : ∀ c ∈ special, test c = false) {s : Text}
    (h : startsWith test s = true) : ∀ c ∈ s.take 1, c ∉ special := by
  cases s with
  | nil => nofun
  | cons d s =>
    intro c hc
    rw [List.take_succ_cons, List.take_zero, List.mem_singleton] at hc
    exact hc ▸ not_special_of none h

/-- A reader that takes no special character from a text without hiding characters. -/
def Neutral (reader : Text → Text) : Prop :=
  ∀ s, (∀ c ∈ s, isHiding c = false) → ∀ c ∈ reader s, c ∉ special

theorem name_neutral : Neutral name := by
  intro s shown
  rw [name_eq_takeWhile shown]
  exact takeWhile_not_special (by decide) s

theorem digits_neutral : Neutral digits := by
  intro s _
  exact takeWhile_not_special (by decide) s

theorem followedBy_neutral {first second : Text → Text} (h : Neutral first) (h' : Neutral second) :
    Neutral (followedBy first second) := by
  intro s shown c hc
  rcases List.mem_append.mp hc with hc | hc
  · exact h s shown c hc
  · exact h' _ (shown_of_suffix shown (after_suffix _ s)) c hc

theorem fraction_neutral : Neutral fraction := by
  intro s shown c hc
  unfold fraction at hc
  by_cases starts : startsFraction s = true
  · rw [if_pos starts] at hc
    have point : startsWith (· == '.') s = true := by
      unfold startsFraction at starts
      split at starts
      · rfl
      · cases starts
    rcases List.mem_append.mp hc with hc | hc
    · exact take_not_special (by decide) point c hc
    · exact digits_neutral _ (shown_of_suffix shown (List.drop_suffix 1 s)) c hc
  · rw [if_neg starts] at hc
    cases hc

theorem exponent_neutral : Neutral exponent := by
  intro s shown c hc
  simp only [exponent] at hc
  split at hc
  next letter =>
    have first := take_not_special (by decide) letter
    split at hc
    next =>
      rcases List.mem_append.mp hc with hc | hc
      · exact first c hc
      · exact digits_neutral _ (shown_of_suffix shown (List.drop_suffix 1 s)) c hc
    next =>
      split at hc
      next sign =>
        rw [Bool.and_eq_true] at sign
        have second := take_not_special (by decide) sign.1
        rw [List.take_add (i := 1) (j := 1), List.append_assoc] at hc
        rcases List.mem_append.mp hc with hc | hc
        · exact first c hc
        · rcases List.mem_append.mp hc with hc | hc
          · exact second c hc
          · exact digits_neutral _ (shown_of_suffix shown (List.drop_suffix 2 s)) c hc
      next => cases hc
  next => cases hc

theorem unitOf_neutral : Neutral unitOf := by
  intro s shown c hc
  unfold unitOf at hc
  by_cases percent : startsWith (· == '%') s = true
  · rw [if_pos percent] at hc
    exact take_not_special (by decide) percent c hc
  · rw [if_neg percent] at hc
    by_cases ident : startsIdent s = true
    · rw [if_pos ident] at hc
      exact name_neutral s shown c hc
    · rw [if_neg ident] at hc
      cases hc

theorem numberTail_neutral (c : Char) : Neutral (numberTail c) := by
  refine followedBy_neutral digits_neutral
    (followedBy_neutral ?_ (followedBy_neutral exponent_neutral unitOf_neutral))
  split
  · intro s _
    nofun
  · exact fraction_neutral

theorem not_special_of_startsNumber {c : Char} {s : Text} (h : startsNumber c s = true) :
    c ∉ special := by
  have none : ∀ d ∈ special, isSign d = false ∧ d.isDigit = false ∧ d ≠ '.' := by decide
  intro hc
  obtain ⟨nosign, nodigit, nopoint⟩ := none c hc
  simp [startsNumber, nosign, nodigit, startsFraction_of_ne nopoint] at h

theorem isNameChar_of_startsIdent {c : Char} {s : Text} (shown : isHiding c = false)
    (h : startsIdent (c :: s) = true) : isNameChar c = true := by
  rw [startsIdent, if_neg (not_backslash shown)] at h
  by_cases hyphen : c = '-'
  · rw [hyphen]
    rfl
  · rw [if_neg hyphen] at h
    simp [isNameChar, h]

theorem wordToken_written {c : Char} {s : Text} (h : Plain (c :: s))
    (starts : startsIdent (c :: s) = true) :
    Written (wordToken (c :: s)).1 (c :: (wordToken (c :: s)).2.tail) := by
  have first := isNameChar_of_startsIdent (h.shown c List.mem_cons_self) starts
  have word : name (c :: s) = c :: s.takeWhile isNameChar := by
    rw [name_eq_takeWhile h.shown, List.takeWhile_cons_of_pos first]
  have neutral := name_neutral (c :: s) h.shown
  rw [wordToken_of_plain h]
  rw [word] at neutral ⊢
  split
  · exact .function _ neutral
  · exact .ordinary _ _ rfl neutral

theorem punctuation_written {c : Char} {s : Text} (h : Plain (c :: s)) :
    Written (punctuation c s).1 (c :: (punctuation c s).2) := by
  obtain ⟨first, others⟩ := List.forall_mem_cons.mp h.shown
  have single {kind : Kind} (ordinary : kind.isOrdinary = true) (hc : c ∉ special) :
      Written kind [c] := .ordinary kind [c] ordinary (by simpa using hc)
  unfold punctuation
  split
  case h_1 | h_2 | h_5 => cases first
  case h_3 =>
    split
    · exact .ordinary _ _ rfl (List.forall_mem_cons.mpr ⟨by decide, name_neutral s others⟩)
    · exact single rfl (by decide)
  case h_4 =>
    split
    · exact .atKeyword _ (name_neutral s others)
    · exact .atSign
  case h_6 =>
    split
    · exact .ordinary _ _ rfl (by decide)
    · exact single rfl (by decide)
  case h_7 | h_8 | h_9 | h_10 | h_11 =>
    split
    · exact .ordinary _ _ rfl (by decide)
    · exact single rfl (by decide)
  case h_12 | h_14 => exact single rfl (by decide)
  case h_13 => exact .semicolon
  case h_15 => exact .opener .round
  case h_16 => exact .opener .square
  case h_17 => exact .opener .curly
  case h_18 => exact .closer .round
  case h_19 => exact .closer .square
  case h_20 => exact .closer .curly
  case h_21 =>
    refine single rfl ?_
    simp only [special, List.mem_cons, List.not_mem_nil, or_false, not_or]
    simp_all

/-- The first token of a plain text is written as its kind says. -/
theorem lexeme_written {c : Char} {s : Text} (h : Plain (c :: s)) :
    Written (lexeme c s).1 (c :: (lexeme c s).2) := by
  obtain ⟨shown, others⟩ := List.forall_mem_cons.mp h.shown
  have first := firstToken_lexeme c s
  generalize lexeme c s = token at first ⊢
  cases first with
  | space space => exact .space c space
  | number number =>
    exact .ordinary _ _ rfl (List.forall_mem_cons.mpr
      ⟨not_special_of_startsNumber number, numberTail_neutral c s others⟩)
  | arrow arrow =>
    subst arrow
    exact .ordinary _ _ rfl (by decide)
  | word ident => exact wordToken_written h ident
  | punctuation => exact punctuation_written h

theorem tokensFrom_written {s : Text} (h : Plain s) (p : Cursor) :
    ∀ t ∈ tokensFrom p 0 s, Written t.kind t.text := by
  match s, h with
  | [], _ => nofun
  | c :: s, h =>
    have smaller : (Text.after (lexeme c s).2 s).length ≤ s.length := (after_suffix _ s).length_le
    have plain : Plain (Text.after (lexeme c s).2 s) :=
      h.of_suffix ((after_suffix _ s).trans (List.suffix_cons c s))
    rw [tokensFrom_piece]
    exact List.forall_mem_cons.mpr ⟨lexeme_written h, tokensFrom_written plain _⟩
termination_by s.length
decreasing_by
  rw [List.length_cons]
  omega

/-! ## Brackets of tokens -/

/-- A token that neither ends nor starts a statement, unless it is the first after a gap. -/
structure Token.Inner (t : Token) : Prop where
  no_semicolon : t.kind ≠ .semicolon
  no_keyword : t.kind ≠ .atKeyword
  no_comment : ∀ body closed, t.kind ≠ .comment body closed
  starts_of_space : t.kind = .space → startsWith isSpace t.text = true

theorem Token.inner_of_isOrdinary {t : Token} (h : t.kind.isOrdinary = true) : t.Inner := by
  constructor
  case no_comment =>
    intro body closed kind
    rw [kind] at h
    cases h
  all_goals
    intro kind
    rw [kind] at h
    cases h

/-- What a token does to the open brackets: it opens one, closes the innermost, or leaves them. -/
theorem Token.brackets {t : Token} (h : Written t.kind t.text) {opened after : List Bracket}
    (reads : openAfter? opened t.text = some after) :
    (∃ b, t.opens? = some b ∧ after = b :: opened ∧ (b = .curly → opened ≠ [])) ∨
    (∃ b, t.opens? = none ∧ t.kind = .closer b ∧ opened = b :: after) ∨
    (t.opens? = none ∧ (∀ b, t.kind ≠ .closer b) ∧ after = opened ∧ (opened = [] → t.Inner)) := by
  obtain ⟨kind, text, start⟩ := t
  simp only at h reads
  cases h with
  | space c space =>
    rw [openAfter?_singleton, openAfterChar?_of_neutral (not_special_of (by decide) space)] at reads
    exact .inr (.inr ⟨rfl, nofun, (Option.some.inj reads).symm, fun _ => ⟨nofun, nofun, nofun,
      fun _ => space⟩⟩)
  | function word neutral =>
    rw [openAfter?_append, openAfter?_of_neutral neutral, Option.bind_some] at reads
    rw [openAfter?_singleton] at reads
    exact .inl ⟨.round, rfl, openAfterChar?_left (b := .round) reads⟩
  | opener bracket =>
    rw [openAfter?_singleton] at reads
    exact .inl ⟨bracket, rfl, openAfterChar?_left reads⟩
  | closer bracket =>
    rw [openAfter?_singleton] at reads
    exact .inr (.inl ⟨bracket, rfl, rfl, openAfterChar?_right reads⟩)
  | semicolon =>
    rw [openAfter?_singleton] at reads
    obtain ⟨same, nonempty⟩ := openAfterChar?_guarded reads (.inl rfl)
    exact .inr (.inr ⟨rfl, nofun, same, fun empty => absurd empty nonempty⟩)
  | atKeyword word neutral =>
    rw [openAfter?_cons] at reads
    obtain ⟨middle, first, others⟩ := Option.bind_eq_some_iff.mp reads
    obtain ⟨rfl, nonempty⟩ := openAfterChar?_guarded first (.inr rfl)
    rw [openAfter?_of_neutral neutral] at others
    exact .inr (.inr ⟨rfl, nofun, (Option.some.inj others).symm,
      fun empty => absurd empty nonempty⟩)
  | atSign =>
    rw [openAfter?_singleton] at reads
    exact .inr (.inr ⟨rfl, nofun, (openAfterChar?_guarded reads (.inr rfl)).1,
      fun _ => inner_of_isOrdinary rfl⟩)
  | ordinary _ _ ordinary neutral =>
    rw [openAfter?_of_neutral neutral] at reads
    refine .inr (.inr ⟨?_, ?_, (Option.some.inj reads).symm, fun _ => inner_of_isOrdinary ordinary⟩)
    · cases kind <;> first | rfl | cases ordinary
    · rintro b rfl
      cases ordinary

/-! ## Groups of tokens -/

namespace Forest

/-- One forest after another. -/
def append : Forest → Forest → Forest
  | nil, g => g
  | leaf token rest, g => leaf token (rest.append g)
  | block opener body closer rest, g => block opener body closer (rest.append g)

@[simp] theorem append_nil (f : Forest) : f.append nil = f := by
  induction f with
  | nil => rfl
  | leaf token rest ih => rw [append, ih]
  | block opener body closer rest _ ih => rw [append, ih]

theorem append_assoc (f g h : Forest) : (f.append g).append h = f.append (g.append h) := by
  induction f with
  | nil => rfl
  | leaf token rest ih => rw [append, append, append, ih]
  | block opener body closer rest _ ih => rw [append, append, append, ih]

/-- A forest in which no statement ends or starts. -/
def Flat : Forest → Prop
  | nil => True
  | leaf token rest => token.Inner ∧ rest.Flat
  | block opener _ _ rest => opener.kind ≠ .opener .curly ∧ rest.Flat

end Forest

namespace Continuation

@[simp] theorem change_change (g h : Forest → Forest) {opened : List Bracket}
    (c : Continuation opened) : change g (change h c) = change (fun f => g (h f)) c := by
  cases opened <;> rfl

theorem change_id {opened : List Bracket} (c : Continuation opened) :
    change (fun f => f) c = c := by
  cases opened <;> rfl

theorem ofTokens_opener {t : Token} {b : Bracket} (h : t.opens? = some b) (opened : List Bracket)
    (tokens : List Token) : ofTokens opened (t :: tokens) =
      change (.block t (ofTokens (b :: opened) tokens).1.1 (ofTokens (b :: opened) tokens).1.2)
        (ofTokens (b :: opened) tokens).2 := by
  rw [ofTokens.eq_def]
  simp only [h]
  rfl

theorem ofTokens_closer {t : Token} {b : Bracket} (h : t.opens? = none)
    (closes : t.kind = .closer b) (outer : List Bracket) (tokens : List Token) :
    ofTokens (b :: outer) (t :: tokens) = ((.nil, some t), ofTokens outer tokens) := by
  rw [ofTokens.eq_def]
  simp only [h, closes, ↓reduceIte]
  rfl

/-- A token that opens no bracket and does not close the innermost one is a leaf. -/
theorem ofTokens_leaf {t : Token} (h : t.opens? = none) {opened : List Bracket}
    (closes : ∀ b ∈ opened.head?, t.kind ≠ .closer b) (tokens : List Token) :
    ofTokens opened (t :: tokens) = change (.leaf t) (ofTokens opened tokens) := by
  cases opened with
  | nil =>
    rw [ofTokens.eq_def]
    simp only [h]
  | cons b outer =>
    rw [ofTokens.eq_def]
    simp only [h, closes b rfl, ↓reduceIte]

theorem ofTokens_inner {t : Token} (h : t.opens? = none) (closes : ∀ b, t.kind ≠ .closer b)
    (opened : List Bracket) (tokens : List Token) :
    ofTokens opened (t :: tokens) = change (.leaf t) (ofTokens opened tokens) :=
  ofTokens_leaf h (fun b _ => closes b) tokens

end Continuation

/-- The text of some tokens. -/
def textOf (tokens : List Token) : Text := tokens.flatMap Token.text

/-- Tokens that close a bracket and all that are opened after it form the body of a block, then the
closer, and then fewer tokens for the brackets further out. -/
theorem ofTokens_of_closing {tokens : List Token} (written : ∀ t ∈ tokens, Written t.kind t.text)
    {b : Bracket} {opened : List Bracket} (h : openAfter? (b :: opened) (textOf tokens) = some []) :
    ∃ body closer others, others <:+ tokens ∧ others.length < tokens.length ∧
      openAfter? opened (textOf others) = some [] ∧
      body.text ++ closer.text ++ textOf others = textOf tokens ∧
      ∀ outer rest, Continuation.ofTokens (b :: (opened ++ outer)) (tokens ++ rest) =
        ((body, some closer), Continuation.ofTokens (opened ++ outer) (others ++ rest)) := by
  match tokens, written with
  | [], _ => cases h
  | t :: tokens, written =>
    obtain ⟨first, written⟩ := List.forall_mem_cons.mp written
    have split : textOf (t :: tokens) = t.text ++ textOf tokens := List.flatMap_cons
    rw [split, openAfter?_append] at h
    obtain ⟨after, reads, h⟩ := Option.bind_eq_some_iff.mp h
    rcases Token.brackets first reads with ⟨b', opens, rfl, -⟩ | ⟨b', opens, closes, eq⟩ |
      ⟨opens, closes, rfl, -⟩
    · obtain ⟨inner, close, others, suffix, smaller, h, text, grouped⟩ :=
        ofTokens_of_closing written h
      obtain ⟨body, closer, others', suffix', smaller', h, text', grouped'⟩ :=
        ofTokens_of_closing (fun t ht => written t (suffix.subset ht)) h
      refine ⟨.block t inner (some close) body, closer, others',
        (suffix'.trans suffix).trans (List.suffix_cons t tokens), ?_, h, ?_, ?_⟩
      · rw [List.length_cons]
        omega
      · rw [split, ← text, ← text']
        simp [Forest.text, Forest.closerText]
      · intro outer rest
        have whole : Continuation.ofTokens (b' :: b :: (opened ++ outer)) (tokens ++ rest) =
            ((inner, some close),
              Continuation.ofTokens (b :: (opened ++ outer)) (others ++ rest)) :=
          grouped outer rest
        rw [List.cons_append, Continuation.ofTokens_opener opens, whole, grouped' outer rest]
        rfl
    · obtain ⟨rfl, rfl⟩ := List.cons.inj eq
      refine ⟨.nil, t, tokens, List.suffix_cons t tokens, by simp, h,
        by simp [split, Forest.text], ?_⟩
      intro outer rest
      rw [List.cons_append, Continuation.ofTokens_closer opens closes]
    · obtain ⟨body, closer, others, suffix, smaller, h, text, grouped⟩ :=
        ofTokens_of_closing written h
      refine ⟨.leaf t body, closer, others, suffix.trans (List.suffix_cons t tokens), ?_, h, ?_,
        ?_⟩
      · rw [List.length_cons]
        omega
      · rw [split, ← text]
        simp [Forest.text]
      · intro outer rest
        rw [List.cons_append, Continuation.ofTokens_inner opens closes, grouped outer rest]
        rfl
termination_by tokens.length

/-- Tokens that leave no bracket open form a forest apart from what follows. -/
theorem ofTokens_of_matched {tokens : List Token} (written : ∀ t ∈ tokens, Written t.kind t.text)
    (h : openAfter? [] (textOf tokens) = some []) :
    ∃ forest : Forest, forest.Flat ∧ forest.text = textOf tokens ∧
      ∀ outer rest, Continuation.ofTokens outer (tokens ++ rest) =
        Continuation.change forest.append (Continuation.ofTokens outer rest) := by
  match tokens, written with
  | [], _ =>
    refine ⟨.nil, trivial, rfl, ?_⟩
    intro outer rest
    exact (Continuation.change_id _).symm
  | t :: tokens, written =>
    obtain ⟨first, written⟩ := List.forall_mem_cons.mp written
    have split : textOf (t :: tokens) = t.text ++ textOf tokens := List.flatMap_cons
    rw [split, openAfter?_append] at h
    obtain ⟨after, reads, h⟩ := Option.bind_eq_some_iff.mp h
    rcases Token.brackets first reads with ⟨b, opens, rfl, nocurly⟩ | ⟨b, -, -, eq⟩ |
      ⟨opens, closes, rfl, inner⟩
    · obtain ⟨body, closer, others, suffix, smaller, h, text, grouped⟩ :=
        ofTokens_of_closing written h
      obtain ⟨forest, flat, text', grouped'⟩ :=
        ofTokens_of_matched (fun t ht => written t (suffix.subset ht)) h
      refine ⟨.block t body (some closer) forest, ⟨?_, flat⟩, ?_, ?_⟩
      · intro curly
        rw [Token.opens?, curly] at opens
        exact nocurly (Option.some.inj opens).symm rfl
      · rw [split, ← text, ← text']
        simp [Forest.text, Forest.closerText]
      · intro outer rest
        have whole : Continuation.ofTokens (b :: outer) (tokens ++ rest) =
            ((body, some closer), Continuation.ofTokens outer (others ++ rest)) :=
          grouped outer rest
        rw [List.cons_append, Continuation.ofTokens_opener opens, whole, grouped' outer rest,
          Continuation.change_change]
        rfl
    · cases eq
    · obtain ⟨forest, flat, text, grouped⟩ := ofTokens_of_matched written h
      refine ⟨.leaf t forest, ⟨inner rfl, flat⟩, ?_, ?_⟩
      · rw [split, ← text]
        rfl
      · intro outer rest
        rw [List.cons_append, Continuation.ofTokens_inner opens closes, grouped outer rest,
          Continuation.change_change]
        rfl
termination_by tokens.length
decreasing_by
  · rw [List.length_cons]
    omega
  · rw [List.length_cons]
    omega

end BemSheet.Css
