import BemSheet.Proofs.Css.Balanced

/-!
Pieces of a style sheet that are grouped apart from what follows them.

A piece `Groups` into a forest if, in front of every text that satisfies `follow`, its tokens and
blocks are those of the forest. Pieces compose (`Groups.append`), and the parts of a style sheet are
such pieces: gaps, texts with matched brackets, at-keywords, bodies and comments.
-/

namespace BemSheet.Css

open Continuation

/-- White space and semicolons. -/
def Gap (s : Text) : Prop := ∀ c ∈ s, isSpace c = true ∨ c = ';'

instance (s : Text) : Decidable (Gap s) :=
  inferInstanceAs (Decidable (∀ c ∈ s, isSpace c = true ∨ c = ';'))

/-- In front of a text that satisfies `follow`, a piece that starts at `p` has the groups of a
forest. -/
def Groups (p : Cursor) (s : Text) (follow : Text → Prop) (f : Forest) : Prop :=
  ∀ opened rest, follow rest → ofTokens opened (tokensFrom p 0 (s ++ rest)) =
    change f.append (ofTokens opened (tokensFrom (p.through s) 0 rest))

namespace Groups

variable {p : Cursor} {a b s : Text} {follow follow' : Text → Prop} {f g : Forest}

theorem nil (p : Cursor) : Groups p [] follow .nil := by
  intro opened rest _
  exact (change_id _).symm

theorem append (h : Groups p a follow f) (h' : Groups (p.through a) b follow' g)
    (next : ∀ rest, follow' rest → follow (b ++ rest)) :
    Groups p (a ++ b) follow' (f.append g) := by
  intro opened rest hr
  rw [List.append_assoc, h opened _ (next rest hr), h' opened rest hr, change_change,
    Cursor.through_append]
  congr 1
  funext k
  exact (Forest.append_assoc f g k).symm

theorem weaken (h : Groups p s follow f) (imp : ∀ rest, follow' rest → follow rest) :
    Groups p s follow' f := by
  intro opened rest hr
  exact h opened rest (imp rest hr)

/-- A text with nothing after it. -/
theorem forest_eq (h : Groups p s follow f) (stop : follow []) :
    Forest.ofTokens (tokensFrom p 0 s) = f := by
  have whole := h [] [] stop
  rw [List.append_nil] at whole
  rw [Forest.ofTokens, whole]
  exact Forest.append_nil f

/-- A token that is no bracket is a piece. -/
theorem token {c : Char} {kind : Kind} {tail : Text}
    (lex : ∀ rest, follow rest → lexeme c (tail ++ rest) = (kind, tail))
    (opens : (⟨kind, c :: tail, p.location⟩ : Token).opens? = none)
    (closes : ∀ b, kind ≠ .closer b) :
    Groups p (c :: tail) follow (.leaf ⟨kind, c :: tail, p.location⟩ .nil) := by
  intro opened rest hr
  rw [List.cons_append, tokensFrom_piece, lex rest hr]
  simp only [Text.after, List.drop_left]
  exact ofTokens_inner opens closes opened _

/-- White space and semicolons only add to the gap before what follows. -/
theorem gap (h : Gap s) (p : Cursor) : ∃ f, Groups p s (fun _ => True) f ∧
    ∀ g, Outline.ofForest (f.append g) = (Outline.ofForest g).prepend s := by
  induction s generalizing p with
  | nil =>
    refine ⟨.nil, .nil p, ?_⟩
    intro g
    rw [Forest.append]
    cases Outline.ofForest g <;> rfl
  | cons c s ih =>
    obtain ⟨first, others⟩ := List.forall_mem_cons.mp h
    obtain ⟨f, grouped, outlined⟩ := ih others (p.through [c])
    have one : ∃ kind, (kind = .space ∨ kind = .semicolon) ∧
        ∀ rest, lexeme c rest = (kind, []) := by
      rcases first with space | rfl
      · exact ⟨.space, .inl rfl, lexeme_of_isSpace space⟩
      · exact ⟨.semicolon, .inr rfl, fun _ => rfl⟩
    obtain ⟨kind, is, lex⟩ := one
    refine ⟨.leaf ⟨kind, [c], p.location⟩ f, ?_, ?_⟩
    · have first : Groups p [c] (fun _ => True) (.leaf ⟨kind, [c], p.location⟩ .nil) := by
        apply token
        · intro rest _
          exact lex rest
        · rcases is with rfl | rfl <;> rfl
        · intro b closes
          rcases is with rfl | rfl <;> cases closes
      exact first.append grouped fun _ _ => trivial
    · intro g
      have step : Outline.ofForest (.leaf ⟨kind, [c], p.location⟩ (f.append g)) =
          (Outline.ofForest (f.append g)).prepend [c] := by
        rw [Outline.ofForest]
        rcases is with rfl | rfl <;> rfl
      rw [Forest.append, step, outlined]
      cases Outline.ofForest g <;> rfl

/-- A text with matched brackets is a piece in front of a stop. -/
theorem safe (h : Safe s) (p : Cursor) : ∃ f, Groups p s Stops f ∧ f.Flat ∧ f.text = s := by
  have text : textOf (tokensFrom p 0 s) = s := text_tokensFrom p 0 s
  obtain ⟨f, flat, same, grouped⟩ := ofTokens_of_matched (tokensFrom_written h.toPlain p)
    (by rw [text]; exact h.nested)
  refine ⟨f, ?_, flat, same.trans text⟩
  intro opened rest hr
  rw [tokensFrom_append h.toPlain hr, grouped]

/-- A piece in curly brackets is a block. -/
theorem body (h : Groups (p.step '{') s Stops f) : ∃ opener closer,
    opener.kind = .opener .curly ∧
      Groups p ('{' :: s ++ ['}']) (fun _ => True) (.block opener f (some closer) .nil) := by
  let inside := (p.step '{').through s
  refine ⟨⟨.opener .curly, ['{'], p.location⟩, ⟨.closer .curly, ['}'], inside.location⟩, rfl, ?_⟩
  intro opened rest _
  have last : Stops ('}' :: rest) := stops_cons.mpr (by decide)
  have within : ofTokens (.curly :: opened) (tokensFrom (p.step '{') 0 (s ++ '}' :: rest)) =
      ((f, some ⟨.closer .curly, ['}'], inside.location⟩),
        ofTokens opened (tokensFrom (inside.step '}') 0 rest)) := by
    have close : tokensFrom inside 0 ('}' :: rest) =
        ⟨.closer .curly, ['}'], inside.location⟩ :: tokensFrom (inside.step '}') 0 rest := rfl
    rw [h _ _ last, close, ofTokens_closer rfl rfl]
    exact congrArg (fun f => ((f, _), _)) (Forest.append_nil f)
  have open_ : tokensFrom p 0 ('{' :: s ++ ['}'] ++ rest) =
      ⟨.opener .curly, ['{'], p.location⟩ :: tokensFrom (p.step '{') 0 (s ++ '}' :: rest) := by
    rw [List.append_assoc]
    rfl
  rw [open_, ofTokens_opener (b := .curly) rfl, within, Cursor.through_append]
  rfl

end Groups

/-! ## At-keywords -/

theorem not_backslash_of_isNameChar {c : Char} (h : isNameChar c = true) : c ≠ '\\' := by
  rintro rfl
  cases h

/-- A row of name characters is a name in front of what continues no name. -/
theorem name_of_row {word rest : Text} (row : ∀ c ∈ word, isNameChar c = true)
    (stop : nameUnit rest = 0) : name (word ++ rest) = word := by
  induction word with
  | nil =>
    rw [List.nil_append]
    cases rest with
    | nil => rfl
    | cons c rest =>
      rw [name, Text.run, stop]
  | cons c word ih =>
    obtain ⟨first, others⟩ := List.forall_mem_cons.mp row
    rw [List.cons_append, name, Text.run, nameUnit, if_neg (not_backslash_of_isNameChar first),
      if_pos first]
    exact congrArg (c :: ·) (ih others)

theorem startsIdent_of_row {word : Text} (row : ∀ c ∈ word, isNameChar c = true)
    (starts : startsIdent word = true) (rest : Text) : startsIdent (word ++ rest) = true := by
  cases word with
  | nil => cases starts
  | cons c word =>
    have plain := not_backslash_of_isNameChar (row c List.mem_cons_self)
    rw [startsIdent, if_neg plain] at starts
    rw [List.cons_append, startsIdent, if_neg plain]
    by_cases hyphen : c = '-'
    · rw [if_pos hyphen] at starts ⊢
      exact startsWith_of_isPrefix (List.prefix_append word rest) starts
    · rw [if_neg hyphen] at starts ⊢
      exact starts

theorem Groups.keyword {word : Text} (row : ∀ c ∈ word, isNameChar c = true)
    (starts : startsIdent word = true) (p : Cursor) :
    Groups p ('@' :: word) (fun rest => nameUnit rest = 0)
      (.leaf ⟨.atKeyword, '@' :: word, p.location⟩ .nil) := by
  refine token ?_ rfl nofun
  intro rest stop
  have lex : lexeme '@' (word ++ rest) =
      if startsIdent (word ++ rest) then (.atKeyword, name (word ++ rest)) else (.delim, []) := rfl
  rw [lex, if_pos (startsIdent_of_row row starts rest), name_of_row row stop]

/-! ## Comments -/

theorem commentBody_append {body : Text} (h : ¬ ['*', '/'] <:+: body) (rest : Text) :
    commentBody (body ++ '*' :: '/' :: rest) = (body, true) := by
  induction body with
  | nil => rfl
  | cons c body ih =>
    have no_end : (decide (c = '*') && startsWith (· == '/') (body ++ '*' :: '/' :: rest)) =
        false := by
      rw [Bool.eq_false_iff]
      intro ends
      rw [Bool.and_eq_true, decide_eq_true_eq] at ends
      obtain ⟨rfl, slash⟩ := ends
      cases body with
      | nil => cases slash
      | cons d body =>
        obtain rfl : d = '/' := beq_iff_eq.mp slash
        exact h ⟨[], body, rfl⟩
    have inner : ¬ ['*', '/'] <:+: body := by
      intro inside
      exact h (inside.trans (List.suffix_cons c body).isInfix)
    rw [List.cons_append, commentBody, no_end, ih inner]
    rfl

theorem lexeme_closedComment {body : Text} (h : ¬ ['*', '/'] <:+: body) (rest : Text) :
    lexeme '/' ('*' :: body ++ ['*', '/'] ++ rest) =
      (.comment body true, '*' :: body ++ ['*', '/']) := by
  have unfolded : lexeme '/' ('*' :: (body ++ ['*', '/'] ++ rest)) =
      (.comment (commentBody (body ++ ['*', '/'] ++ rest)).1
        (commentBody (body ++ ['*', '/'] ++ rest)).2,
        '*' :: (commentBody (body ++ ['*', '/'] ++ rest)).1 ++
          if (commentBody (body ++ ['*', '/'] ++ rest)).2 then ['*', '/'] else []) := rfl
  have found : commentBody (body ++ ['*', '/'] ++ rest) = (body, true) := by
    rw [List.append_assoc]
    exact commentBody_append h rest
  rw [List.cons_append, List.cons_append, unfolded, found]
  rfl

theorem Groups.comment {body : Text} (h : ¬ ['*', '/'] <:+: body) (p : Cursor) :
    Groups p ('/' :: '*' :: body ++ ['*', '/']) (fun _ => True)
      (.leaf ⟨.comment body true, '/' :: '*' :: body ++ ['*', '/'], p.location⟩ .nil) :=
  token (fun rest _ => lexeme_closedComment h rest) rfl nofun

/-- A semicolon is a piece of its own. -/
theorem Groups.semicolon (p : Cursor) :
    Groups p [';'] (fun _ => True) (.leaf ⟨.semicolon, [';'], p.location⟩ .nil) :=
  token (fun _ _ => rfl) rfl nofun

end BemSheet.Css
