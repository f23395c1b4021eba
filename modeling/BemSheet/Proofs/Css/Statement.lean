import BemSheet.Proofs.Css.Grouping

/-!
What a statement is, by the forest of its header and what stands after it.

A forest `Heads` a statement if the statement starts with it and ends with what follows it: a
semicolon, a block in curly brackets, or the end. Flat forests head statements (`heads_plain`), and
so does an at-keyword in front of one (`heads_keyword`).
-/

namespace BemSheet.Css

namespace Forest

/-- No semicolon stands in a forest outside of its blocks. -/
def Runs : Forest → Prop
  | nil => True
  | leaf token rest => token.kind ≠ .semicolon ∧ rest.Runs
  | block _ _ _ rest => rest.Runs

/-- No block in curly brackets stands in a forest outside of its other blocks. -/
def NoCurly : Forest → Prop
  | nil => True
  | leaf _ rest => rest.NoCurly
  | block opener _ _ rest => opener.kind ≠ .opener .curly ∧ rest.NoCurly

theorem Flat.runs {f : Forest} (flat : f.Flat) : f.Runs := by
  induction f with
  | nil => trivial
  | leaf token rest ih => exact ⟨flat.1.no_semicolon, ih flat.2⟩
  | block opener body closer rest _ ih => exact ih flat.2

theorem Flat.noCurly {f : Forest} (flat : f.Flat) : f.NoCurly := by
  induction f with
  | nil => trivial
  | leaf token rest ih => exact ih flat.2
  | block opener body closer rest _ ih => exact ⟨flat.1, ih flat.2⟩

theorem contains_leaf (t : Token) (rest : Forest) :
    (leaf t rest).text.contains ':' = (t.hasColon || rest.text.contains ':') := by
  simp [text, Token.hasColon]

theorem contains_block (opener : Token) (body : Forest) (closer : Option Token) (rest : Forest) :
    (block opener body closer rest).text.contains ':' =
      ((blockText opener body closer).contains ':' || rest.text.contains ':') := by
  simp [text, blockText, Bool.or_assoc]

end Forest

namespace Outline

/-- A statement goes on with all of a forest in which no semicolon stands, nor a block that opens
its body. -/
theorem finish_append {f : Forest} (runs : f.Runs) {custom colon : Bool}
    (kept : (custom && colon) = true ∨ f.NoCurly) (g : Forest) :
    finish custom colon (f.append g) =
      (f.text ++ (finish custom (colon || f.text.contains ':') g).1,
        (finish custom (colon || f.text.contains ':') g).2) := by
  have later {seen more : Bool} (both : (custom && seen) = true) :
      (custom && (seen || more)) = true := by
    obtain ⟨named, come⟩ := Bool.and_eq_true_iff.mp both
    rw [named, come]
    rfl
  induction f generalizing colon with
  | nil => simp [Forest.append, Forest.text]
  | leaf token rest ih =>
    rw [Forest.append, finish, if_neg runs.1, ih runs.2 (kept.imp_left later),
      Forest.contains_leaf, Forest.text]
    simp [Bool.or_assoc]
  | block opener body closer rest _ ih =>
    have inside : (decide (opener.kind = .opener .curly) && !(custom && colon)) = false := by
      rcases kept with both | none
      · simp [both]
      · simp [none.1]
    rw [Forest.append, finish]
    simp only [inside, Bool.false_eq_true, ↓reduceIte, ih runs (kept.imp later And.right),
      Forest.contains_block]
    simp [Forest.text, Forest.blockText, Bool.or_assoc]

/-- The statement with this header goes on with whatever stands after the forest. -/
def Heads (custom colon : Bool) (f : Forest) (header : Header) (start : Location) : Prop :=
  ∀ g, (finish custom colon g).1 = [] →
    ofForest (f.append g) = statement header start (finish custom colon g).2

namespace Heads

variable {custom colon : Bool} {f : Forest} {header : Header} {start : Location}

theorem nest (h : Heads custom colon f header start) (nestable : (custom && colon) = false)
    {opener : Token} (curly : opener.kind = .opener .curly) (body : Forest) (closer : Token)
    (g : Forest) : ofForest (f.append (.block opener body (some closer) g)) =
      .nest [] header start (ofForest body) true (ofForest g) := by
  have ends : finish custom colon (.block opener body (some closer) g) =
      ([], .nest (ofForest body) true (ofForest g)) := by
    simp [finish, curly, nestable]
  rw [h _ (by rw [ends]), ends]
  rfl

theorem semicolon (h : Heads custom colon f header start) {token : Token}
    (is : token.kind = .semicolon) (g : Forest) :
    ofForest (f.append (.leaf token g)) = .flat [] header start true (ofForest g) := by
  have ends : finish custom colon (.leaf token g) = ([], .flat true (ofForest g)) := by
    rw [finish, if_pos is]
  rw [h _ (by rw [ends]), ends]
  rfl

theorem atEnd (h : Heads custom colon f header start) :
    ofForest f = .flat [] header start false (.done []) := by
  have ends : finish custom colon .nil = ([], .flat false (.done [])) := by rw [finish]
  have whole := h .nil (by rw [ends])
  rwa [ends, Forest.append_nil] at whole

end Heads

theorem ofForest_leaf {t : Token} (space : t.kind ≠ .space) (semicolon : t.kind ≠ .semicolon)
    (comment : ∀ body closed, t.kind ≠ .comment body closed) (rest : Forest) :
    ofForest (.leaf t rest) =
      statement (.of t (finish t.isCustomName t.hasColon rest).1) t.start
        (finish t.isCustomName t.hasColon rest).2 := by
  rw [ofForest]
  split
  next is => exact absurd is space
  next is => exact absurd is semicolon
  next is => exact absurd is (comment _ _)
  next => rfl

theorem custom_starts {t : Token} (shown : ∀ c ∈ t.text, isHiding c = false)
    (h : t.isCustomName = true) : ['-', '-'] <+: t.text := by
  have hyphen : ∀ c : Char, (if c = '\x00' then replacement else c) = '-' → c = '-' := by
    intro c hc
    by_cases null : c = '\x00'
    · rw [if_pos null] at hc
      cases hc
    · rwa [if_neg null] at hc
  rw [Token.isCustomName, Bool.and_eq_true, List.isPrefixOf_iff_prefix,
    nameValue_of_shown shown] at h
  obtain ⟨back, eq⟩ := h.2
  match text : t.text, eq with
  | [], eq => cases eq
  | [_], eq => exact absurd (congrArg List.length eq) (by simp)
  | c :: d :: s, eq =>
    simp only [List.cons_append, List.nil_append, List.map_cons, List.cons.injEq] at eq
    rw [hyphen c eq.1.symm, hyphen d eq.2.1.symm]
    exact ⟨s, rfl⟩

/-- A flat forest that does not start with white space heads a statement of its text. -/
theorem heads_plain {f : Forest} (flat : f.Flat) (nonempty : f.text ≠ [])
    (starts : startsWith isSpace f.text = false) (shown : ∀ c ∈ f.text, isHiding c = false) :
    ∃ custom start, (custom = true → ['-', '-'] <+: f.text) ∧
      Heads custom (f.text.contains ':') f (.plain f.text) start := by
  cases f with
  | nil => exact absurd rfl nonempty
  | leaf t rest =>
    have piece : t.text <+: (Forest.leaf t rest).text := List.prefix_append _ _
    have space : t.kind ≠ .space := by
      intro is
      rw [startsWith_of_isPrefix piece (flat.1.starts_of_space is)] at starts
      cases starts
    refine ⟨t.isCustomName, t.start, ?_, ?_⟩
    · intro custom
      have shown_piece : ∀ c ∈ t.text, isHiding c = false := by
        intro c hc
        exact shown c (piece.subset hc)
      exact (custom_starts shown_piece custom).trans piece
    · intro g ends
      rw [Forest.append, ofForest_leaf space flat.1.no_semicolon flat.1.no_comment,
        finish_append flat.2.runs (.inr flat.2.noCurly), ← Forest.contains_leaf, ends, Header.of,
        if_neg flat.1.no_keyword, List.append_nil]
      rfl
  | block opener body closer rest =>
    refine ⟨false, opener.start, fun custom => absurd custom Bool.false_ne_true, ?_⟩
    intro g ends
    rw [Forest.append, ofForest, if_neg flat.1]
    simp only [finish_append flat.2.runs (.inr flat.2.noCurly), ← Forest.contains_block, ends,
      List.append_nil]
    rfl

/-- An at-keyword and a flat forest head a statement with the keyword's name apart. -/
theorem heads_keyword {f : Forest} (flat : f.Flat) {t : Token} (is : t.kind = .atKeyword) :
    Heads false (t.hasColon || f.text.contains ':') (.leaf t f)
      (.keyword (t.text.drop 1) f.text) t.start := by
  have custom : t.isCustomName = false := by simp [Token.isCustomName, is]
  intro g ends
  rw [Forest.append, ofForest_leaf (by simp [is]) (by simp [is]) (by simp [is]), custom,
    finish_append flat.runs (.inr flat.noCurly), ends, Header.of, if_pos is, List.append_nil]

/-! ## Headers -/

/-- In front of a stop, a text is the header of a statement. A block in curly brackets behind it is
the body of the statement, unless the text is a custom property with its colon. -/
def ReadAs (s : Text) (header : Header) : Prop :=
  ∀ p, ∃ f custom colon start, Groups p s Stops f ∧ Heads custom colon f header start ∧
    ((['-', '-'] <+: s → ':' ∉ s) → (custom && colon) = false)

/-- A safe text that does not start with white space is the header of a statement. -/
theorem readAs_plain {s : Text} (safe : Safe s) (nonempty : s ≠ [])
    (starts : startsWith isSpace s = false) : ReadAs s (.plain s) := by
  intro p
  obtain ⟨f, grouped, flat, text⟩ := Groups.safe safe p
  subst text
  obtain ⟨custom, start, hyphens, heads⟩ := heads_plain flat nonempty starts safe.shown
  refine ⟨f, custom, _, start, grouped, heads, ?_⟩
  intro no_colon
  cases custom with
  | false => rfl
  | true => simpa using no_colon (hyphens rfl)

/-- A name behind its `@` is the header of a statement, with a safe text that does not continue the
name. -/
theorem readAs_keyword {name s : Text} (row : ∀ c ∈ name, isNameChar c = true)
    (ident : startsIdent name = true) (safe : Safe s) (apart : startsWith isNameChar s = false) :
    ReadAs ('@' :: name ++ s) (.keyword name s) := by
  intro p
  obtain ⟨f, grouped, flat, text⟩ := Groups.safe safe (p.through ('@' :: name))
  have next (rest : Text) (hr : Stops rest) : nameUnit (s ++ rest) = 0 := by
    cases s with
    | nil => exact nameUnit_of_stops hr
    | cons c s =>
      have other : isNameChar c = false := apart
      rw [List.cons_append, nameUnit_cons (safe.shown c List.mem_cons_self), other]
      rfl
  have whole := (Groups.keyword row ident p).append grouped next
  have heads := heads_keyword flat (t := ⟨.atKeyword, '@' :: name, p.location⟩) rfl
  rw [text] at heads
  exact ⟨_, false, _, _, whole, heads, fun _ => rfl⟩

/-- The semicolon that ends a statement, or nothing in front of a stop. -/
theorem Heads.flat (semicolon : Bool) (p : Cursor) : ∃ ending,
    Groups p (if semicolon then [';'] else []) (fun rest => semicolon = true ∨ Stops rest) ending ∧
    ∀ {custom colon f header start}, Heads custom colon f header start →
      ∀ g, semicolon = true ∨ g = .nil → ofForest (f.append (ending.append g)) =
        .flat [] header start semicolon (ofForest g) := by
  cases semicolon with
  | true =>
    refine ⟨_, (Groups.semicolon p).weaken fun _ _ => trivial, ?_⟩
    intro custom colon f header start heads g _
    exact heads.semicolon rfl g
  | false =>
    refine ⟨.nil, .nil p, ?_⟩
    intro custom colon f header start heads g last
    obtain rfl := last.resolve_left Bool.false_ne_true
    have done : ofForest .nil = .done [] := by rw [ofForest]
    rw [Forest.append, Forest.append_nil, heads.atEnd, done]

/-- Either way it is a stop for the header. -/
theorem stops_flat {semicolon : Bool} {rest : Text} (h : semicolon = true ∨ Stops rest) :
    Stops ((if semicolon then [';'] else []) ++ rest) := by
  cases semicolon with
  | true => exact stops_cons.mpr (by decide)
  | false => exact h.resolve_left Bool.false_ne_true

end Outline

end BemSheet.Css
