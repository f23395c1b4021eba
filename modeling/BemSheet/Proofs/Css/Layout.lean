import BemSheet.Proofs.Css.Grouping

/-!
What stands around the statements of a text.

* `tokensFrom_apart`: a name goes as far as it can, so nothing that follows an at-keyword continues
  its name.
* `laidOut_outline`: gaps hold white space and semicolons only, no statement starts with white
  space, and a statement that nothing ends is the last of its list.
-/

namespace BemSheet.Css

/-! ## Names go as far as they can -/

/-- Where a row of units ends, no further unit starts. -/
theorem run_stops (unit : Text → Nat) (left : Nat) (s : Text) :
    Text.after (Text.run unit left s) s = [] ∨ unit (Text.after (Text.run unit left s) s) = 0 := by
  induction s generalizing left with
  | nil => exact .inl (by simp [Text.after])
  | cons c s ih =>
    cases left with
    | succ left => exact ih left
    | zero =>
      rw [Text.run]
      split
      next stop => exact .inr stop
      next n _ => exact ih n

theorem startsWith_of_nameUnit {s : Text} (h : nameUnit s = 0) :
    startsWith isNameChar s = false := by
  cases s with
  | nil => rfl
  | cons c s =>
    rw [startsWith, Bool.eq_false_iff]
    intro char
    rw [nameUnit, if_neg (not_backslash_of_isNameChar char), if_pos char] at h
    cases h

theorem name_stops (s : Text) : startsWith isNameChar (Text.after (name s) s) = false := by
  rcases run_stops nameUnit 0 s with eq | stop
  · rw [name, eq]
    rfl
  · exact startsWith_of_nameUnit stop

theorem punctuation_atKeyword {c : Char} {s : Text} (h : (punctuation c s).1 = .atKeyword) :
    startsIdent s = true ∧ (punctuation c s).2 = name s := by
  unfold punctuation at h ⊢
  split at h
  case h_4 =>
    split at h
    next ident => exact ⟨ident, by rw [if_pos ident]⟩
    next => cases h
  case h_3 | h_5 | h_6 | h_7 | h_8 | h_9 | h_10 | h_11 => split at h <;> cases h
  all_goals cases h

theorem lexeme_atKeyword {c : Char} {s : Text} (h : (lexeme c s).1 = .atKeyword) :
    startsIdent s = true ∧ (lexeme c s).2 = name s := by
  have first := firstToken_lexeme c s
  generalize lexeme c s = token at first h ⊢
  cases first with
  | space | number | arrow => cases h
  | word => rcases wordToken_kind (c :: s) with kind | kind | kind <;> rw [kind] at h <;> cases h
  | punctuation => exact punctuation_atKeyword h

/-! ## At-keywords and what follows them -/

/-- No token behind an at-keyword continues its name. -/
def Apart : List Token → Prop
  | [] => True
  | t :: tokens =>
    (t.kind = .atKeyword → startsWith isNameChar (textOf tokens) = false) ∧ Apart tokens

theorem tokensFrom_apart (p : Cursor) (left : Nat) (s : Text) : Apart (tokensFrom p left s) := by
  induction s generalizing p left with
  | nil => cases left <;> trivial
  | cons c s ih =>
    cases left with
    | succ left => exact ih _ left
    | zero =>
      rw [tokensFrom_cons]
      constructor
      · intro keyword
        rw [textOf, text_tokensFrom, (lexeme_atKeyword keyword).2]
        exact name_stops s
      · exact ih _ _

namespace Forest

/-- Nothing behind an at-keyword continues its name. -/
def Apart : Forest → Prop
  | nil => True
  | leaf token rest =>
    (token.kind = .atKeyword → startsWith isNameChar rest.text = false) ∧ rest.Apart
  | block _ body _ rest => body.Apart ∧ rest.Apart

end Forest

namespace Continuation

def Apart : {opened : List Bracket} → Continuation opened → Prop
  | [], forest => Forest.Apart forest
  | _ :: _, ((forest, _), outer) => forest.Apart ∧ Apart outer

theorem apart_atEnd (opened : List Bracket) : Apart (atEnd opened) := by
  induction opened with
  | nil => trivial
  | cons bracket outer ih => exact ⟨trivial, ih⟩

/-- A leaf in front changes the innermost level, whose text comes first. -/
theorem apart_leaf {t : Token} {opened : List Bracket} {c : Continuation opened} (h : Apart c)
    (keyword : t.kind = .atKeyword → startsWith isNameChar (text c) = false) :
    Apart (change (.leaf t) c) := by
  cases opened with
  | nil => exact ⟨keyword, h⟩
  | cons bracket outer =>
    obtain ⟨⟨forest, closer⟩, rest⟩ := c
    refine ⟨⟨?_, h.1⟩, h.2⟩
    intro is
    have none : startsWith isNameChar (forest.text ++ Forest.closerText closer ++ text rest) =
        false := keyword is
    exact startsWith_isPrefix_false
      ((List.prefix_append _ _).trans (List.prefix_append _ _)) none

theorem apart_block {t : Token} {body : Forest} {closer : Option Token} (h : body.Apart)
    {opened : List Bracket} {c : Continuation opened} (hc : Apart c) :
    Apart (change (.block t body closer) c) := by
  cases opened with
  | nil => exact ⟨h, hc⟩
  | cons bracket outer => exact ⟨⟨h, hc.1⟩, hc.2⟩

theorem apart_ofTokens (opened : List Bracket) (tokens : List Token) (h : Css.Apart tokens) :
    Apart (ofTokens opened tokens) := by
  fun_induction ofTokens opened tokens with
  | case1 opened => exact apart_atEnd opened
  | case2 token tokens bracket opened opens body closer rest eq ih =>
    have inner := ih h.2
    rw [eq] at inner
    exact apart_block inner.1 inner.2
  | case3 token tokens bracket outer opens closes ih => exact ⟨trivial, ih h.2⟩
  | case4 token tokens bracket outer opens closes ih | case5 token tokens opens ih =>
    apply apart_leaf (ih h.2)
    intro keyword
    rw [text_ofTokens]
    exact h.1 keyword

end Continuation

theorem Forest.apart_ofTokens {tokens : List Token} (h : Css.Apart tokens) :
    (Forest.ofTokens tokens).Apart :=
  Continuation.apart_ofTokens [] tokens h

/-! ## Statements -/

/-- A header starts with no white space, and nothing in it continues the name of an at-keyword. -/
def Header.Apart : Header → Prop
  | keyword _ rest => startsWith isNameChar rest = false
  | plain text => startsWith isSpace text = false

namespace Outline

/-- Gaps hold white space and semicolons only, comments go up to their first end, and a statement
that nothing ends is the last of its list. -/
def LaidOut : Outline → Prop
  | done after => Gap after
  | comment before body _ _ rest => Gap before ∧ ¬ ['*', '/'] <:+: body ∧ rest.LaidOut
  | flat before header _ semicolon rest =>
    Gap before ∧ header.Apart ∧ (semicolon = true ∨ rest = done []) ∧ rest.LaidOut
  | nest before header _ body _ rest => Gap before ∧ header.Apart ∧ body.LaidOut ∧ rest.LaidOut

end Outline

def Ending.LaidOut : Ending → Prop
  | flat semicolon rest => (semicolon = true ∨ rest = .done []) ∧ rest.LaidOut
  | nest body _ rest => body.LaidOut ∧ rest.LaidOut

theorem gap_nil : Gap [] := nofun

theorem gap_append {a b : Text} (ha : Gap a) (hb : Gap b) : Gap (a ++ b) := by
  intro c hc
  rcases List.mem_append.mp hc with hc | hc
  · exact ha c hc
  · exact hb c hc

namespace Outline

theorem laidOut_prepend {gap : Text} (h : Gap gap) {o : Outline} (ho : o.LaidOut) :
    (o.prepend gap).LaidOut := by
  cases o with
  | done after => exact gap_append h ho
  | comment | flat | nest => exact ⟨gap_append h ho.1, ho.2⟩

theorem laidOut_statement {header : Header} (h : header.Apart) {ending : Ending}
    (he : ending.LaidOut) (start : Location) : (statement header start ending).LaidOut := by
  cases ending with
  | flat semicolon rest => exact ⟨gap_nil, h, he⟩
  | nest body closed rest => exact ⟨gap_nil, h, he⟩

/-- The rest of a statement's text comes first in the forest that it is taken from. -/
theorem finish_isPrefix (custom colon : Bool) (f : Forest) :
    (finish custom colon f).1 <+: f.text := by
  induction f generalizing colon with
  | nil => rw [finish]; exact List.nil_prefix
  | leaf token rest ih =>
    rw [finish]
    split
    · exact List.nil_prefix
    · exact (List.prefix_append_right_inj _).mpr (ih _)
  | block opener body closer rest _ ih =>
    rw [finish]
    split
    · exact List.nil_prefix
    · exact (List.prefix_append_right_inj _).mpr (ih _)

theorem starts_of_spelled {t : Token} (h : t.Spelled) (space : t.kind ≠ .space) (rest : Text) :
    startsWith isSpace (t.text ++ rest) = false := by
  have spells := h.space_of_startsWith
  match text : t.text, h.nonempty with
  | c :: s, _ =>
    rw [text] at spells
    rw [Bool.eq_false_iff]
    intro starts
    exact space (spells starts)

theorem apart_of {t : Token} (h : t.Spelled) (space : t.kind ≠ .space) {rest : Text}
    (keyword : t.kind = .atKeyword → startsWith isNameChar rest = false) :
    (Header.of t rest).Apart := by
  rw [Header.of]
  by_cases is : t.kind = .atKeyword
  · rw [if_pos is]
    exact keyword is
  · rw [if_neg is]
    exact starts_of_spelled h space rest

theorem laidOut_ofForest {f : Forest} (spelled : f.Spelled) (apart : f.Apart) :
    (ofForest f).LaidOut ∧ ∀ custom colon, (finish custom colon f).2.LaidOut := by
  induction f with
  | nil =>
    constructor
    · rw [ofForest]
      exact gap_nil
    · intro custom colon
      rw [finish]
      exact ⟨.inr rfl, gap_nil⟩
  | leaf token rest ih =>
    obtain ⟨first, spelled⟩ := spelled
    obtain ⟨list, tail⟩ := ih spelled apart.2
    have spells := first.spells
    constructor
    · rw [ofForest]
      split
      next kind =>
        rw [kind] at spells
        obtain ⟨c, space, eq⟩ := spells
        have gap : Gap token.text := by
          rw [eq]
          simpa [Gap] using Or.inl space
        exact laidOut_prepend gap list
      next kind =>
        rw [kind] at spells
        have eq : token.text = [';'] := spells
        have gap : Gap token.text := by
          rw [eq]
          decide
        exact laidOut_prepend gap list
      next body closed kind =>
        rw [kind] at spells
        exact ⟨gap_nil, spells.2, list⟩
      next space _ _ =>
        apply laidOut_statement _ (tail _ _)
        apply apart_of first space
        intro keyword
        exact startsWith_isPrefix_false (finish_isPrefix _ _ rest) (apart.1 keyword)
    · intro custom colon
      rw [finish]
      split
      · exact ⟨.inl rfl, list⟩
      · exact tail _ _
  | block opener body closer rest inner ih =>
    obtain ⟨first, ⟨bracket, opens, -⟩, within, after⟩ := spelled
    obtain ⟨list, tail⟩ := ih after apart.2
    have beneath := (inner within apart.1).1
    have space : opener.kind ≠ .space := by
      intro kind
      rw [Token.opens?, kind] at opens
      cases opens
    constructor
    · rw [ofForest]
      split
      · exact ⟨gap_nil, rfl, beneath, list⟩
      · apply laidOut_statement _ (tail _ _)
        simp only [Header.Apart, Forest.blockText, List.append_assoc]
        exact starts_of_spelled first space _
    · intro custom colon
      rw [finish]
      split
      · exact ⟨beneath, list⟩
      · exact tail _ _

end Outline

theorem laidOut_outline (s : Text) : (outline s).LaidOut :=
  (Outline.laidOut_ofForest (Forest.spelled_ofTokens (tokens_spelled s))
    (Forest.apart_ofTokens (tokensFrom_apart _ 0 s))).1

end BemSheet.Css
