import BemSheet.Proofs.Css.Exchange
import BemSheet.Proofs.Css.Unclosed

/-!
The tokens of a forest, and grouping them again.

Tokens that were grouped are still there in order (`tokens_ofTokens`), and grouping the tokens of a
forest gives that forest, whatever brackets are open around it (`ofTokens_tokens`). So a part of a
forest that reads its tokens from its own text is the forest of that text (`Forest.Whole`).
-/

namespace BemSheet.Css

theorem Token.closed_of_shut {t : Token} (h : t.shut = true) : t.closed = true := by
  unfold Token.shut at h
  split at h
  next eq => rw [closed, eq]
  next eq => rw [closed, eq]
  next body eq => rw [closed, eq]
  next => cases h

namespace Forest

/-- The tokens of a forest in the order of the text. -/
def tokens : Forest → List Token
  | nil => []
  | leaf token rest => token :: rest.tokens
  | block opener body closer rest => opener :: (body.tokens ++ (closer.toList ++ rest.tokens))

/-- A forest as grouping makes it where `within` is the innermost open bracket: only blocks start
with an opening token, they end with a closer of their own kind, and no token outside of them closes
the bracket around. -/
def Grouped : (within : Option Bracket) → Forest → Prop
  | _, nil => True
  | within, leaf token rest =>
    token.opens? = none ∧ (∀ b ∈ within, token.kind ≠ .closer b) ∧ rest.Grouped within
  | within, block opener body closer rest =>
    (∃ b, opener.opens? = some b ∧ body.Grouped (some b) ∧ ∀ t ∈ closer, t.kind = .closer b) ∧
      rest.Grouped within

theorem textOf_tokens (f : Forest) : textOf f.tokens = f.text := by
  induction f with
  | nil => rfl
  | leaf token rest ih =>
    rw [tokens, text, ← ih]
    rfl
  | block opener body closer rest inner ih =>
    rw [text, ← inner, ← ih]
    cases closer <;> simp [tokens, textOf, closerText]

theorem tokens_append (f g : Forest) : (f.append g).tokens = f.tokens ++ g.tokens := by
  induction f with
  | nil => rfl
  | leaf token rest ih => rw [append, tokens, ih, tokens, List.cons_append]
  | block opener body closer rest _ ih => simp [append, tokens, ih]

theorem text_append (f g : Forest) : (f.append g).text = f.text ++ g.text := by
  rw [← textOf_tokens, tokens_append, textOf, List.flatMap_append, ← textOf, ← textOf,
    textOf_tokens, textOf_tokens]

theorem grouped_append {f g : Forest} {within : Option Bracket} :
    (f.append g).Grouped within ↔ f.Grouped within ∧ g.Grouped within := by
  induction f with
  | nil => simp [append, Grouped]
  | leaf token rest ih => simp only [append, Grouped, ih, and_assoc]
  | block opener body closer rest _ ih => simp only [append, Grouped, ih, and_assoc]

theorem openLast_append {f g : Forest} (h : (f.append g).OpenLast) : f.OpenLast ∧ g.OpenLast := by
  have empty {f : Forest} (h : f.append g = nil) : f = nil := by
    cases f with
    | nil => rfl
    | leaf | block => cases h
  induction f with
  | nil => exact ⟨trivial, h⟩
  | leaf token rest ih =>
    obtain ⟨first, others⟩ := ih h.2
    exact ⟨⟨fun shut => empty (h.1 shut), first⟩, others⟩
  | block opener body closer rest _ ih =>
    obtain ⟨ends, whole, within, after⟩ := h
    obtain ⟨first, others⟩ := ih after
    exact ⟨⟨fun shut => empty (ends shut), whole, within, first⟩, others⟩

theorem Grouped.outside {f : Forest} {within : Option Bracket} (h : f.Grouped within) :
    f.Grouped none := by
  induction f with
  | nil => trivial
  | leaf token rest ih => exact ⟨h.1, nofun, ih h.2.2⟩
  | block opener body closer rest _ ih => exact ⟨h.1, ih h.2⟩

end Forest

namespace Continuation

/-- The tokens that a continuation was grouped from. -/
def tokens : {opened : List Bracket} → Continuation opened → List Token
  | [], forest => Forest.tokens forest
  | _ :: _, ((forest, closer), outer) => forest.tokens ++ (closer.toList ++ tokens outer)

def Grouped : {opened : List Bracket} → Continuation opened → Prop
  | [], forest => Forest.Grouped none forest
  | b :: _, ((forest, closer), outer) =>
    forest.Grouped (some b) ∧ (∀ t ∈ closer, t.kind = .closer b) ∧ Grouped outer

theorem tokens_atEnd (opened : List Bracket) : tokens (atEnd opened) = [] := by
  induction opened with
  | nil => rfl
  | cons bracket outer ih => exact ih

theorem tokens_change {g : Forest → Forest} (piece : List Token)
    (h : ∀ f, (g f).tokens = piece ++ f.tokens) {opened : List Bracket} (c : Continuation opened) :
    tokens (change g c) = piece ++ tokens c := by
  cases opened with
  | nil => exact h c
  | cons bracket outer =>
    obtain ⟨⟨forest, closer⟩, rest⟩ := c
    simp [change, tokens, h]

theorem tokens_ofTokens (opened : List Bracket) (ts : List Token) :
    tokens (ofTokens opened ts) = ts := by
  fun_induction ofTokens opened ts with
  | case1 opened => exact tokens_atEnd opened
  | case2 token ts bracket opened h body closer rest eq ih =>
    rw [eq] at ih
    rw [tokens_change (token :: (body.tokens ++ closer.toList))
      (fun f => by simp [Forest.tokens])]
    simp [← ih, tokens]
  | case3 token ts bracket outer h is ih => simp [tokens, Forest.tokens, ih]
  | case4 token ts bracket outer h is ih | case5 token ts h ih =>
    rw [tokens_change [token] (fun f => rfl), ih, List.singleton_append]

theorem grouped_atEnd (opened : List Bracket) : Grouped (atEnd opened) := by
  induction opened with
  | nil => trivial
  | cons bracket outer ih => exact ⟨trivial, nofun, ih⟩

theorem grouped_ofTokens (opened : List Bracket) (ts : List Token) :
    Grouped (ofTokens opened ts) := by
  fun_induction ofTokens opened ts with
  | case1 opened => exact grouped_atEnd opened
  | case2 token ts bracket opened opens body closer rest eq ih =>
    rw [eq] at ih
    obtain ⟨within, closes, outside⟩ := ih
    cases opened with
    | nil => exact ⟨⟨bracket, opens, within, closes⟩, outside⟩
    | cons bracket' outer => exact ⟨⟨⟨bracket, opens, within, closes⟩, outside.1⟩, outside.2⟩
  | case3 token ts bracket outer opens closes ih =>
    exact ⟨trivial, fun t ht => Option.some.inj ht ▸ closes, ih⟩
  | case4 token ts bracket outer opens other ih =>
    exact ⟨⟨opens, fun b hb => Option.some.inj hb ▸ other, ih.1⟩, ih.2⟩
  | case5 token ts opens ih =>
    refine ⟨opens, ?_, ih⟩
    intro b hb
    cases hb

/-- Grouping the tokens of a forest gives the forest back. Where something is left open in it, no
token may come behind. -/
theorem ofTokens_tokens {f : Forest} (opened : List Bracket) (grouped : f.Grouped opened.head?)
    (last : f.OpenLast) {rest : List Token} (h : f.closed = true ∨ rest = []) :
    ofTokens opened (f.tokens ++ rest) = change f.append (ofTokens opened rest) := by
  induction f generalizing opened rest with
  | nil => exact (change_id _).symm
  | leaf token f ih =>
    obtain ⟨opens, closes, grouped⟩ := grouped
    have shut : f.closed = true ∨ rest = [] := h.imp_left fun h => (Bool.and_eq_true_iff.mp h).2
    rw [Forest.tokens, List.cons_append, ofTokens_leaf opens closes, ih opened grouped last.2 shut,
      change_change]
    rfl
  | block opener body closer f inner ih =>
    obtain ⟨⟨b, opens, within, closes⟩, grouped⟩ := grouped
    obtain ⟨ends, whole, last, after⟩ := last
    cases closer with
    | none =>
      obtain rfl := ends rfl
      obtain rfl : rest = [] := h.resolve_left (by simp [Forest.closed])
      have alone : ofTokens (b :: opened) (body.tokens ++ []) =
          ((body.append .nil, none), atEnd opened) := by
        rw [inner (b :: opened) within last (.inr rfl), ofTokens]
        rfl
      rw [Forest.append_nil] at alone
      simp only [Forest.tokens, Option.toList, List.append_nil] at alone ⊢
      rw [ofTokens_opener opens, alone, ofTokens]
      rfl
    | some t =>
      have shut : f.closed = true ∨ rest = [] := h.imp_left fun h => (Bool.and_eq_true_iff.mp h).2
      have kind := closes t rfl
      have plain : t.opens? = none := by rw [Token.opens?, kind]
      have alone : ofTokens (b :: opened) (body.tokens ++ t :: (f.tokens ++ rest)) =
          ((body.append .nil, some t), ofTokens opened (f.tokens ++ rest)) := by
        rw [inner (b :: opened) within last (.inl (whole rfl)),
          ofTokens_closer plain kind]
        rfl
      rw [Forest.append_nil, ih opened grouped after shut] at alone
      have tokens : (Forest.block opener body (some t) f).tokens ++ rest =
          opener :: (body.tokens ++ t :: (f.tokens ++ rest)) := by
        simp [Forest.tokens]
      rw [tokens, ofTokens_opener opens, alone, change_change]
      rfl

end Continuation

theorem Forest.tokens_ofTokens (ts : List Token) : (Forest.ofTokens ts).tokens = ts :=
  Continuation.tokens_ofTokens [] ts

/-- A forest that is grouped is what its tokens are grouped into. -/
theorem Forest.ofTokens_of_grouped {f : Forest} (grouped : f.Grouped none) (last : f.OpenLast) :
    ofTokens f.tokens = f := by
  have whole := Continuation.ofTokens_tokens [] grouped last (.inr rfl : _ ∨ [] = [])
  rw [List.append_nil] at whole
  rw [ofTokens, whole]
  exact append_nil f

/-- Two rows of tokens of which nothing in the first is left open are grouped apart. -/
theorem Forest.ofTokens_append {ts : List Token} (last : (Forest.ofTokens ts).OpenLast)
    (closed : (Forest.ofTokens ts).closed = true) (us : List Token) :
    Forest.ofTokens (ts ++ us) = (Forest.ofTokens ts).append (Forest.ofTokens us) := by
  have grouped : (Forest.ofTokens ts).Grouped none := Continuation.grouped_ofTokens [] ts
  have whole := Continuation.ofTokens_tokens [] grouped last (.inl closed : _ ∨ us = [])
  rwa [Forest.tokens_ofTokens] at whole

/-! ## Forests of their own text -/

namespace Forest

/-- A forest whose tokens are those of its text, if that is read from `p` on. -/
structure Whole (p : Cursor) (f : Forest) : Prop where
  reads : tokensFrom p 0 f.text = f.tokens
  grouped : f.Grouped none
  last : f.OpenLast

theorem whole_tokensFrom (p : Cursor) (s : Text) : (ofTokens (tokensFrom p 0 s)).Whole p where
  reads := by rw [text_ofTokens, text_tokensFrom, tokens_ofTokens]; rfl
  grouped := Continuation.grouped_ofTokens [] _
  last := openLast_ofTokens (tokensFrom_closed p 0 s)

namespace Whole

variable {p : Cursor} {f g : Forest}

/-- Such a forest is what its text is grouped into. -/
theorem eq_ofTokens (h : f.Whole p) : ofTokens (tokensFrom p 0 f.text) = f := by
  rw [h.reads, ofTokens_of_grouped h.grouped h.last]

theorem spelled (h : f.Whole p) : f.Spelled := by
  rw [← h.eq_ofTokens]
  exact spelled_ofTokens (tokensFrom_spelled p 0 f.text)

theorem reads_append (h : (f.append g).Whole p) :
    tokensFrom p 0 (f.text ++ g.text) = f.tokens ++ g.tokens := by
  rw [← text_append, h.reads, tokens_append]

/-- A part of a forest that comes last is read apart from what stands before it. -/
theorem back (h : (f.append g).Whole p) : g.Whole (p.through f.text) where
  reads := tokensFrom_behind h.reads_append (textOf_tokens f)
  grouped := (grouped_append.mp h.grouped).2
  last := (openLast_append h.last).2

/-- A part of a forest that comes first is read apart from what follows it, if nothing that follows
is added to its last token. -/
theorem front (h : (f.append g).Whole p) (shut : Shut f.tokens) : f.Whole p where
  reads := by
    have alone := shut.tokensFrom h.reads_append (textOf_tokens f) []
    simpa [tokensFrom] using alone
  grouped := (grouped_append.mp h.grouped).1
  last := (openLast_append h.last).1

/-- The body of a block in curly brackets is read as it is apart from them. -/
theorem body {opener closer : Token} {body rest : Forest}
    (h : (block opener body (some closer) rest).Whole p) (curly : opener.kind = .opener .curly) :
    body.Whole (p.through opener.text) := by
  obtain ⟨⟨b, opens, within, closes⟩, -⟩ := h.grouped
  obtain ⟨-, spelled⟩ := h.spelled
  have right : closer.text = ['}'] := by
    obtain ⟨b', opens', ends⟩ := spelled.1
    rw [Token.opens?, curly] at opens'
    obtain rfl := Option.some.inj opens'
    exact ends closer rfl
  refine ⟨?_, within.outside, h.last.2.2.1⟩
  have whole : tokensFrom p 0 (opener.text ++ (body.text ++ '}' :: rest.text)) =
      [opener] ++ (body.tokens ++ closer :: rest.tokens) := by
    have reads := h.reads
    simp only [Forest.text, closerText, right, List.append_assoc, Forest.tokens] at reads
    exact reads
  have inner := tokensFrom_behind whole (by simp [textOf])
  have alone := tokensFrom_seam (.last rest.text) inner (textOf_tokens body)
  rwa [List.append_nil, tokensFrom, List.append_nil] at alone

end Whole

end Forest

end BemSheet.Css
