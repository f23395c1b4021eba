import BemSheet.Proofs.Css.Origins

/-!
Statements in their places.

What stands around a statement is a forest with a place left open (`Around`). It takes in any other
forest: its tokens stay in front of it and behind it (`Around.tokens_fill`), and they are grouped as
before (`Takes.fill`).

* `Settled.tokensFrom`: the tokens in front of a statement are the same whatever follows them.
* `stands_of_mem`: every statement of a forest has such a place in it, and what is read there alike
  is read alike in the whole.
-/

namespace BemSheet.Css

/-! ## Tokens in front of a statement -/

/-- Tokens of which the last one that is no white space is shut or opens a body. -/
def Settled (tokens : List Token) : Prop :=
  Shut tokens ∨ ∃ front opener inner,
    tokens = front ++ opener :: inner ∧ opener.kind = .opener .curly ∧ Shut inner

/-- There is more than white space among the tokens. -/
def Filled (tokens : List Token) : Prop := ∃ t ∈ tokens, t.kind ≠ .space

theorem Filled.append {tokens : List Token} (h : Filled tokens) (front : List Token) :
    Filled (front ++ tokens) := by
  obtain ⟨t, mem, other⟩ := h
  exact ⟨t, List.mem_append_right front mem, other⟩

namespace Settled

variable {tokens : List Token}

theorem cons (h : Settled tokens) {t : Token}
    (own : t.kind = .space ∨ t.shut = true ∨ Filled tokens) : Settled (t :: tokens) := by
  rcases h with shut | ⟨front, opener, inner, rfl, curly, shut⟩
  · exact .inl (shut.cons own)
  · exact .inr ⟨t :: front, opener, inner, rfl, curly, shut⟩

theorem append (h : Settled tokens) (filled : Filled tokens) (front : List Token) :
    Settled (front ++ tokens) := by
  rcases h with shut | ⟨front', opener, inner, rfl, curly, shut⟩
  · exact .inl (shut.append filled front)
  · exact .inr ⟨front ++ front', opener, inner, by simp, curly, shut⟩

theorem body (h : Settled tokens) {opener : Token} (curly : opener.kind = .opener .curly) :
    Settled (opener :: tokens) := by
  rcases h with shut | ⟨front, opener', inner, rfl, curly', shut⟩
  · exact .inr ⟨[], opener, tokens, rfl, curly, shut⟩
  · exact .inr ⟨opener :: front, opener', inner, rfl, curly', shut⟩

/-- Behind a body and its end. -/
theorem behind (h : Settled tokens) {t : Token} (shut : t.shut = true) (other : t.kind ≠ .space)
    (front : List Token) : Settled (front ++ t :: tokens) :=
  (h.cons (.inr (.inl shut))).append ⟨t, List.mem_cons_self, other⟩ front

/-- Behind a block, where more than white space comes first. -/
theorem block (h : Settled tokens) (filled : Filled tokens) (opener : Token) (body : Forest)
    (closer : Option Token) : Settled (opener :: (body.tokens ++ (closer.toList ++ tokens))) := by
  have front := h.append filled (opener :: (body.tokens ++ closer.toList))
  simpa using front

end Settled

/-- The bracket that opens a body is a token of its own whatever follows. -/
theorem tokensFrom_curly {p : Cursor} {s : Text} {t : Token} {tokens : List Token}
    (h : tokensFrom p 0 s = t :: tokens) (curly : t.kind = .opener .curly) :
    t.text = ['{'] ∧ ∀ rest, tokensFrom p 0 ('{' :: rest) =
      t :: tokensFrom (p.through ['{']) 0 rest := by
  have spelled := tokensFrom_spelled p 0 s t (by rw [h]; exact List.mem_cons_self)
  have spells := spelled.spells
  rw [curly] at spells
  have text : t.text = ['{'] := spells
  obtain ⟨c, tail, _, -, -, own, -⟩ := tokensFrom_cons_inv h
  refine ⟨text, fun rest => ?_⟩
  have same : t = ⟨.opener .curly, ['{'], p.location⟩ := by
    rw [own] at text
    rw [own, curly]
    exact congrArg (Token.mk _ · _) text
  rw [same]
  rfl

/-- Behind tokens that a statement may follow, a text may be exchanged. -/
theorem Settled.tokensFrom {tokens : List Token} (h : Settled tokens) {p : Cursor} {s e : Text}
    {others : List Token} (whole : tokensFrom p 0 (s ++ e) = tokens ++ others)
    (text : textOf tokens = s) (e' : Text) :
    Css.tokensFrom p 0 (s ++ e') = tokens ++ Css.tokensFrom (p.through s) 0 e' := by
  rcases h with shut | ⟨front, opener, inner, rfl, curly, shut⟩
  · exact shut.tokensFrom whole text e'
  · have parts : textOf (front ++ opener :: inner) =
        textOf front ++ (opener.text ++ textOf inner) := by simp [textOf]
    rw [parts] at text
    subst text
    rw [List.append_assoc, List.append_assoc, List.append_assoc, List.cons_append] at whole
    have behind := tokensFrom_behind whole rfl
    obtain ⟨left, opens⟩ := tokensFrom_curly behind curly
    rw [left] at whole behind ⊢
    have inside : Css.tokensFrom ((p.through (textOf front)).through ['{']) 0 (textOf inner ++ e) =
        inner ++ others := by
      rw [List.singleton_append, opens] at behind
      exact (List.cons.inj behind).2
    have seam : Seam ('{' :: (textOf inner ++ e)) ('{' :: (textOf inner ++ e')) :=
      .same (by decide) _ _
    have exchanged := tokensFrom_seam seam whole rfl
    have own := shut.tokensFrom inside rfl e'
    rw [opens, own, ← Cursor.through_append, ← Cursor.through_append] at exchanged
    simpa only [List.append_assoc, List.cons_append, List.nil_append] using exchanged

/-! ## Forests with a place left open -/

/-- A forest with a place left open, in which all the rest of a list is to stand. -/
inductive Around
  | here
  | leaf (token : Token) (inner : Around)
  | behind (opener : Token) (body : Forest) (closer : Option Token) (inner : Around)
  | within (opener : Token) (inner : Around) (closer : Option Token) (rest : Forest)

namespace Around

/-- The forest with another in its open place. -/
def fill : Around → Forest → Forest
  | here, g => g
  | leaf token inner, g => .leaf token (inner.fill g)
  | behind opener body closer inner, g => .block opener body closer (inner.fill g)
  | within opener inner closer rest, g => .block opener (inner.fill g) closer rest

/-- The tokens in front of the open place. -/
def front : Around → List Token
  | here => []
  | leaf token inner => token :: inner.front
  | behind opener body closer inner => opener :: (body.tokens ++ (closer.toList ++ inner.front))
  | within opener inner _ _ => opener :: inner.front

/-- The tokens behind the open place. -/
def back : Around → List Token
  | here => []
  | leaf _ inner | behind _ _ _ inner => inner.back
  | within _ inner closer rest => inner.back ++ (closer.toList ++ rest.tokens)

theorem tokens_fill (a : Around) (g : Forest) :
    (a.fill g).tokens = a.front ++ (g.tokens ++ a.back) := by
  induction a with
  | here => simp [fill, front, back]
  | leaf token inner ih => simp [fill, front, back, Forest.tokens, ih]
  | behind opener body closer inner ih => simp [fill, front, back, Forest.tokens, ih]
  | within opener inner closer rest ih => simp [fill, front, back, Forest.tokens, ih]

/-- What stands in the open place is grouped within some bracket. -/
theorem grouped_of_fill (a : Around) {g : Forest} {within : Option Bracket}
    (h : (a.fill g).Grouped within) : ∃ around, g.Grouped around := by
  induction a generalizing within with
  | here => exact ⟨within, h⟩
  | leaf token inner ih => exact ih h.2.2
  | behind opener body closer inner ih => exact ih h.2
  | within opener inner closer rest ih =>
    obtain ⟨⟨b, -, inside, -⟩, -⟩ := h
    exact ih inside

end Around

/-- A forest may take the place of another: it is grouped in the same way, and nothing else is left
open in it. -/
structure Takes (g g' : Forest) : Prop where
  nonempty : g ≠ .nil
  closed : g'.closed = g.closed
  grouped : ∀ within, g.Grouped within → g'.Grouped within
  openLast : g.OpenLast → g'.OpenLast

/-- What takes the place of another does so inside of any forest. -/
theorem Takes.fill {g g' : Forest} (h : Takes g g') (a : Around) :
    Takes (a.fill g) (a.fill g') := by
  induction a with
  | here => exact h
  | leaf token inner ih =>
    refine ⟨by simp [Around.fill], ?_, fun within grouped => ?_, fun last => ?_⟩
    · simp only [Around.fill, Forest.closed, ih.closed]
    · exact ⟨grouped.1, grouped.2.1, ih.grouped within grouped.2.2⟩
    · exact ⟨fun unclosed => absurd (last.1 unclosed) ih.nonempty, ih.openLast last.2⟩
  | behind opener body closer inner ih =>
    refine ⟨by simp [Around.fill], ?_, fun within grouped => ?_, fun last => ?_⟩
    · simp only [Around.fill, Forest.closed, ih.closed]
    · exact ⟨grouped.1, ih.grouped within grouped.2⟩
    · exact ⟨fun unclosed => absurd (last.1 unclosed) ih.nonempty, last.2.1, last.2.2.1,
        ih.openLast last.2.2.2⟩
  | within opener inner closer rest ih =>
    refine ⟨by simp [Around.fill], ?_, fun within grouped => ?_, fun last => ?_⟩
    · simp only [Around.fill, Forest.closed, ih.closed]
    · obtain ⟨⟨b, opens, inside, closes⟩, outside⟩ := grouped
      exact ⟨⟨b, opens, ih.grouped (some b) inside, closes⟩, outside⟩
    · exact ⟨last.1, fun closes => ih.closed.trans (last.2.1 closes), ih.openLast last.2.2.1,
        last.2.2.2⟩

/-! ## Headers put in the place of others -/

/-- A list with its statements that have a body under other headers. -/
def Outline.mapHeaders (h : Header → Header) : Outline → Outline
  | done after => .done after
  | comment before body closed start rest =>
    .comment before body closed start (rest.mapHeaders h)
  | flat before header start semicolon rest =>
    .flat before header start semicolon (rest.mapHeaders h)
  | nest before header start body closed rest =>
    .nest before (h header) start (body.mapHeaders h) closed (rest.mapHeaders h)

def Ending.mapHeaders (h : Header → Header) : Ending → Ending
  | flat semicolon rest => .flat semicolon (rest.mapHeaders h)
  | nest body closed rest => .nest (body.mapHeaders h) closed (rest.mapHeaders h)

namespace Outline

section

variable {h : Header → Header}

theorem mapHeaders_prepend (gap : Text) (o : Outline) :
    (o.prepend gap).mapHeaders h = (o.mapHeaders h).prepend gap := by
  cases o <;> rfl

theorem mapHeaders_statement {e e' : Ending} (same : e.mapHeaders h = e'.mapHeaders h)
    (header : Header) (start : Location) :
    (statement header start e).mapHeaders h = (statement header start e').mapHeaders h := by
  cases e with
  | flat semicolon rest =>
    cases e' with
    | flat semicolon' rest' =>
      obtain ⟨rfl, others⟩ := Ending.flat.inj same
      simp only [statement, mapHeaders, others]
    | nest => cases same
  | nest body closed rest =>
    cases e' with
    | flat => cases same
    | nest body' closed' rest' =>
      obtain ⟨inner, rfl, others⟩ := Ending.nest.inj same
      simp only [statement, mapHeaders, inner, others]

end

/-! ## Statements in their places -/

/-- A statement that stands in a forest behind tokens that are `ready` for it: it is read from what
fills an open place of that forest. What is read alike there, whatever its headers are, is read
alike in the whole. -/
def Stands {β : Type} (h : Header → Header) (ready : List Token → Prop) (read : Forest → β)
    (f : Forest) (o : Outline) : Prop :=
  ∃ (a : Around) (g : Forest) (gap : Text), g.Starts ∧ o = (ofForest g).prepend gap ∧
    a.fill g = f ∧ ready a.front ∧
    ∀ g', (ofForest g').mapHeaders h = (ofForest g).mapHeaders h → read (a.fill g') = read f

/-- What is read of a list of statements. -/
def listed (h : Header → Header) (f : Forest) : Outline := (ofForest f).mapHeaders h

/-- What is read inside of a statement. -/
def finished (h : Header → Header) (custom colon : Bool) (f : Forest) : Text × Ending :=
  ((finish custom colon f).1, (finish custom colon f).2.mapHeaders h)

namespace Stands

variable {β γ : Type} {h : Header → Header} {ready ready' : List Token → Prop} {read : Forest → β}
  {read' : Forest → γ} {f : Forest} {o : Outline}

theorem self (starts : f.Starts) : Stands h Settled (listed h) f (ofForest f) :=
  ⟨.here, f, [], starts, (prepend_nil _).symm, rfl, .inl shut_nil, fun _ same => same⟩

theorem prepend (s : Stands h ready read f o) (gap : Text) :
    Stands h ready read f (o.prepend gap) := by
  obtain ⟨a, g, gap', starts, rfl, place⟩ := s
  exact ⟨a, g, gap ++ gap', starts, prepend_prepend gap gap' _, place⟩

theorem leaf (s : Stands h ready read f o) {t : Token}
    (front : ∀ ts, ready ts → ready' (t :: ts))
    (law : ∀ f', read f' = read f → read' (.leaf t f') = read' (.leaf t f)) :
    Stands h ready' read' (.leaf t f) o := by
  obtain ⟨a, g, gap, starts, eq, rfl, settled, alike⟩ := s
  exact ⟨.leaf t a, g, gap, starts, eq, rfl, front _ settled, fun g' same => law _ (alike g' same)⟩

variable {opener : Token} {body : Forest} {closer : Option Token} {rest : Forest}

theorem behind (s : Stands h ready read rest o)
    (front : ∀ ts, ready ts → ready' (opener :: (body.tokens ++ (closer.toList ++ ts))))
    (law : ∀ f', read f' = read rest →
      read' (.block opener body closer f') = read' (.block opener body closer rest)) :
    Stands h ready' read' (.block opener body closer rest) o := by
  obtain ⟨a, g, gap, starts, eq, rfl, settled, alike⟩ := s
  exact ⟨.behind opener body closer a, g, gap, starts, eq, rfl, front _ settled,
    fun g' same => law _ (alike g' same)⟩

theorem within (s : Stands h ready read body o) (front : ∀ ts, ready ts → ready' (opener :: ts))
    (law : ∀ f', read f' = read body →
      read' (.block opener f' closer rest) = read' (.block opener body closer rest)) :
    Stands h ready' read' (.block opener body closer rest) o := by
  obtain ⟨a, g, gap, starts, eq, rfl, settled, alike⟩ := s
  exact ⟨.within opener a closer rest, g, gap, starts, eq, rfl, front _ settled,
    fun g' same => law _ (alike g' same)⟩

end Stands

/-- The statements of a forest stand in it, where it is a list and where it is the rest of a
statement that has begun. There, more than white space stands in front of them. -/
structure AllStand (h : Header → Header) (f : Forest) : Prop where
  list : ∀ o ∈ (ofForest f).statements, Stands h Settled (listed h) f o
  tail : ∀ custom colon, ∀ o ∈ (finish custom colon f).2.statements,
    Stands h (fun ts => Settled ts ∧ Filled ts) (finished h custom colon) f o

namespace AllStand

section

variable {h : Header → Header} {token : Token} {rest : Forest}

theorem nil : AllStand h .nil := by
  constructor
  · rw [ofForest_nil]
    intro o ho
    cases ho
  · intro custom colon
    rw [finish]
    intro o ho
    cases ho

theorem list_leaf (s : AllStand h rest) (last : token.closed = false → rest = .nil) :
    ∀ o ∈ (ofForest (.leaf token rest)).statements,
      Stands h Settled (listed h) (.leaf token rest) o := by
  cases leaf_first token with
  | gap is eq =>
    have own : token.kind = .space ∨ token.shut = true :=
      is.imp_right fun semicolon => by rw [Token.shut, semicolon]
    rw [eq]
    refine statements_prepend (fun o stands => stands.prepend token.text) ?_
    intro o ho
    refine (s.list o ho).leaf (fun ts settled => settled.cons (own.imp_right .inl)) ?_
    intro f' same
    rw [listed, listed, eq, eq, mapHeaders_prepend, mapHeaders_prepend]
    exact congrArg (Outline.prepend token.text) same
  | comment body closed is eq =>
    rw [eq]
    intro o ho
    have shut : token.shut = true := by
      cases closed with
      | true => rw [Token.shut, is]
      | false =>
        have empty := last (by rw [Token.closed, is])
        rw [empty, ofForest_nil] at ho
        cases ho
    refine (s.list o ho).leaf (fun ts settled => settled.cons (.inr (.inl shut))) ?_
    intro f' same
    rw [listed, listed, eq, eq]
    exact congrArg (Outline.comment [] body closed token.start) same
  | statement eq starts =>
    have own : Stands h Settled (listed h) (.leaf token rest) (ofForest (.leaf token rest)) :=
      .self starts
    rw [eq] at own ⊢
    rw [statements_statement]
    refine List.forall_mem_cons.mpr ⟨own, ?_⟩
    intro o ho
    refine (s.tail _ _ o ho).leaf (fun ts ready => ready.1.cons (.inr (.inr ready.2))) ?_
    intro f' same
    obtain ⟨text, ending⟩ := Prod.mk.inj same
    rw [listed, listed, eq, eq, text]
    exact mapHeaders_statement ending _ _

theorem tail_leaf (s : AllStand h rest) (custom colon : Bool) :
    ∀ o ∈ (finish custom colon (.leaf token rest)).2.statements,
      Stands h (fun ts => Settled ts ∧ Filled ts) (finished h custom colon)
        (.leaf token rest) o := by
  cases leaf_inside custom colon token with
  | ends is eq =>
    rw [eq]
    intro o ho
    have shut : token.shut = true := by rw [Token.shut, is]
    refine (s.list o ho).leaf (fun ts settled => ⟨settled.cons (.inr (.inl shut)), token,
      List.mem_cons_self, by simp [is]⟩) ?_
    intro f' same
    rw [finished, finished, eq, eq]
    exact congrArg (fun o => (([], .flat true o) : Text × Ending)) same
  | goesOn colon' eq =>
    rw [eq]
    intro o ho
    refine (s.tail custom colon' o ho).leaf
      (fun ts ready => ⟨ready.1.cons (.inr (.inr ready.2)), ready.2.append [token]⟩) ?_
    intro f' same
    obtain ⟨text, ending⟩ := Prod.mk.inj same
    rw [finished, finished, eq, eq, text, ending]

end

section

variable {h : Header → Header} {opener : Token} {body : Forest} {closer : Option Token}
  {rest : Forest}

/-- In front of a statement a body may stand. Its bracket ends it, since otherwise nothing
follows. -/
theorem settled_body (curly : opener.kind = .opener .curly)
    (closes : ∀ b, opener.opens? = some b → ∀ t ∈ closer, t.kind = .closer b)
    (last : closer = none → rest = .nil) {o : Outline} (ho : o ∈ (ofForest rest).statements)
    {ts : List Token} (settled : Settled ts) :
    Settled (opener :: (body.tokens ++ (closer.toList ++ ts))) := by
  cases closer with
  | none =>
    rw [last rfl, ofForest_nil] at ho
    cases ho
  | some t =>
    have kind := closes .curly (by rw [Token.opens?, curly]) t rfl
    exact settled.behind (by rw [Token.shut, kind]) (by simp [kind]) (opener :: body.tokens)

theorem list_block (inner : AllStand h body) (s : AllStand h rest)
    (closes : ∀ b, opener.opens? = some b → ∀ t ∈ closer, t.kind = .closer b)
    (last : closer = none → rest = .nil) :
    ∀ o ∈ (ofForest (.block opener body closer rest)).statements,
      Stands h Settled (listed h) (.block opener body closer rest) o := by
  have own : Stands h Settled (listed h) (.block opener body closer rest)
      (ofForest (.block opener body closer rest)) := .self trivial
  cases block_first opener body closer with
  | nest curly =>
    have eq (f g : Forest) : ofForest (.block opener f closer g) =
        .nest [] (.plain []) opener.start (ofForest f) closer.isSome (ofForest g) := by
      rw [ofForest, if_pos curly]
    rw [eq] at own ⊢
    refine List.forall_mem_cons.mpr ⟨own, List.forall_mem_append.mpr ⟨?_, ?_⟩⟩
    · intro o ho
      refine (inner.list o ho).within (fun ts settled => settled.body curly) ?_
      intro f' same
      simp only [listed] at same ⊢
      simp only [eq, mapHeaders, same]
    · intro o ho
      refine (s.list o ho).behind (fun ts => settled_body curly closes last ho) ?_
      intro f' same
      simp only [listed] at same ⊢
      simp only [eq, mapHeaders, same]
  | statement colon eq =>
    rw [eq] at own ⊢
    rw [statements_statement]
    refine List.forall_mem_cons.mpr ⟨own, ?_⟩
    intro o ho
    refine (s.tail false colon o ho).behind (fun ts ready => ready.1.block ready.2 ..) ?_
    intro f' same
    obtain ⟨text, ending⟩ := Prod.mk.inj same
    rw [listed, listed, eq, eq, text]
    exact mapHeaders_statement ending _ _

theorem tail_block (inner : AllStand h body) (s : AllStand h rest)
    (closes : ∀ b, opener.opens? = some b → ∀ t ∈ closer, t.kind = .closer b)
    (last : closer = none → rest = .nil) (custom colon : Bool) :
    ∀ o ∈ (finish custom colon (.block opener body closer rest)).2.statements,
      Stands h (fun ts => Settled ts ∧ Filled ts) (finished h custom colon)
        (.block opener body closer rest) o := by
  by_cases is : (decide (opener.kind = .opener .curly) && !(custom && colon)) = true
  · have curly : opener.kind = .opener .curly := of_decide_eq_true (Bool.and_eq_true_iff.mp is).1
    have eq (f g : Forest) : finish custom colon (.block opener f closer g) =
        ([], .nest (ofForest f) closer.isSome (ofForest g)) := by
      rw [finish, if_pos is]
    have filled (ts : List Token) : Filled (opener :: ts) :=
      ⟨opener, List.mem_cons_self, by simp [curly]⟩
    rw [eq]
    refine List.forall_mem_append.mpr ⟨?_, ?_⟩
    · intro o ho
      refine (inner.list o ho).within (fun ts settled => ⟨settled.body curly, filled ts⟩) ?_
      intro f' same
      simp only [listed, finished] at same ⊢
      simp only [eq, Ending.mapHeaders, same]
    · intro o ho
      refine (s.list o ho).behind
        (fun ts settled => ⟨settled_body curly closes last ho settled, filled _⟩) ?_
      intro f' same
      simp only [listed, finished] at same ⊢
      simp only [eq, Ending.mapHeaders, same]
  · let within := Forest.blockText opener body closer
    have eq (g : Forest) : finish custom colon (.block opener body closer g) =
        (within ++ (finish custom (colon || within.contains ':') g).1,
          (finish custom (colon || within.contains ':') g).2) := by
      rw [finish, if_neg is]
    rw [eq]
    intro o ho
    refine (s.tail custom _ o ho).behind (fun ts ready => ⟨ready.1.block ready.2 .., ?_⟩) ?_
    · have filled := ready.2.append (opener :: (body.tokens ++ closer.toList))
      simpa using filled
    · intro f' same
      obtain ⟨text, ending⟩ := Prod.mk.inj same
      simp only [finished, eq, text, ending]

end

end AllStand

/-- Every statement of a forest stands in it behind settled tokens. -/
theorem stands_of_mem (h : Header → Header) {f : Forest} {within : Option Bracket}
    (grouped : f.Grouped within) (last : f.OpenLast) : AllStand h f := by
  induction f generalizing within with
  | nil => exact .nil
  | leaf token rest ih =>
    have others := ih grouped.2.2 last.2
    exact ⟨others.list_leaf last.1, others.tail_leaf⟩
  | block opener body closer rest inner ih =>
    obtain ⟨⟨b, opens, inside, closes⟩, grouped⟩ := grouped
    obtain ⟨ends, -, within, last⟩ := last
    have beneath := inner inside within
    have others := ih grouped last
    have shuts (b' : Bracket) (opens' : opener.opens? = some b') :
        ∀ t ∈ closer, t.kind = .closer b' := by
      obtain rfl := Option.some.inj (opens.symm.trans opens')
      exact closes
    exact ⟨beneath.list_block others shuts ends, beneath.tail_block others shuts ends⟩

end Outline

end BemSheet.Css
