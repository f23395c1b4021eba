import BemSheet.Proofs.Css.Regrouping

/-!
Lists of statements one after another.

* `ofForest_append`: behind statements that all end, the statements of what follows come as they are
  apart.
* `ends_of_ended`: nothing is left open in statements that all end, and nothing that follows is
  added to their tokens.
-/

namespace BemSheet.Css

namespace Outline

/-- One list of statements after another. -/
def append : Outline → Outline → Outline
  | done after, o => o.prepend after
  | comment before body closed start rest, o => .comment before body closed start (rest.append o)
  | flat before header start semicolon rest, o =>
    .flat before header start semicolon (rest.append o)
  | nest before header start body closed rest, o =>
    .nest before header start body closed (rest.append o)

/-- Every statement of a list shows where it ends. -/
def Ended : Outline → Prop
  | done _ => True
  | comment _ _ _ _ rest => rest.Ended
  | flat _ _ _ semicolon rest => semicolon = true ∧ rest.Ended
  | nest _ _ _ _ _ rest => rest.Ended

/-- One statement or comment, and nothing behind it. -/
def Single : Outline → Prop
  | done _ => False
  | comment _ _ _ _ rest | flat _ _ _ _ rest | nest _ _ _ _ _ rest => rest = done []

end Outline

namespace Ending

def append : Ending → Outline → Ending
  | flat semicolon rest, o => .flat semicolon (rest.append o)
  | nest body closed rest, o => .nest body closed (rest.append o)

def Ended : Ending → Prop
  | flat semicolon rest => semicolon = true ∧ rest.Ended
  | nest _ _ rest => rest.Ended

def Single : Ending → Prop
  | flat _ rest | nest _ _ rest => rest = .done []

end Ending

/-- A token that a statement starts with, rather than a gap or a comment. -/
structure Token.Starts (t : Token) : Prop where
  no_space : t.kind ≠ .space
  no_semicolon : t.kind ≠ .semicolon
  no_comment : ∀ body closed, t.kind ≠ .comment body closed

namespace Outline

theorem ofForest_nil : ofForest .nil = done [] := by rw [ofForest]

theorem prepend_nil (o : Outline) : o.prepend [] = o := by cases o <;> rfl

theorem append_nil (o : Outline) : o.append (done []) = o := by
  induction o with
  | done after => simp [append, prepend]
  | comment before body closed start rest ih => rw [append, ih]
  | flat before header start semicolon rest ih => rw [append, ih]
  | nest before header start body closed rest _ ih => rw [append, ih]

theorem prepend_append (gap : Text) (o o' : Outline) :
    (o.prepend gap).append o' = (o.append o').prepend gap := by
  cases o with
  | done after => cases o' <;> simp [prepend, append]
  | comment | flat | nest => rfl

theorem ended_prepend {gap : Text} {o : Outline} : (o.prepend gap).Ended ↔ o.Ended := by
  cases o <;> rfl

theorem single_prepend {gap : Text} {o : Outline} : (o.prepend gap).Single ↔ o.Single := by
  cases o <;> rfl

theorem statement_append (header : Header) (start : Location) (e : Ending) (o : Outline) :
    (statement header start e).append o = statement header start (e.append o) := by
  cases e <;> rfl

theorem ended_statement {header : Header} {start : Location} {e : Ending} :
    (statement header start e).Ended ↔ e.Ended := by
  cases e <;> rfl

theorem single_statement {header : Header} {start : Location} {e : Ending} :
    (statement header start e).Single ↔ e.Single := by
  cases e <;> rfl

/-! ## What a token or a block does to the list that it stands in -/

/-- A token in front of a list of statements. -/
inductive LeafFirst (t : Token) : Prop
  | gap (is : t.kind = .space ∨ t.kind = .semicolon)
    (eq : ∀ rest, ofForest (.leaf t rest) = (ofForest rest).prepend t.text)
  | comment (body : Text) (closed : Bool) (is : t.kind = .comment body closed)
    (eq : ∀ rest, ofForest (.leaf t rest) = .comment [] body closed t.start (ofForest rest))
  | statement (eq : ∀ rest, ofForest (.leaf t rest) =
      statement (.of t (finish t.isCustomName t.hasColon rest).1) t.start
        (finish t.isCustomName t.hasColon rest).2) (starts : t.Starts)

theorem leaf_first (t : Token) : LeafFirst t := by
  cases is : t.kind with
  | space => exact .gap (.inl is) fun rest => by simp only [ofForest, is]
  | semicolon => exact .gap (.inr is) fun rest => by simp only [ofForest, is]
  | comment body closed => exact .comment body closed is fun rest => by simp only [ofForest, is]
  | _ =>
    exact .statement (fun rest => by simp only [ofForest, is])
      ⟨by simp [is], by simp [is], by simp [is]⟩

/-- A token inside of a statement. -/
inductive LeafInside (custom colon : Bool) (t : Token) : Prop
  | ends (is : t.kind = .semicolon)
    (eq : ∀ rest, finish custom colon (.leaf t rest) = ([], .flat true (ofForest rest)))
  | goesOn (colon' : Bool) (eq : ∀ rest, finish custom colon (.leaf t rest) =
      (t.text ++ (finish custom colon' rest).1, (finish custom colon' rest).2))

theorem leaf_inside (custom colon : Bool) (t : Token) : LeafInside custom colon t := by
  by_cases is : t.kind = .semicolon
  · exact .ends is fun rest => by rw [finish, if_pos is]
  · exact .goesOn (colon || t.hasColon) fun rest => by rw [finish, if_neg is]

section

variable (opener : Token) (body : Forest) (closer : Option Token)

/-- A block in front of a list of statements. -/
inductive BlockFirst : Prop
  | nest (is : opener.kind = .opener .curly)
    (eq : ∀ rest, ofForest (.block opener body closer rest) =
      .nest [] (.plain []) opener.start (ofForest body) closer.isSome (ofForest rest))
  | statement (colon : Bool) (eq : ∀ rest, ofForest (.block opener body closer rest) =
      statement (.plain (Forest.blockText opener body closer ++ (finish false colon rest).1))
        opener.start (finish false colon rest).2)

theorem block_first : BlockFirst opener body closer := by
  by_cases is : opener.kind = .opener .curly
  · exact .nest is fun rest => by rw [ofForest, if_pos is]
  · exact .statement _ fun rest => by rw [ofForest, if_neg is]

/-- A block inside of a statement. -/
inductive BlockInside (custom colon : Bool) : Prop
  | ends (is : opener.kind = .opener .curly)
    (eq : ∀ rest, finish custom colon (.block opener body closer rest) =
      ([], .nest (ofForest body) closer.isSome (ofForest rest)))
  | goesOn (colon' : Bool) (eq : ∀ rest, finish custom colon (.block opener body closer rest) =
      (Forest.blockText opener body closer ++ (finish custom colon' rest).1,
        (finish custom colon' rest).2))

theorem block_inside (custom colon : Bool) : BlockInside opener body closer custom colon := by
  by_cases is : (decide (opener.kind = .opener .curly) && !(custom && colon)) = true
  · have curly : opener.kind = .opener .curly :=
      of_decide_eq_true (Bool.and_eq_true_iff.mp is).1
    exact .ends curly fun rest => by rw [finish, if_pos is]
  · exact .goesOn _ fun rest => by rw [finish, if_neg is]

end

/-! ## One list behind another -/

/-- The statements of two forests, one after the other, if those of the first all end. -/
theorem ofForest_append (f g : Forest) :
    ((ofForest f).Ended → ofForest (f.append g) = (ofForest f).append (ofForest g)) ∧
    ∀ custom colon, (finish custom colon f).2.Ended → finish custom colon (f.append g) =
      ((finish custom colon f).1, (finish custom colon f).2.append (ofForest g)) := by
  induction f with
  | nil =>
    constructor
    · intro _
      rw [Forest.append, ofForest, append, prepend_nil]
    · intro custom colon ended
      rw [finish] at ended
      cases ended.1
  | leaf token rest ih =>
    obtain ⟨list, tail⟩ := ih
    constructor
    · intro ended
      rw [Forest.append]
      cases leaf_first token with
      | gap _ eq =>
        rw [eq] at ended ⊢
        rw [eq, list (ended_prepend.mp ended), prepend_append]
      | comment _ _ _ eq =>
        rw [eq] at ended ⊢
        rw [eq, list ended]
        rfl
      | statement eq =>
        rw [eq] at ended ⊢
        rw [eq, tail _ _ (ended_statement.mp ended), statement_append]
    · intro custom colon ended
      rw [Forest.append]
      cases leaf_inside custom colon token with
      | ends _ eq =>
        rw [eq] at ended ⊢
        rw [eq, list ended.2]
        rfl
      | goesOn colon' eq =>
        rw [eq] at ended ⊢
        rw [eq, tail custom colon' ended]
  | block opener body closer rest _ ih =>
    obtain ⟨list, tail⟩ := ih
    constructor
    · intro ended
      rw [Forest.append]
      cases block_first opener body closer with
      | nest _ eq =>
        rw [eq] at ended ⊢
        rw [eq, list ended]
        rfl
      | statement colon eq =>
        rw [eq] at ended ⊢
        rw [eq, tail _ _ (ended_statement.mp ended), statement_append]
    · intro custom colon ended
      rw [Forest.append]
      cases block_inside opener body closer custom colon with
      | ends _ eq =>
        rw [eq] at ended ⊢
        rw [eq, list ended]
        rfl
      | goesOn colon' eq =>
        rw [eq] at ended ⊢
        rw [eq, tail custom colon' ended]

/-! ## The end of the last statement -/

theorem closed_append (o o' : Outline) : (o.append o').closed = (o.closed && o'.closed) := by
  induction o with
  | done after => rw [append, closed_prepend]; rfl
  | comment before body closed start rest ih =>
    rw [append, closed_comment, closed_comment, ih, Bool.and_assoc]
  | flat before header start semicolon rest ih => exact ih
  | nest before header start body closed rest _ ih =>
    rw [append, closed_nest, closed_nest, ih, Bool.and_assoc, Bool.and_assoc, Bool.and_assoc]

end Outline

namespace Forest

/-- Nothing is left open in a forest, and nothing that follows is added to its tokens. -/
structure Ends (f : Forest) : Prop where
  closed : f.closed = true
  shut : Shut f.tokens

/-- There is more than white space in a forest. -/
def Filled (f : Forest) : Prop := ∃ t ∈ f.tokens, t.kind ≠ .space

section

variable {t : Token} {rest : Forest}

theorem Ends.space (h : rest.Ends) (space : t.kind = .space) : (leaf t rest).Ends where
  closed := by rw [Forest.closed, Token.closed, space, h.closed]; rfl
  shut := h.shut.cons (.inl space)

theorem Ends.leaf (h : rest.Ends) (shut : t.shut = true) : (leaf t rest).Ends where
  closed := by rw [Forest.closed, t.closed_of_shut shut, h.closed]; rfl
  shut := h.shut.cons (.inr (.inl shut))

/-- A token that others follow. It is closed, since only the last one can be open. -/
theorem Ends.before (h : rest.Ends) (filled : rest.Filled) (last : (Forest.leaf t rest).OpenLast) :
    (Forest.leaf t rest).Ends ∧ (Forest.leaf t rest).Filled := by
  obtain ⟨u, mem, other⟩ := filled
  have whole : t.closed = true := by
    cases is : t.closed with
    | true => rfl
    | false =>
      rw [last.1 is] at mem
      cases mem
  refine ⟨⟨?_, h.shut.cons (.inr (.inr ⟨u, mem, other⟩))⟩, u, List.mem_cons_of_mem t mem, other⟩
  rw [Forest.closed, whole, h.closed]
  rfl

variable {opener closer : Token} {body : Forest}

theorem closed_block (last : (block opener body (some closer) rest).OpenLast)
    (h : rest.closed = true) : (block opener body (some closer) rest).closed = true := by
  rw [Forest.closed, last.2.1 rfl, h]
  rfl

/-- A block that nothing follows but what ends. -/
theorem Ends.block (h : rest.Ends) (last : (block opener body (some closer) rest).OpenLast)
    (shut : closer.shut = true) : (Forest.block opener body (some closer) rest).Ends where
  closed := closed_block last h.closed
  shut := by
    have other : closer.kind ≠ .space := by
      intro space
      rw [Token.shut, space] at shut
      cases shut
    exact (h.shut.cons (.inr (.inl shut))).append ⟨closer, List.mem_cons_self, other⟩
      (opener :: body.tokens)

/-- A block that belongs to the text of a statement, which goes on. -/
theorem Ends.beforeBlock (h : rest.Ends) (filled : rest.Filled)
    (last : (Forest.block opener body (some closer) rest).OpenLast) :
    (Forest.block opener body (some closer) rest).Ends ∧
      (Forest.block opener body (some closer) rest).Filled := by
  have shut := h.shut.append filled (opener :: (body.tokens ++ [closer]))
  obtain ⟨u, mem, other⟩ := filled
  refine ⟨⟨closed_block last h.closed, ?_⟩, u, ?_, other⟩
  · simpa [tokens] using shut
  · simp [tokens, mem]

end

end Forest

namespace Outline

/-- Where all statements end and nothing is left open in them, the tokens end too. Inside of a
statement, more than white space is still to come. -/
theorem ends_of_ended {f : Forest} {within : Option Bracket} (grouped : f.Grouped within)
    (last : f.OpenLast) :
    ((ofForest f).Ended → (ofForest f).closed = true → f.Ends) ∧
    ∀ custom colon header start, (finish custom colon f).2.Ended →
      (statement header start (finish custom colon f).2).closed = true → f.Ends ∧ f.Filled := by
  induction f with
  | nil =>
    constructor
    · intro _ _
      exact ⟨rfl, shut_nil⟩
    · intro custom colon header start ended
      rw [finish] at ended
      cases ended.1
  | leaf token rest ih =>
    obtain ⟨list, tail⟩ := ih grouped.2.2 last.2
    constructor
    · intro ended closed
      cases leaf_first token with
      | gap is eq =>
        rw [eq] at ended closed
        rw [closed_prepend] at closed
        have others := list (ended_prepend.mp ended) closed
        rcases is with space | semicolon
        · exact others.space space
        · exact others.leaf (by rw [Token.shut, semicolon])
      | comment body shut is eq =>
        rw [eq] at ended closed
        rw [closed_comment, Bool.and_eq_true] at closed
        obtain ⟨rfl, closed⟩ := closed
        exact (list ended closed).leaf (by rw [Token.shut, is])
      | statement eq =>
        rw [eq] at ended closed
        obtain ⟨others, filled⟩ := tail _ _ _ _ (ended_statement.mp ended) closed
        exact (others.before filled last).1
    · intro custom colon header start ended closed
      cases leaf_inside custom colon token with
      | ends is eq =>
        rw [eq] at ended closed
        have others := list ended.2 closed
        exact ⟨others.leaf (by rw [Token.shut, is]), token, List.mem_cons_self, by simp [is]⟩
      | goesOn colon' eq =>
        rw [eq] at ended closed
        obtain ⟨others, filled⟩ := tail custom colon' header start ended closed
        exact others.before filled last
  | block opener body closer rest _ ih =>
    obtain ⟨⟨b, opens, -, closes⟩, grouped⟩ := grouped
    obtain ⟨list, tail⟩ := ih grouped last.2.2.2
    have nested (curly : opener.kind = .opener .curly) (closed : closer.isSome = true)
        (others : rest.Ends) : (Forest.block opener body closer rest).Ends := by
      obtain ⟨t, rfl⟩ := Option.isSome_iff_exists.mp closed
      rw [Token.opens?, curly] at opens
      obtain rfl := Option.some.inj opens
      exact others.block last (by rw [Token.shut, closes t rfl])
    have goesOn (others : rest.Ends) (filled : rest.Filled) :
        (Forest.block opener body closer rest).Ends ∧
          (Forest.block opener body closer rest).Filled := by
      cases closer with
      | some t => exact others.beforeBlock filled last
      | none =>
        obtain ⟨u, mem, -⟩ := filled
        rw [last.1 rfl] at mem
        cases mem
    constructor
    · intro ended closed
      cases block_first opener body closer with
      | nest is eq =>
        rw [eq] at ended closed
        rw [closed_nest, Bool.and_eq_true, Bool.and_eq_true] at closed
        exact nested is closed.1.1 (list ended closed.2)
      | statement colon eq =>
        rw [eq] at ended closed
        obtain ⟨others, filled⟩ := tail _ _ _ _ (ended_statement.mp ended) closed
        exact (goesOn others filled).1
    · intro custom colon header start ended closed
      cases block_inside opener body closer custom colon with
      | ends is eq =>
        rw [eq] at ended closed
        rw [statement, closed_nest, Bool.and_eq_true, Bool.and_eq_true] at closed
        exact ⟨nested is closed.1.1 (list ended closed.2), opener, List.mem_cons_self,
          by simp [is]⟩
      | goesOn colon' eq =>
        rw [eq] at ended closed
        obtain ⟨others, filled⟩ := tail custom colon' header start ended closed
        exact goesOn others filled

end Outline

end BemSheet.Css
