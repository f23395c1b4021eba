import BemSheet.Proofs.Css.Statement
import BemSheet.Proofs.Sheet.Preorder
import BemSheet.Proofs.Text.Blanks
import Mathlib.Data.List.Infix

/-!
Trees that stand for a text.

* `Node.LaidOut`: the layout of a node is what reading would find around its parts. Every tree that
  was read is laid out.
* `Node.SafeTexts`: what a node says disturbs no statement.
* A style sheet is `WellFormed` if both hold of every node, and if every statement ends before the
  next one starts.
-/

namespace BemSheet

open Css Text

namespace Node

/-- Whether the text of a node shows where the node ends. -/
def ended : Node → Bool
  | rule .. | comment .. | atRule _ _ (some _) _ _ => true
  | atRule _ _ none layout _ | declaration _ _ layout _ => layout.semicolon

/-- Every node of a list shows where it ends, except that nothing may stand behind the last one. -/
def Terminated : List Node → Text → Prop
  | [], _ => True
  | n :: ns, after => (n.ended = true ∨ ns = [] ∧ after = []) ∧ Terminated ns after

/-! ## Layouts -/

structure RuleLayout (nodes : List Node) (layout : Layout) : Prop where
  before : Gap layout.before
  between : Blank layout.between
  afterName : layout.afterName = []
  after : Gap layout.after
  semicolon : layout.semicolon = false
  terminated : Terminated nodes layout.after

/-- What may stand around the children of an at-rule, or in their place. -/
def BodyLayout (layout : Layout) : Option (List Node) → Prop
  | none => layout.after = []
  | some nodes => Gap layout.after ∧ layout.semicolon = false ∧ Terminated nodes layout.after

/-- Nothing that follows the name of an at-rule continues the name. -/
structure AtRuleLayout (params : Text) (body : Option (List Node)) (layout : Layout) : Prop where
  before : Gap layout.before
  trimmed : Trimmed params
  afterName : Blank layout.afterName
  between : Blank layout.between
  between_nil : params = [] → layout.between = []
  apart : startsWith isNameChar (layout.afterName ++ params) = false
  body : BodyLayout layout body

structure DeclarationLayout (property value : Text) (layout : Layout) : Prop where
  before : Gap layout.before
  no_colon : ':' ∉ property
  starts : startsWith isSpace (property ++ layout.between) = false
  property_last : EndsFilled property
  between : layout.between.trim = [':']
  trimmed : Trimmed value
  after : Blank layout.after
  after_nil : value = [] → layout.after = []
  afterName : layout.afterName = []

structure CommentLayout (text : Text) (layout : Layout) : Prop where
  before : Gap layout.before
  no_end : ¬ ['*', '/'] <:+: text
  others : layout = { before := layout.before }

section

variable (nodes : List Node) (body : Option (List Node)) (after params property value text : Text)
  (layout : Layout)

instance decTerminated : (nodes : List Node) → (after : Text) → Decidable (Terminated nodes after)
  | [], _ => isTrue trivial
  | n :: ns, after =>
    have := decTerminated ns after
    inferInstanceAs
      (Decidable ((n.ended = true ∨ ns = [] ∧ after = []) ∧ Terminated ns after))

instance : Decidable (RuleLayout nodes layout) :=
  decidable_of_iff
    (Gap layout.before ∧ Blank layout.between ∧ layout.afterName = [] ∧ Gap layout.after ∧
      layout.semicolon = false ∧ Terminated nodes layout.after)
    ⟨fun ⟨a, b, c, d, e, f⟩ => ⟨a, b, c, d, e, f⟩, fun ⟨a, b, c, d, e, f⟩ => ⟨a, b, c, d, e, f⟩⟩

instance : Decidable (BodyLayout layout body) :=
  match body with
  | none => inferInstanceAs (Decidable (layout.after = []))
  | some nodes => inferInstanceAs
      (Decidable (Gap layout.after ∧ layout.semicolon = false ∧ Terminated nodes layout.after))

instance : Decidable (AtRuleLayout params body layout) :=
  decidable_of_iff
    (Gap layout.before ∧ Trimmed params ∧ Blank layout.afterName ∧ Blank layout.between ∧
      (params = [] → layout.between = []) ∧
      startsWith isNameChar (layout.afterName ++ params) = false ∧ BodyLayout layout body)
    ⟨fun ⟨a, b, c, d, e, f, g⟩ => ⟨a, b, c, d, e, f, g⟩,
      fun ⟨a, b, c, d, e, f, g⟩ => ⟨a, b, c, d, e, f, g⟩⟩

instance : Decidable (DeclarationLayout property value layout) :=
  decidable_of_iff
    (Gap layout.before ∧ ':' ∉ property ∧
      startsWith isSpace (property ++ layout.between) = false ∧
      (EndsFilled property) ∧ layout.between.trim = [':'] ∧
      Trimmed value ∧ Blank layout.after ∧ (value = [] → layout.after = []) ∧
      layout.afterName = [])
    ⟨fun ⟨a, b, c, d, e, f, g, h, i⟩ => ⟨a, b, c, d, e, f, g, h, i⟩,
      fun ⟨a, b, c, d, e, f, g, h, i⟩ => ⟨a, b, c, d, e, f, g, h, i⟩⟩

instance : Decidable (CommentLayout text layout) :=
  decidable_of_iff
    (Gap layout.before ∧ ¬ ['*', '/'] <:+: text ∧ layout = { before := layout.before })
    ⟨fun ⟨a, b, c⟩ => ⟨a, b, c⟩, fun ⟨a, b, c⟩ => ⟨a, b, c⟩⟩

end

/-- Reading the text of a node would find this layout around its parts. -/
def LaidOut : Node → Prop
  | rule _ nodes layout _ => RuleLayout nodes layout
  | atRule _ params body layout _ => AtRuleLayout params body layout
  | declaration property value layout _ => DeclarationLayout property value layout
  | comment text layout _ => CommentLayout text layout

instance (n : Node) : Decidable n.LaidOut :=
  match n with
  | rule _ nodes layout _ => inferInstanceAs (Decidable (RuleLayout nodes layout))
  | atRule _ params body layout _ => inferInstanceAs (Decidable (AtRuleLayout params body layout))
  | declaration property value layout _ =>
    inferInstanceAs (Decidable (DeclarationLayout property value layout))
  | comment text layout _ => inferInstanceAs (Decidable (CommentLayout text layout))

/-! ## Texts -/

/-- A name of plain characters, of which a letter is the first, or the second after a hyphen. -/
def isPlainName (name : Text) : Bool :=
  (startsWith Char.isAlpha name ||
    startsWith (· == '-') name && startsWith Char.isAlpha (name.drop 1)) &&
  name.all isPlainChar

/-- A selector whose rule is read as one. Two hyphens and a colon would make it a custom
property. -/
structure SafeSelector (selector : Text) : Prop where
  safe : Safe selector
  nonempty : selector ≠ []
  trimmed : Trimmed selector
  no_colon : ['-', '-'] <+: selector → ':' ∉ selector

/-- What the node says disturbs no statement. -/
def SafeTexts : Node → Prop
  | rule selector _ _ _ => SafeSelector selector
  | atRule name params _ _ _ => isPlainName name = true ∧ Safe params
  | declaration property value _ _ => Safe property ∧ Safe value
  | comment _ _ _ => True

instance (selector : Text) : Decidable (SafeSelector selector) :=
  decidable_of_iff
    (Safe selector ∧ selector ≠ [] ∧ Trimmed selector ∧ (['-', '-'] <+: selector → ':' ∉ selector))
    ⟨fun ⟨a, b, c, d⟩ => ⟨a, b, c, d⟩, fun ⟨a, b, c, d⟩ => ⟨a, b, c, d⟩⟩

instance (n : Node) : Decidable n.SafeTexts :=
  match n with
  | rule selector _ _ _ => inferInstanceAs (Decidable (SafeSelector selector))
  | atRule name params _ _ _ =>
    inferInstanceAs (Decidable (isPlainName name = true ∧ Safe params))
  | declaration property value _ _ => inferInstanceAs (Decidable (Safe property ∧ Safe value))
  | comment .. => inferInstanceAs (Decidable True)

end Node

/-- Printing the tree gives a text that it can be read from. -/
structure Sheet.WellFormed (sheet : Sheet) : Prop where
  laidOut : ∀ n ∈ Node.preorderAll sheet.nodes, n.LaidOut
  safe : ∀ n ∈ Node.preorderAll sheet.nodes, n.SafeTexts
  terminated : Node.Terminated sheet.nodes sheet.after
  after : Gap sheet.after

instance (sheet : Sheet) : Decidable sheet.WellFormed :=
  decidable_of_iff
    ((∀ n ∈ Node.preorderAll sheet.nodes, n.LaidOut) ∧
      (∀ n ∈ Node.preorderAll sheet.nodes, n.SafeTexts) ∧
      Node.Terminated sheet.nodes sheet.after ∧ Gap sheet.after)
    ⟨fun ⟨a, b, c, d⟩ => ⟨a, b, c, d⟩, fun ⟨a, b, c, d⟩ => ⟨a, b, c, d⟩⟩

namespace Node

/-! ## The parts of a node's text -/

theorem isPlainName_row {name : Text} (h : isPlainName name = true) :
    ∀ c ∈ name, isNameChar c = true := by
  intro c hc
  rw [isPlainName, Bool.and_eq_true] at h
  have plain := List.all_eq_true.mp h.2 c hc
  simp only [isPlainChar, Char.isAlphanum, Bool.or_eq_true, beq_iff_eq] at plain
  rcases plain with ((alpha | digit) | rfl) | rfl
  · simp [isNameChar, isNameStart, alpha]
  · simp [isNameChar, digit]
  · rfl
  · rfl

theorem startsIdent_of_isPlainName {name : Text} (h : isPlainName name = true) :
    startsIdent name = true := by
  have row := isPlainName_row h
  have letter : ∀ c : Char, c.isAlpha = true → isNameStart c = true := by
    intro c alpha
    simp [isNameStart, alpha]
  rw [isPlainName, Bool.and_eq_true, Bool.or_eq_true, Bool.and_eq_true] at h
  cases name with
  | nil => simp [startsWith] at h
  | cons c name =>
    have plain := not_backslash_of_isNameChar (row c List.mem_cons_self)
    rw [startsIdent, if_neg plain]
    rcases h.1 with alpha | ⟨hyphen, alpha⟩
    · have nohyphen : c ≠ '-' := by
        rintro rfl
        cases alpha
      rw [if_neg nohyphen]
      exact letter c alpha
    · obtain rfl : c = '-' := beq_iff_eq.mp hyphen
      rw [if_pos rfl]
      cases name with
      | nil => cases alpha
      | cons d name => simp [startsWith, letter d alpha]

theorem SafeSelector.starts {selector : Text} (h : SafeSelector selector) (back : Text) :
    startsWith isSpace (selector ++ back) = false := by
  cases selector with
  | nil => exact absurd rfl h.nonempty
  | cons c selector =>
    have filled : isBlank c = false := h.trimmed.first c rfl
    rw [Bool.eq_false_iff]
    intro space
    rw [isBlank_of_isSpace space] at filled
    cases filled

/-- Two hyphens at the head of a text stand in the part of it in front of another character. -/
theorem hyphens_of_append {a b : Text} (other : ∀ c ∈ b.head?, c ≠ '-')
    (h : ['-', '-'] <+: a ++ b) : ['-', '-'] <+: a := by
  match a, h with
  | [], h =>
    obtain ⟨t, eq⟩ := h
    obtain rfl : ['-', '-'] ++ t = b := eq
    exact absurd rfl (other '-' rfl)
  | [_], h =>
    obtain ⟨t, eq⟩ := (List.cons_prefix_cons.mp h).2
    obtain rfl : ['-'] ++ t = b := eq
    exact absurd rfl (other '-' rfl)
  | _ :: _ :: a, h =>
    obtain ⟨rfl, second⟩ := List.cons_prefix_cons.mp h
    obtain ⟨rfl, -⟩ := List.cons_prefix_cons.mp second
    exact ⟨a, rfl⟩

/-- A selector with the blanks after it is no custom property with its colon. -/
theorem SafeSelector.no_colon_append {selector between : Text} (h : SafeSelector selector)
    (blank : Blank between) (hyphens : ['-', '-'] <+: selector ++ between) :
    ':' ∉ selector ++ between := by
  have other {c : Char} (hc : c ∈ between) : c ≠ '-' ∧ c ≠ ':' := by
    have filled := blank c hc
    constructor <;> rintro rfl <;> cases filled
  have starts : ['-', '-'] <+: selector :=
    hyphens_of_append (fun c hc => (other (List.mem_of_mem_head? hc)).1) hyphens
  intro hc
  rcases List.mem_append.mp hc with hc | hc
  · exact h.no_colon starts hc
  · exact (other hc).2 rfl

theorem AtRuleLayout.safe {params : Text} {body : Option (List Node)} {layout : Layout}
    (h : AtRuleLayout params body layout) (safe : Safe params) :
    Safe (layout.afterName ++ params ++ layout.between) :=
  (Safe.blanks_append h.afterName safe).append_blanks h.between

/-- Without parameters, no blanks stand behind them either. -/
theorem AtRuleLayout.apart_append {params : Text} {body : Option (List Node)} {layout : Layout}
    (h : AtRuleLayout params body layout) :
    startsWith isNameChar (layout.afterName ++ params ++ layout.between) = false := by
  have apart := h.apart
  cases rest : layout.afterName ++ params with
  | nil =>
    rw [h.between_nil (List.append_eq_nil_iff.mp rest).2]
    rfl
  | cons c s =>
    rw [rest] at apart
    exact apart

theorem DeclarationLayout.header {property value : Text} {layout : Layout}
    (h : DeclarationLayout property value layout) (safe : Safe property) (safe' : Safe value) :
    Safe (property ++ layout.between ++ value ++ layout.after) ∧
      property ++ layout.between ++ value ++ layout.after ≠ [] ∧
      startsWith isSpace (property ++ layout.between ++ value ++ layout.after) = false := by
  have starts := h.starts
  obtain ⟨front, back, blankFront, blankBack, between⟩ := parts_of_trim h.between
  rw [between] at starts ⊢
  have front_safe := safe.append_blanks blankFront
  have back_safe := (Safe.blanks_append blankBack safe').append_blanks h.after
  have whole : property ++ (front ++ [':'] ++ back) ++ value ++ layout.after =
      (property ++ front) ++ ':' :: (back ++ value ++ layout.after) := by simp
  refine ⟨?_, by simp, ?_⟩
  · rw [whole]
    exact front_safe.join ⟨rfl, by decide, by decide⟩ back_safe
  · cases head : property ++ front with
    | nil => rw [whole, head]; rfl
    | cons c s =>
      rw [List.append_assoc, ← List.append_assoc, head] at starts
      rw [whole, head]
      exact starts

/-! ## Fields that a kind of node does not have -/

theorem RuleLayout.eq {nodes : List Node} {layout : Layout} (h : RuleLayout nodes layout) :
    layout = { before := layout.before, between := layout.between, after := layout.after } := by
  obtain ⟨before, between, afterName, after, semicolon⟩ := layout
  rw [Layout.mk.injEq]
  exact ⟨rfl, rfl, h.afterName, rfl, h.semicolon⟩

theorem BodyLayout.eq_none {layout : Layout} (h : BodyLayout layout none) :
    layout = { before := layout.before, between := layout.between,
               afterName := layout.afterName, semicolon := layout.semicolon } := by
  obtain ⟨before, between, afterName, after, semicolon⟩ := layout
  rw [Layout.mk.injEq]
  exact ⟨rfl, rfl, rfl, h, rfl⟩

theorem BodyLayout.eq_some {nodes : List Node} {layout : Layout}
    (h : BodyLayout layout (some nodes)) :
    layout = { before := layout.before, between := layout.between,
               afterName := layout.afterName, after := layout.after } := by
  obtain ⟨before, between, afterName, after, semicolon⟩ := layout
  rw [Layout.mk.injEq]
  exact ⟨rfl, rfl, rfl, rfl, h.2.1⟩

theorem DeclarationLayout.eq {property value : Text} {layout : Layout}
    (h : DeclarationLayout property value layout) :
    layout = { before := layout.before, between := layout.between, after := layout.after,
               semicolon := layout.semicolon } := by
  obtain ⟨before, between, afterName, after, semicolon⟩ := layout
  rw [Layout.mk.injEq]
  exact ⟨rfl, rfl, h.afterName, rfl, rfl⟩

end Node

end BemSheet
