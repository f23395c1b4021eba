import BemSheet.Bem.Selector
import Mathlib.Logic.ExistsUnique

/-!
What an expanded selector owes to the delimiters.

A template is a text with slots for the two delimiters. Every stage of expanding has a template that
it fills: the delimiters are written into its slots, and nothing that is written is looked at again.

* `fill_modifierPart`: where a modifier is left out or kept by what its delimited text turns out to
  be, the slots say so by themselves.
* `expand_template`: so a selector has one template, by which it is expanded under any delimiters.
-/

namespace BemSheet.Bem

/-- A character, or a slot for one of the delimiters. -/
inductive Atom
  | char (c : Char)
  | modifier
  | element
  deriving DecidableEq, Repr

def Atom.fill (delimiters : Delimiters) : Atom → Text
  | char c => [c]
  | modifier => delimiters.modifier
  | element => delimiters.element

/-- A text with slots for the delimiters. -/
abbrev Template := List Atom

namespace Template

/-- A template with the delimiters in its slots. -/
def fill (delimiters : Delimiters) (t : Template) : Text := t.flatMap (Atom.fill delimiters)

/-- The template of a text without slots. -/
def verbatim (s : Text) : Template := s.map .char

section

variable (delimiters : Delimiters)

@[simp] theorem fill_nil : fill delimiters [] = [] := rfl

@[simp] theorem fill_cons (a : Atom) (t : Template) :
    fill delimiters (a :: t) = a.fill delimiters ++ fill delimiters t := List.flatMap_cons

@[simp] theorem fill_append (s t : Template) :
    fill delimiters (s ++ t) = fill delimiters s ++ fill delimiters t := List.flatMap_append

@[simp] theorem fill_verbatim (s : Text) : fill delimiters (verbatim s) = s := by
  induction s with
  | nil => rfl
  | cons c s ih => exact congrArg (c :: ·) ih

/-- Parts that fill their templates one by one fill them in a row. -/
theorem fill_flatMap {α : Type} (parts : List α) (template : α → Template) :
    fill delimiters (parts.flatMap template) =
      parts.flatMap fun part => fill delimiters (template part) := by
  induction parts with
  | nil => rfl
  | cons part parts ih => rw [List.flatMap_cons, fill_append, ih, List.flatMap_cons]

end

/-! ## Templates that are filled alike -/

/-- An atom is known by what is written for it in front of anything. -/
theorem head_unique {a b : Atom} {s t : Template}
    (h : ∀ delimiters, fill delimiters (a :: s) = fill delimiters (b :: t)) : a = b := by
  have single (x y : Char) (a : Atom) : (a.fill ⟨[x], [y]⟩).length = 1 := by cases a <;> rfl
  have same (x y : Char) : a.fill ⟨[x], [y]⟩ = b.fill ⟨[x], [y]⟩ := by
    have filled := h ⟨[x], [y]⟩
    rw [fill_cons, fill_cons] at filled
    exact List.append_inj_left filled ((single x y a).trans (single x y b).symm)
  -- A slot follows the delimiters, which a character does not, and neither does the other slot.
  have first := same 'a' 'b'
  have second := same 'b' 'a'
  cases a <;> cases b <;> grind [Atom.fill]

/-- Templates that are filled alike by all delimiters are the same. -/
theorem fill_unique {s t : Template} (h : ∀ delimiters, fill delimiters s = fill delimiters t) :
    s = t := by
  have filled (a : Atom) (s : Template) : ∃ delimiters, fill delimiters (a :: s) ≠ [] := by
    refine ⟨⟨['a'], ['a']⟩, ?_⟩
    cases a <;> simp [Atom.fill]
  induction s generalizing t with
  | nil =>
    cases t with
    | nil => rfl
    | cons b t =>
      obtain ⟨delimiters, nonempty⟩ := filled b t
      exact absurd (h delimiters).symm nonempty
  | cons a s ih =>
    cases t with
    | nil =>
      obtain ⟨delimiters, nonempty⟩ := filled a s
      exact absurd (h delimiters) nonempty
    | cons b t =>
      obtain rfl := head_unique h
      have rest : ∀ delimiters, fill delimiters s = fill delimiters t := by
        intro delimiters
        have whole := h delimiters
        rw [fill_cons, fill_cons] at whole
        exact List.append_cancel_left whole
      rw [ih rest]

end Template

open Template

/-! ## The template of a class selector -/

/-- The template of a modifier: a slot in the place of each separator. -/
def modifierTemplate (value : Text) : Template :=
  let (first, others) := modifierWords value
  verbatim first ++ others.flatMap fun word => .modifier :: verbatim word

/-- The template of the part that a modifier adds to a class selector, which is empty for an empty
modifier. -/
def modifierPart (value : Text) : Template :=
  match modifierTemplate value with
  | [] => []
  | a :: t => .modifier :: a :: t

/-- The template of the class selector of an entity, or of an entity with a modifier. -/
def Entity.template (entity : Entity) (modifier : Option Text) : Template :=
  .char '.' :: verbatim (entity.block.getD []) ++
    (match entity.elem with
      | none => []
      | some name => .element :: verbatim name) ++
    (match modifier with
      | none => []
      | some value => modifierPart value)

section

variable (delimiters : Delimiters)

theorem fill_modifierTemplate (value : Text) :
    fill delimiters (modifierTemplate value) = delimit value delimiters.modifier := by
  rw [modifierTemplate, fill_append, fill_verbatim, fill_flatMap]
  simp [delimit, Atom.fill]

/-- Without slots to fill, or with nothing to fill them with, a modifier is empty. -/
theorem modifierTemplate_of_fill {value : Text}
    (empty : fill delimiters (modifierTemplate value) = []) :
    modifierTemplate value = [] ∨ delimiters.modifier = [] := by
  simp only [modifierTemplate] at empty ⊢
  generalize modifierWords value = words at empty ⊢
  obtain ⟨first, others⟩ := words
  rw [fill_append, fill_verbatim, List.append_eq_nil_iff] at empty
  obtain ⟨rfl, separated⟩ := empty
  cases others with
  | nil => exact .inl rfl
  | cons word others =>
    rw [List.flatMap_cons, List.cons_append, fill_cons, List.append_eq_nil_iff] at separated
    exact .inr separated.1

/-- A modifier is left out if its delimited text is empty. That depends on the delimiter, but then
there is nothing to be written in the slots either. -/
theorem fill_modifierPart (value : Text) : fill delimiters (modifierPart value) =
    Entity.part delimiters.modifier (named? (delimit value delimiters.modifier)) := by
  have empty : fill delimiters (modifierTemplate value) = [] →
      modifierTemplate value = [] ∨ delimiters.modifier = [] := modifierTemplate_of_fill delimiters
  rw [← fill_modifierTemplate, modifierPart]
  cases template : modifierTemplate value with
  | nil => rfl
  | cons a t =>
    rw [template] at empty
    rw [fill_cons, Atom.fill]
    cases filled : fill delimiters (a :: t) with
    | nil =>
      have no_slot := (empty filled).resolve_left (List.cons_ne_nil a t)
      rw [no_slot]
      rfl
    | cons c s => rfl

theorem fill_entity (entity : Entity) (modifier : Option Text) :
    fill delimiters (entity.template modifier) =
      entity.selector (modifier.map (delimit · delimiters.modifier)) delimiters := by
  obtain ⟨block, elem⟩ := entity
  cases block <;> cases elem <;> cases modifier <;>
    simp [Entity.template, Entity.selector, Entity.part, Atom.fill, fill_modifierPart]

end

/-! ## The template of a selector -/

/-- The template of the pieces of a clause, where `entity` was named last. -/
def piecesTemplate (entity : Entity) (pending : Bool) : List Piece → Template
  | [] => []
  | .literal text :: pieces =>
    (if pending then entity.template none else []) ++ verbatim text ++
      piecesTemplate entity false pieces
  | .block name :: pieces => piecesTemplate (.ofBlock name) true pieces
  | .elem name :: pieces => piecesTemplate (entity.element name) true pieces
  | .mod value :: pieces => entity.template (some value) ++ piecesTemplate entity false pieces

/-- The template of a selector: of its clauses, and of the text that is kept around them. -/
def selectorTemplate (selector : Text) : Template :=
  let (lead, others) := clauses selector
  verbatim lead ++ others.flatMap fun (clause, between) =>
    piecesTemplate {} false (pieces clause) ++ verbatim between

section

variable (delimiters : Delimiters)

theorem fill_piecesTemplate (entity : Entity) (pending : Bool) (ps : List Piece) :
    fill delimiters (piecesTemplate entity pending ps) =
      renderPieces delimiters entity pending ps := by
  induction ps generalizing entity pending with
  | nil => rfl
  | cons p ps ih =>
    cases p with
    | literal text =>
      rw [piecesTemplate, renderPieces, fill_append, fill_append, fill_verbatim, ih]
      cases pending <;> simp [fill_entity]
    | block name | elem name => exact ih _ true
    | mod value => rw [piecesTemplate, renderPieces, fill_append, fill_entity, ih]; rfl

theorem fill_selectorTemplate (selector : Text) :
    fill delimiters (selectorTemplate selector) = expand delimiters selector := by
  rw [selectorTemplate, fill_append, fill_verbatim, fill_flatMap]
  simp [expand, renderClause, fill_piecesTemplate]

end

/-- Each selector has one template that it is expanded by: under any delimiters, these stand in the
slots of the template, and the rest of it is written as it is. -/
theorem expand_template (selector : Text) :
    ∃! template : Template, ∀ delimiters,
      expand delimiters selector = template.fill delimiters := by
  refine ⟨selectorTemplate selector, ?_, ?_⟩
  · intro delimiters
    exact (fill_selectorTemplate delimiters selector).symm
  · intro template fills
    apply fill_unique
    intro delimiters
    rw [← fills delimiters, fill_selectorTemplate]

/-- The second modifier is nothing but separators, which leaves the slots of three delimiters. -/
example : selectorTemplate "block(b) elem(e) mod(m -> v) mod(\",,\")".toList =
    verbatim ".b".toList ++ .element :: verbatim ['e'] ++ .modifier :: verbatim ['m'] ++
      .modifier :: verbatim "v.b".toList ++ .element :: verbatim ['e'] ++
      [.modifier, .modifier, .modifier] := by
  decide +kernel

end BemSheet.Bem
