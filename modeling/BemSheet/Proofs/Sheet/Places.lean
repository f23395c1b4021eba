import BemSheet.Proofs.Css.Places
import BemSheet.Proofs.Sheet.Lossless
import BemSheet.Proofs.Sheet.RoundTrip

/-!
Where the nodes of a style sheet stand.

Statements at other places are read as the same nodes at other places, or have the same fault at
another place (`ofOutline_relocate`). So a text is read as the same nodes from any place
(`ofOutline_unplaced`), and what is printed of a tree depends on no place.
-/

namespace BemSheet

open Css

def ParseError.relocate (g : Location → Location) (e : ParseError) : ParseError :=
  { e with location := g e.location }

namespace Node

section

variable (g : Location → Location)

mutual

/-- A tree with its nodes at other places. -/
def relocate : Node → Node
  | rule selector nodes layout source => rule selector (relocateAll nodes) layout (source.map g)
  | atRule name params (some nodes) layout source =>
    atRule name params (some (relocateAll nodes)) layout (source.map g)
  | atRule name params none layout source => atRule name params none layout (source.map g)
  | declaration property value layout source => declaration property value layout (source.map g)
  | comment text layout source => comment text layout (source.map g)

/-- A list of trees with their nodes at other places. -/
def relocateAll : List Node → List Node
  | [] => []
  | n :: ns => n.relocate :: relocateAll ns

end

@[simp] theorem relocateAll_nil : relocateAll g [] = [] := by rw [relocateAll]

@[simp] theorem relocateAll_cons (n : Node) (ns : List Node) :
    relocateAll g (n :: ns) = n.relocate g :: relocateAll g ns := by rw [relocateAll]

@[simp] theorem unplacedAll_nil : unplacedAll [] = [] := by rw [unplacedAll]

@[simp] theorem unplacedAll_cons (n : Node) (ns : List Node) :
    unplacedAll (n :: ns) = n.unplaced :: unplacedAll ns := by rw [unplacedAll]

theorem unplacedAll_relocateAll (ns : List Node) :
    unplacedAll (relocateAll g ns) = unplacedAll ns := by
  induction ns using forestInduction with
  | nil => simp
  | cons n ns beneath others =>
    rw [relocateAll_cons, unplacedAll_cons, unplacedAll_cons, others]
    cases n with
    | rule selector nodes => simpa [relocate, unplaced, children, children?] using beneath
    | atRule name params body =>
      cases body with
      | none => simp [relocate, unplaced]
      | some nodes => simpa [relocate, unplaced, children, children?] using beneath
    | declaration | comment => simp [relocate, unplaced]

end

theorem printAll_unplacedAll (ns : List Node) : printAll (unplacedAll ns) = printAll ns := by
  induction ns using forestInduction with
  | nil => simp
  | cons n ns beneath others =>
    rw [unplacedAll_cons, printAll_cons, printAll_cons, others]
    cases n with
    | rule selector nodes => simpa [unplaced, print, children, children?] using beneath
    | atRule name params body =>
      cases body with
      | none => simp [unplaced, print]
      | some nodes => simpa [unplaced, print, children, children?] using beneath
    | declaration | comment => simp [unplaced, print]

/-! ## Reading statements at other places -/

section

variable (g : Location → Location)

theorem ofDeclarationText?_relocate (text : Text) (layout : Layout) (start : Location) :
    ofDeclarationText? text layout (g start) =
      (ofDeclarationText? text layout start).map (relocate g) := by
  unfold ofDeclarationText?
  split
  · rfl
  · simp [relocate]

theorem ofFlat_relocate (before : Text) (header : Header) (start : Location) (semicolon : Bool) :
    ofFlat before header (g start) semicolon =
      ((ofFlat before header start semicolon).map (relocate g)).mapError (.relocate g) := by
  cases header with
  | keyword name rest => simp [ofFlat, ofAtHeader, relocate, Except.map, Except.mapError]
  | plain text =>
    simp only [ofFlat, ofDeclarationText?_relocate]
    cases ofDeclarationText? text { before, semicolon } start <;> rfl

theorem ofNest_relocate (before : Text) (header : Header) (start : Location) (nodes : List Node)
    (after : Text) : ofNest before header (g start) (relocateAll g nodes) after =
      (ofNest before header start nodes after).relocate g := by
  cases header <;> simp [ofNest, ofAtHeader, ofRuleHeader, relocate]

/-- Statements at other places are read as the same nodes at other places, or have the same fault at
another place. -/
theorem ofOutline_relocate (o : Outline) : ofOutline (o.relocate g) =
    ((ofOutline o).map fun read => (relocateAll g read.1, read.2)).mapError (.relocate g) := by
  induction o with
  | done after => simp [Outline.relocate, ofOutline, Except.map, Except.mapError]
  | comment before body closed start rest ih =>
    rw [Outline.relocate, ofOutline, ofOutline, ih]
    cases ofOutline rest with
    | error e => rfl
    | ok read => simp [bind, Except.bind, pure, Except.pure, Except.map, Except.mapError, relocate]
  | flat before header start semicolon rest ih =>
    rw [Outline.relocate, ofOutline, ofOutline, ih, ofFlat_relocate]
    cases ofFlat before header start semicolon with
    | error e => rfl
    | ok n =>
      cases ofOutline rest with
      | error e => rfl
      | ok read => simp [bind, Except.bind, pure, Except.pure, Except.map, Except.mapError]
  | nest before header start body closed rest inner ih =>
    rw [Outline.relocate, ofOutline, ofOutline, ih, inner]
    cases ofOutline body with
    | error e => rfl
    | ok within =>
      cases ofOutline rest with
      | error e => rfl
      | ok read =>
        simp [bind, Except.bind, pure, Except.pure, Except.map, Except.mapError, ofNest_relocate]

end

/-- A text is read as the same nodes from any place. -/
theorem ofOutline_unplaced {p q : Cursor} {s : Text} {nodes : List Node} {after : Text}
    (h : ofOutline (outlineFrom p s) = .ok (nodes, after)) :
    ∃ found, ofOutline (outlineFrom q s) = .ok (found, after) ∧
      unplacedAll found = unplacedAll nodes := by
  have read := ofOutline_relocate nowhere (outlineFrom q s)
  rw [outlineFrom_nowhere q p, ofOutline_relocate, h] at read
  cases again : ofOutline (outlineFrom q s) with
  | error e =>
    rw [again] at read
    cases read
  | ok found =>
    rw [again] at read
    obtain ⟨nodes_eq, rfl⟩ := Prod.mk.inj (Except.ok.inj read)
    refine ⟨found.1, rfl, ?_⟩
    rw [← unplacedAll_relocateAll nowhere found.1, ← nodes_eq, unplacedAll_relocateAll]

end Node

end BemSheet
