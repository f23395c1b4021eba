import BemSheet.Proofs.Css.Succession
import BemSheet.Proofs.Sheet.Layout
import BemSheet.Proofs.Sheet.Places

/-!
Style sheets one after another.

A text whose statements all end is read the same whatever comes behind it, and what comes behind is
read as if it stood alone (`outline_append`). So the sheet of both is the one sheet behind the other
(`Sheet.parse_append`), and a fault of the second is the fault of both.
-/

namespace BemSheet

open Css

/-! ## One sheet behind another -/

/-- Put a text in front of a node. -/
def Node.prepend (gap : Text) (n : Node) : Node :=
  n.mapLayout fun layout => { layout with before := gap ++ layout.before }

namespace Sheet

/-- Put a text in front of the first node, or of the text at the end if there is no node. -/
def prepend (gap : Text) : Sheet → Sheet
  | ⟨[], after⟩ => ⟨[], gap ++ after⟩
  | ⟨n :: ns, after⟩ => ⟨n.prepend gap :: ns, after⟩

/-- The nodes of two sheets, with the text after the first in front of the second. -/
def append (s t : Sheet) : Sheet :=
  let back := t.prepend s.after
  ⟨s.nodes ++ back.nodes, back.after⟩

def relocate (g : Location → Location) (s : Sheet) : Sheet :=
  { s with nodes := Node.relocateAll g s.nodes }

end Sheet

namespace Node

theorem print_prepend (gap : Text) (n : Node) : (n.prepend gap).print = gap ++ n.print := by
  cases n with
  | atRule name params body => cases body <;> simp [prepend, mapLayout, print, semicolonText]
  | rule | declaration | comment => simp [prepend, mapLayout, print, semicolonText]

theorem printAll_append (ns ms : List Node) :
    printAll (ns ++ ms) = printAll ns ++ printAll ms := by
  induction ns with
  | nil => rw [printAll]; rfl
  | cons n ns ih => rw [List.cons_append, printAll_cons, ih, printAll_cons, List.append_assoc]

end Node

theorem Sheet.print_append (s t : Sheet) : (s.append t).print = s.print ++ t.print := by
  obtain ⟨nodes, after⟩ := s
  obtain ⟨_ | ⟨n, ns⟩, after'⟩ := t
  · simp [append, prepend, print, Node.printAll]
  · simp [append, prepend, print, Node.printAll_append, Node.printAll_cons, Node.print_prepend]

/-! ## Reading statements behind others -/

namespace Sheet

/-- A node in front of a sheet. -/
def cons (n : Node) (s : Sheet) : Sheet := { s with nodes := n :: s.nodes }

/-- The sheet of a list of statements. -/
def ofOutline (o : Outline) : Except ParseError Sheet :=
  (Node.ofOutline o).map fun read => ⟨read.1, read.2⟩

theorem parse_eq (s : Text) : parse s = ofOutline (outline s) := by
  rw [parse, ofOutline]
  cases Node.ofOutline (outline s) <;> rfl

theorem ofOutline_comment (before body : Text) (closed : Bool) (start : Location)
    (rest : Outline) : ofOutline (.comment before body closed start rest) =
      (ofOutline rest).map (cons (.comment body { before } start)) := by
  rw [ofOutline, ofOutline, Node.ofOutline]
  cases Node.ofOutline rest <;> rfl

theorem ofOutline_flat (before : Text) (header : Header) (start : Location) (semicolon : Bool)
    (rest : Outline) : ofOutline (.flat before header start semicolon rest) =
      (Node.ofFlat before header start semicolon).bind fun n => (ofOutline rest).map (cons n) := by
  rw [ofOutline, ofOutline, Node.ofOutline]
  cases Node.ofFlat before header start semicolon with
  | error e => rfl
  | ok n => cases Node.ofOutline rest <;> rfl

theorem ofOutline_nest (before : Text) (header : Header) (start : Location) (body : Outline)
    (closed : Bool) (rest : Outline) : ofOutline (.nest before header start body closed rest) =
      (ofOutline body).bind fun inner =>
        (ofOutline rest).map (cons (.ofNest before header start inner.nodes inner.after)) := by
  rw [ofOutline, ofOutline, ofOutline, Node.ofOutline]
  cases Node.ofOutline body with
  | error e => rfl
  | ok within => cases Node.ofOutline rest <;> rfl

end Sheet

namespace Node

theorem ofFlat_prepend (gap before : Text) (header : Header) (start : Location)
    (semicolon : Bool) : ofFlat (gap ++ before) header start semicolon =
      (ofFlat before header start semicolon).map (prepend gap) := by
  cases header with
  | keyword name rest => rfl
  | plain text =>
    have same : ofDeclarationText? text { before := gap ++ before, semicolon } start =
        (ofDeclarationText? text { before, semicolon } start).map (prepend gap) := by
      unfold ofDeclarationText?
      split <;> rfl
    simp only [ofFlat, same]
    cases ofDeclarationText? text { before, semicolon } start <;> rfl

theorem ofNest_prepend (gap before : Text) (header : Header) (start : Location)
    (nodes : List Node) (after : Text) : ofNest (gap ++ before) header start nodes after =
      (ofNest before header start nodes after).prepend gap := by
  cases header <;> rfl

end Node

namespace Sheet

theorem ofOutline_prepend (gap : Text) (o : Outline) :
    ofOutline (o.prepend gap) = (ofOutline o).map (prepend gap) := by
  cases o with
  | done after => rw [Outline.prepend, ofOutline, ofOutline, Node.ofOutline, Node.ofOutline]; rfl
  | comment before body closed start rest =>
    rw [Outline.prepend, ofOutline_comment, ofOutline_comment]
    cases ofOutline rest <;> rfl
  | flat before header start semicolon rest =>
    rw [Outline.prepend, ofOutline_flat, ofOutline_flat, Node.ofFlat_prepend]
    cases Node.ofFlat before header start semicolon with
    | error e => rfl
    | ok n => cases ofOutline rest <;> rfl
  | nest before header start body closed rest =>
    rw [Outline.prepend, ofOutline_nest, ofOutline_nest]
    cases ofOutline body with
    | error e => rfl
    | ok inner =>
      simp only [Except.bind, Node.ofNest_prepend]
      cases ofOutline rest <;> rfl

/-- Two lists of statements are read as one sheet behind the other. The first fault of the first
list comes before those of the second. -/
theorem ofOutline_append (o o' : Outline) : ofOutline (o.append o') =
    (ofOutline o).bind fun front => (ofOutline o').map front.append := by
  induction o with
  | done after =>
    rw [Outline.append, ofOutline_prepend, ofOutline.eq_1 (.done after), Node.ofOutline]
    rfl
  | comment before body closed start rest ih =>
    rw [Outline.append, ofOutline_comment, ofOutline_comment, ih]
    cases ofOutline rest with
    | error e => rfl
    | ok front => cases ofOutline o' <;> rfl
  | flat before header start semicolon rest ih =>
    rw [Outline.append, ofOutline_flat, ofOutline_flat, ih]
    cases Node.ofFlat before header start semicolon with
    | error e => rfl
    | ok n =>
      cases ofOutline rest with
      | error e => rfl
      | ok front => cases ofOutline o' <;> rfl
  | nest before header start body closed rest _ ih =>
    rw [Outline.append, ofOutline_nest, ofOutline_nest, ih]
    cases ofOutline body with
    | error e => rfl
    | ok inner =>
      cases ofOutline rest with
      | error e => rfl
      | ok front => cases ofOutline o' <;> rfl

end Sheet

/-! ## Reading a text behind another -/

/-- If the last node of a list shows where it ends, so do all statements of the list. -/
theorem Css.Outline.ended_of_last {o : Outline} (laid : o.LaidOut) {nodes : List Node}
    {after : Text} (read : Node.ofOutline o = .ok (nodes, after))
    (last : ∀ n ∈ nodes.getLast?, n.ended = true) : o.Ended := by
  have later {n : Node} {ns : List Node} (last : ∀ m ∈ (n :: ns).getLast?, m.ended = true) :
      ∀ m ∈ ns.getLast?, m.ended = true := by
    intro m hm
    apply last
    rw [List.getLast?_cons, Option.mem_def.mp hm]
    rfl
  induction o generalizing nodes after with
  | done => trivial
  | comment before body closed start rest ih =>
    obtain ⟨others, behind, rfl⟩ := Node.ofOutline_comment.mp read
    exact ih laid.2.2 behind (later last)
  | flat before header start semicolon rest ih =>
    obtain ⟨gap, apart, ends, laid⟩ := laid
    obtain ⟨n, others, flat, behind, rfl⟩ := Node.ofOutline_flat.mp read
    refine ⟨?_, ih laid behind (later last)⟩
    rcases ends with shown | rfl
    · exact shown
    · obtain ⟨rfl, -⟩ := Prod.mk.inj (Except.ok.inj behind)
      rw [← (Node.laidOut_ofFlat gap apart flat).2.1]
      exact last n rfl
  | nest before header start body closed rest _ ih =>
    obtain ⟨-, -, -, laid⟩ := laid
    obtain ⟨_, _, others, -, behind, rfl⟩ := Node.ofOutline_nest.mp read
    exact ih laid behind (later last)

/-- Behind a text whose statements all end, with nothing open in it, another text has the statements
that it has alone. -/
theorem Css.outline_append {front : Text} (closed : (outline front).closed = true)
    (ended : (outline front).Ended) (back : Text) : outline (front ++ back) =
      (outline front).append (outlineFrom (Cursor.start.through front) back) := by
  have whole := Forest.whole_tokensFrom .start front
  obtain ⟨closed, shut⟩ := (Outline.ends_of_ended whole.grouped whole.last).1 ended closed
  rw [Forest.tokens_ofTokens] at shut
  have alone : tokensFrom .start 0 (front ++ []) = tokensFrom .start 0 front ++ [] := by simp
  have both := shut.tokensFrom alone (text_tokensFrom .start 0 front) back
  rw [outline, tokens, both, Forest.ofTokens_append whole.last closed]
  exact (Outline.ofForest_append _ _).1 ended

namespace Sheet

theorem ofOutline_relocate (g : Location → Location) (o : Outline) : ofOutline (o.relocate g) =
    ((ofOutline o).map (relocate g)).mapError (ParseError.relocate g) := by
  rw [ofOutline, ofOutline, Node.ofOutline_relocate]
  cases Node.ofOutline o <;> rfl

/-- Let a sheet print as the text it was read from, and let its last node show where it ends. What
comes behind that text is read as it is alone: both are read as the one sheet behind the other, or
with the fault of the second. -/
theorem parse_append {front : Text} {sheet : Sheet} (read : parse front = .ok sheet)
    (whole : sheet.print = front) (ended : ∀ n ∈ sheet.nodes.getLast?, n.ended = true)
    (back : Text) : parse (front ++ back) =
      ((parse back).map fun other => sheet.append (other.relocate (behind front back))).mapError
        (ParseError.relocate (behind front back)) := by
  have all_ended := Outline.ended_of_last (laidOut_outline front) (parse_eq_ok.mp read) ended
  have split := outline_append (closed_of_print read whole) all_ended back
  rw [parse_eq, split, ofOutline_append, ← parse_eq front, read, outlineFrom_behind,
    ofOutline_relocate, ← parse_eq back]
  cases parse back <;> rfl

end Sheet

end BemSheet
