import BemSheet.Proofs.Css.Placement
import BemSheet.Proofs.Location
import BemSheet.Proofs.Sheet.Regular

/-!
The source of a node is the place of its own text.

A node's own text stands behind everything that is printed in front of it: the nodes before it, the
openings of the nodes around it, and the gap that belongs to the node itself. Read back as a part of
the text that the tree comes from, all of that ends at the source of the node.

* `Node.locatedAll`: the nodes of a tree in preorder, each with what is printed in front of it.
* `located_ofOutline`: along the statements of a text, these texts end at the places of the nodes.
* `pairwise_locatedAll`: each of them is longer than the ones before it, by more than a line feed.
* `Sheet.source_of_parse`: so sources are places in the text, and they increase.
-/

namespace BemSheet

open Css

/-! ## Texts ahead of others -/

/-- One text goes on as another does, with a character that moves the cursor. -/
def Text.Ahead (a b : Text) : Prop := ∃ c, c ≠ '\n' ∧ a ++ [c] <+: b

namespace Text.Ahead

variable {a b : Text}

theorem isPrefix (h : a.Ahead b) {b' : Text} (longer : b <+: b') : a.Ahead b' := by
  obtain ⟨c, moves, starts⟩ := h
  exact ⟨c, moves, starts.trans longer⟩

theorem append_left (h : a.Ahead b) (front : Text) : (front ++ a).Ahead (front ++ b) := by
  obtain ⟨c, moves, starts⟩ := h
  refine ⟨c, moves, ?_⟩
  rw [List.append_assoc]
  exact List.prefix_append_right_inj front |>.mpr starts

theorem earlier (h : a.Ahead b) (p : Cursor) :
    (p.through a).location.Earlier (p.through b).location := by
  obtain ⟨c, moves, rest, rfl⟩ := h
  rw [List.append_assoc, Cursor.through_append]
  exact Cursor.earlier_through moves rest _

end Text.Ahead

/-- Every statement of a list at any depth is laid out with it. -/
theorem Css.Outline.LaidOut.statements {o : Outline} (laid : o.LaidOut) :
    ∀ s ∈ o.statements, s.LaidOut := by
  induction o with
  | done => nofun
  | comment before body closed start rest ih => exact ih laid.2.2
  | flat before header start semicolon rest ih =>
    exact List.forall_mem_cons.mpr ⟨laid, ih laid.2.2.2⟩
  | nest before header start body closed rest inner ih =>
    exact List.forall_mem_cons.mpr ⟨laid,
      List.forall_mem_append.mpr ⟨inner laid.2.2.1, ih laid.2.2.2⟩⟩

namespace Node

/-! ## What is printed in front of a node -/

/-- What is printed of a node in front of its children: all of it, if it has no list of them. -/
def opening : Node → Text
  | rule selector _ layout _ => layout.before ++ selector ++ layout.between ++ ['{']
  | atRule name params body layout _ =>
    layout.before ++ '@' :: name ++ layout.afterName ++ params ++ layout.between ++
      if body.isSome then ['{'] else semicolonText layout
  | n => n.print

mutual

/-- A node and all nodes beneath it, parents before children, each with everything that is printed
in front of its own text, where `front` is printed in front of the first. -/
def located (front : Text) : Node → List (Text × Node)
  | rule selector nodes layout source =>
    let n := rule selector nodes layout source
    (front ++ layout.before, n) :: locatedAll (front ++ n.opening) nodes
  | atRule name params (some nodes) layout source =>
    let n := atRule name params (some nodes) layout source
    (front ++ layout.before, n) :: locatedAll (front ++ n.opening) nodes
  | atRule name params none layout source =>
    [(front ++ layout.before, atRule name params none layout source)]
  | declaration property value layout source =>
    [(front ++ layout.before, declaration property value layout source)]
  | comment text layout source => [(front ++ layout.before, comment text layout source)]

/-- Every node of a list of trees, with everything that is printed in front of its own text. -/
def locatedAll (front : Text) : List Node → List (Text × Node)
  | [] => []
  | n :: ns => n.located front ++ locatedAll (front ++ n.print) ns

end

@[simp] theorem locatedAll_nil (front : Text) : locatedAll front [] = [] := by rw [locatedAll]

@[simp] theorem locatedAll_cons (front : Text) (n : Node) (ns : List Node) :
    locatedAll front (n :: ns) = (front ++ n.layout.before, n) ::
      (locatedAll (front ++ n.opening) n.children ++ locatedAll (front ++ n.print) ns) := by
  rw [locatedAll]
  cases n with
  | rule | declaration | comment => simp [located, children, children?, layout]
  | atRule name params body layout source =>
    cases body <;> simp [located, children, children?, Node.layout]

theorem map_locatedAll (front : Text) (ns : List Node) :
    (locatedAll front ns).map (·.2) = preorderAll ns := by
  induction ns using forestInduction generalizing front with
  | nil => simp
  | cons n ns beneath others => simp [beneath, others]

theorem before_isPrefix_opening (n : Node) : n.layout.before <+: n.opening := by
  cases n <;> simp [opening, print, layout]

theorem opening_isPrefix_print (n : Node) : n.opening ++ printAll n.children <+: n.print := by
  cases n with
  | rule selector nodes layout source =>
    simp [opening, print, children, children?]
  | atRule name params body layout source =>
    cases body <;> simp [opening, print, children, children?, printAll]
  | declaration | comment => simp [opening, children, children?, printAll]

/-- Behind the text in front of it, a node is printed without its gap. -/
theorem mem_locatedAll (front : Text) (ns : List Node) : ∀ place ∈ locatedAll front ns,
    front <+: place.1 ∧ ∃ own, place.2.print = place.2.layout.before ++ own ∧
      place.1 ++ own <+: front ++ printAll ns := by
  induction ns using forestInduction generalizing front with
  | nil => simp
  | cons n ns beneath others =>
    have first := (before_isPrefix_opening n).trans
      ((List.prefix_append _ _).trans (opening_isPrefix_print n))
    have all : n.print <+: printAll (n :: ns) := by simp [printAll_cons]
    rw [locatedAll_cons]
    refine List.forall_mem_cons.mpr
      ⟨⟨List.prefix_append _ _, ?_⟩, List.forall_mem_append.mpr ⟨?_, ?_⟩⟩
    · obtain ⟨own, eq⟩ := first
      refine ⟨own, eq.symm, ?_⟩
      rw [List.append_assoc, eq]
      exact List.prefix_append_right_inj front |>.mpr all
    · intro place mem
      obtain ⟨longer, own, print, inside⟩ := beneath (front ++ n.opening) place mem
      refine ⟨(List.prefix_append _ _).trans longer, own, print, inside.trans ?_⟩
      rw [List.append_assoc]
      exact List.prefix_append_right_inj front |>.mpr ((opening_isPrefix_print n).trans all)
    · intro place mem
      obtain ⟨longer, own, print, inside⟩ := others (front ++ n.print) place mem
      refine ⟨(List.prefix_append _ _).trans longer, own, print, ?_⟩
      rwa [printAll_cons, ← List.append_assoc]

/-! ## The order of the nodes -/

/-- A node whose own text starts with a character that moves the cursor. -/
def Visible (n : Node) : Prop := n.layout.before.Ahead n.opening

theorem ahead_of_mem {front : Text} {ns : List Node} (visible : ∀ n ∈ preorderAll ns, n.Visible) :
    ∀ place ∈ locatedAll front ns, place.1.Ahead (front ++ printAll ns) := by
  intro place mem
  obtain ⟨-, own, print, inside⟩ := mem_locatedAll front ns place mem
  have listed : place.2 ∈ preorderAll ns := by
    rw [← map_locatedAll front]
    exact List.mem_map_of_mem mem
  obtain ⟨c, moves, starts⟩ := visible place.2 listed
  refine ⟨c, moves, ?_⟩
  have starts := starts.trans ((List.prefix_append _ _).trans (opening_isPrefix_print place.2))
  rw [print] at starts
  have own := List.prefix_append_right_inj place.2.layout.before |>.mp starts
  exact (List.prefix_append_right_inj place.1 |>.mpr own).trans inside

theorem pairwise_locatedAll (front : Text) {ns : List Node}
    (visible : ∀ n ∈ preorderAll ns, n.Visible) :
    (locatedAll front ns).Pairwise fun a b => a.1.Ahead b.1 := by
  induction ns using forestInduction generalizing front with
  | nil => simp
  | cons n ns beneath others =>
    rw [preorderAll_cons] at visible
    obtain ⟨own, visible⟩ := List.forall_mem_cons.mp visible
    obtain ⟨inner, behind⟩ := List.forall_mem_append.mp visible
    have open_ := own.append_left front
    have whole : n.opening ++ printAll n.children <+: n.print := opening_isPrefix_print n
    have all : front ++ n.opening ++ printAll n.children <+: front ++ n.print := by
      rw [List.append_assoc]
      exact List.prefix_append_right_inj front |>.mpr whole
    rw [locatedAll_cons]
    refine List.pairwise_cons.mpr ⟨List.forall_mem_append.mpr ⟨?_, ?_⟩,
      List.pairwise_append.mpr ⟨beneath _ inner, others _ behind, ?_⟩⟩
    · intro b mem
      exact open_.isPrefix (mem_locatedAll _ _ b mem).1
    · intro b mem
      exact open_.isPrefix (((List.prefix_append _ _).trans all).trans (mem_locatedAll _ _ b mem).1)
    · intro a mem b mem'
      exact ((ahead_of_mem inner a mem).isPrefix all).isPrefix (mem_locatedAll _ _ b mem').1

/-! ## The nodes of statements -/

theorem ahead_of_startsWith {s : Text} (h : startsWith isSpace s = false) {before rest : Text}
    (filled : s ++ rest ≠ []) (others : ∀ c ∈ rest.head?, c ≠ '\n') :
    before.Ahead (before ++ (s ++ rest)) := by
  obtain ⟨c, t, eq⟩ := List.exists_cons_of_ne_nil filled
  refine ⟨c, ?_, t, by rw [eq, List.append_assoc]; rfl⟩
  rintro rfl
  cases s with
  | nil =>
    rw [List.nil_append] at eq
    exact others '\n' (by rw [eq]; rfl) rfl
  | cons d s =>
    obtain ⟨rfl, -⟩ := List.cons.inj eq
    cases h

/-- The node for a statement without a block stands behind the gap of the statement, where the
statement does. -/
theorem located_ofFlat {before : Text} {header : Header} {start : Location} {semicolon : Bool}
    {n : Node} (h : ofFlat before header start semicolon = .ok n) :
    n.layout.before = before ∧ n.source = some start ∧ n.opening = n.print := by
  cases header with
  | keyword name rest =>
    obtain rfl := Except.ok.inj h
    refine ⟨rfl, rfl, ?_⟩
    simp [ofAtHeader, opening, print]
  | plain text =>
    obtain ⟨front, back, -, -, rfl⟩ := ofDeclarationText?_eq_some (ofFlat_plain.mp h)
    exact ⟨rfl, rfl, rfl⟩

theorem located_ofNest (before : Text) (header : Header) (start : Location) (nodes : List Node)
    (after : Text) : (ofNest before header start nodes after).layout.before = before ∧
      (ofNest before header start nodes after).source = some start ∧
      (ofNest before header start nodes after).opening = before ++ header.text ++ ['{'] := by
  cases header with
  | keyword name rest =>
    refine ⟨rfl, rfl, ?_⟩
    simp [ofNest, ofAtHeader, opening, Header.text, Text.splitEnd_append_append,
      Text.leading_append_append]
  | plain text =>
    refine ⟨rfl, rfl, ?_⟩
    simp [ofNest, ofRuleHeader, opening, Header.text, Text.splitEnd_append_append]

theorem startsWith_text {header : Header} (h : header.Apart) :
    startsWith isSpace header.text = false := by
  cases header with
  | keyword name rest => rfl
  | plain text => exact h

theorem visible_ofFlat {before : Text} {header : Header} {start : Location} {semicolon : Bool}
    {n : Node} (apart : header.Apart) (h : ofFlat before header start semicolon = .ok n) :
    n.Visible := by
  obtain ⟨own, -, whole⟩ := located_ofFlat h
  have filled : header.text ≠ [] := by
    cases header with
    | keyword name rest => nofun
    | plain text =>
      obtain ⟨front, back, -, rfl, -⟩ := ofDeclarationText?_eq_some (ofFlat_plain.mp h)
      exact List.append_ne_nil_of_right_ne_nil front (List.cons_ne_nil _ _)
  rw [Visible, own, whole, print_ofFlat h, List.append_assoc]
  apply ahead_of_startsWith (startsWith_text apart) (List.append_ne_nil_of_left_ne_nil filled _)
  cases semicolon <;> simp

theorem visible_ofNest {header : Header} (apart : header.Apart) (before : Text) (start : Location)
    (nodes : List Node) (after : Text) : (ofNest before header start nodes after).Visible := by
  obtain ⟨own, -, opens⟩ := located_ofNest before header start nodes after
  rw [Visible, own, opens, List.append_assoc]
  apply ahead_of_startsWith (startsWith_text apart)
  · exact List.append_ne_nil_of_right_ne_nil _ (List.cons_ne_nil _ _)
  · simp

theorem visible_ofOutline {o : Outline} (laid : o.LaidOut) {nodes : List Node} {after : Text}
    (h : ofOutline o = .ok (nodes, after)) : ∀ n ∈ preorderAll nodes, n.Visible := by
  refine forall_ofOutline (q := Outline.LaidOut) ?_ ?_ ?_ laid.statements h
  · intro before body start
    exact ⟨'/', by decide, by simp [opening, print, layout]⟩
  · intro before header start semicolon rest n laid made
    exact visible_ofFlat laid.2.1 made
  · intro before header start body closed rest nodes after laid
    exact visible_ofNest laid.2.1 before start nodes after

/-- A node stands at its source, in a text that is read from `p` on and printed behind `front`. -/
def StandsIn (p : Cursor) (s front : Text) (place : Text × Node) : Prop :=
  ∃ ahead, place.1 = front ++ ahead ∧ ahead <+: s ∧
    place.2.source = some (p.through ahead).location

theorem StandsIn.first {p : Cursor} {s front before : Text} {n : Node}
    (gap : n.layout.before = before) (source : n.source = some (p.through before).location)
    (starts : before <+: s) : StandsIn p s front (front ++ n.layout.before, n) :=
  ⟨before, by rw [gap], starts, source⟩

theorem StandsIn.behind {p : Cursor} {s front piece : Text} {place : Text × Node}
    (h : StandsIn (p.through piece) s (front ++ piece) place) {whole : Text}
    (starts : piece ++ s <+: whole) : StandsIn p whole front place := by
  obtain ⟨ahead, eq, inside, source⟩ := h
  refine ⟨piece ++ ahead, by rw [eq, List.append_assoc], ?_, ?_⟩
  · exact (List.prefix_append_right_inj piece |>.mpr inside).trans starts
  · rw [source, Cursor.through_append]

/-- A body that is closed is printed as it was read. -/
theorem print_of_closed {o : Outline} (last : o.OpenLast) (closed : o.closed = true)
    {nodes : List Node} {after : Text} (h : ofOutline o = .ok (nodes, after)) :
    printAll nodes ++ after = o.text := by
  rw [print_ofOutline h, Outline.textBy_of_openLast last,
    Outline.missingCommentEnd_of_closed closed, Outline.missingBodyEnds_of_closed closed,
    List.append_nil, List.append_nil]

theorem nodes_of_done {o : Outline} (is : o = .done []) {nodes : List Node} {after : Text}
    (h : ofOutline o = .ok (nodes, after)) : nodes = [] := by
  subst is
  exact (Prod.mk.inj (Except.ok.inj h)).1.symm

/-- Every node stands at its source. Behind a comment or a body that is not closed, nothing is left
that could be printed elsewhere. -/
theorem standsIn_ofOutline {o : Outline} (last : o.OpenLast) {p : Cursor} (placed : o.Placed p)
    {nodes : List Node} {after : Text} (h : ofOutline o = .ok (nodes, after)) (front : Text) :
    ∀ place ∈ locatedAll front nodes, StandsIn p o.text front place := by
  induction o generalizing p nodes after front with
  | done text =>
    obtain ⟨rfl, rfl⟩ := Prod.mk.inj (Except.ok.inj h)
    simp
  | comment before body closed start rest ih =>
    obtain ⟨ends, last⟩ := last
    obtain ⟨rfl, placed⟩ := placed
    obtain ⟨others, read, rfl⟩ := ofOutline_comment.mp h
    rw [locatedAll_cons, children, children?, Option.getD_none, locatedAll_nil, List.nil_append]
    have gap : (comment body { before } (p.through before).location).layout.before = before := rfl
    refine List.forall_mem_cons.mpr
      ⟨.first gap rfl (by simp [Outline.text, Outline.textBy]), ?_⟩
    cases closed with
    | false => simp [nodes_of_done (ends rfl) read]
    | true =>
      intro place mem
      have print : (comment body { before } (some (p.through before).location)).print =
          before ++ '/' :: '*' :: body ++ commentEnd true := by simp [Node.print, commentEnd]
      rw [print] at mem
      exact (ih last placed read _ place mem).behind (by simp [Outline.text, Outline.textBy])
  | flat before header start semicolon rest ih =>
    obtain ⟨rfl, placed⟩ := placed
    obtain ⟨n, others, made, read, rfl⟩ := ofOutline_flat.mp h
    obtain ⟨gap, source, -⟩ := located_ofFlat made
    rw [locatedAll_cons, children, (leaf_ofFlat made).2, Option.getD_none, locatedAll_nil,
      List.nil_append, print_ofFlat made]
    refine List.forall_mem_cons.mpr
      ⟨.first gap source (by simp [Outline.text, Outline.textBy]), ?_⟩
    intro place mem
    exact (ih last placed read _ place mem).behind (by simp [Outline.text, Outline.textBy])
  | nest before header start body closed rest inner ih =>
    obtain ⟨ends, whole, lastIn, last⟩ := last
    obtain ⟨rfl, placedIn, placed⟩ := placed
    obtain ⟨children, blanks, others, within, read, rfl⟩ := ofOutline_nest.mp h
    obtain ⟨gap, source, opens⟩ :=
      located_ofNest before header (p.through before).location children blanks
    rw [locatedAll_cons, Node.children, (children?_ofNest ..).2, Option.getD_some, opens]
    refine List.forall_mem_cons.mpr ⟨.first gap source (by simp [Outline.text, Outline.textBy]),
      List.forall_mem_append.mpr ⟨?_, ?_⟩⟩
    · intro place mem
      exact (inner lastIn placedIn within _ place mem).behind
        (by simp [Outline.text, Outline.textBy])
    · cases closed with
      | false => simp [nodes_of_done (ends rfl) read]
      | true =>
        intro place mem
        have print : (ofNest before header (p.through before).location children blanks).print =
            before ++ header.text ++ '{' :: body.text ++ bodyEnd true := by
          rw [← print_of_closed lastIn (whole rfl) within]
          simp [print_ofNest, bodyEnd]
        rw [print] at mem
        exact (ih last placed read _ place mem).behind (by simp [Outline.text, Outline.textBy])

end Node

/-! ## Sources -/

/-- The line and column of an offset of a text. -/
def locationAt (css : Text) (offset : Nat) : Location :=
  (Cursor.start.through (css.take offset)).location

/-- Places are compared by line, then by column. -/
theorem Location.compare_eq_lt {a b : Location} : a.compare b = .lt ↔ a.Earlier b := by
  simp only [Location.compare, Ordering.then_eq_lt, compare_lt_iff_lt, compare_eq_iff_eq, Earlier]

/-- The source of every node is the place of an offset of the text: the length of everything that is
printed in front of the node's own text, which is how the text starts. So sources increase from each
node to all nodes behind it. -/
theorem Sheet.source_of_parse {css : Text} {sheet : Sheet} (h : Sheet.parse css = .ok sheet) :
    (Node.locatedAll [] sheet.nodes).map (·.2) = Node.preorderAll sheet.nodes ∧
    (∀ place ∈ Node.locatedAll [] sheet.nodes,
      (∃ own back, place.2.print = place.2.layout.before ++ own ∧
        sheet.print = place.1 ++ own ++ back) ∧
      place.1 <+: css ∧ place.2.source = some (locationAt css place.1.length)) ∧
    (Node.preorderAll sheet.nodes).Pairwise fun a b => ∃ p q, a.source = some p ∧
      b.source = some q ∧ p.compare q = .lt := by
  have read := Sheet.parse_eq_ok.mp h
  have stands := Node.standsIn_ofOutline (openLast_outline css) (placed_outline css) read []
  rw [text_outline] at stands
  have source : ∀ place ∈ Node.locatedAll [] sheet.nodes, place.1 <+: css ∧
      place.2.source = some (Cursor.start.through place.1).location := by
    intro place mem
    obtain ⟨ahead, eq, inside, source⟩ := stands place mem
    rw [List.nil_append] at eq
    exact ⟨eq ▸ inside, eq ▸ source⟩
  have visible := Node.visible_ofOutline (laidOut_outline css) read
  refine ⟨Node.map_locatedAll [] sheet.nodes, ?_, ?_⟩
  · intro place mem
    obtain ⟨inside, source⟩ := source place mem
    obtain ⟨-, own, print, rest, eq⟩ := Node.mem_locatedAll [] sheet.nodes place mem
    rw [List.nil_append] at eq
    refine ⟨⟨own, rest ++ sheet.after, print, ?_⟩, inside, ?_⟩
    · rw [Sheet.print, ← eq, List.append_assoc]
    · rw [source, locationAt, ← List.prefix_iff_eq_take.mp inside]
  · rw [← Node.map_locatedAll [], List.pairwise_map]
    refine (Node.pairwise_locatedAll [] visible).imp_of_mem ?_
    intro a b memA memB ahead
    have order := Location.compare_eq_lt.mpr (ahead.earlier Cursor.start)
    exact ⟨_, _, (source a memA).2, (source b memB).2, order⟩

/-- The nodes of `mixedText` by the offsets of their own texts, the last three in a body that
nothing closes. -/
theorem Sheet.source_of_parse_mixed :
    (Node.locatedAll [] Sheet.mixed.nodes).map (·.1.length) = [1, 6, 10, 15, 21] ∧
    (∀ place ∈ Node.locatedAll [] Sheet.mixed.nodes,
      place.2.source = some (locationAt mixedText place.1.length)) ∧
    locationAt mixedText 21 = ⟨2, 16⟩ := by
  have read : Sheet.parse mixedText = .ok .mixed := rfl
  have places := (Sheet.source_of_parse read).2.1
  exact ⟨by decide, fun place mem => (places place mem).2.2, by decide⟩

end BemSheet
