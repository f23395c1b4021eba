import BemSheet.Proofs.Css.Unclosed
import BemSheet.Proofs.Sheet.Preorder
import BemSheet.Sheet.Parser
import BemSheet.Sheet.Printer

/-!
Reading a style sheet keeps every character of it.

Printing writes the end of every comment and every body, also where the text that was read has none
(`print_ofOutline`). Since only the last of them can be open, what printing adds stands behind all
that was read: the end of a comment, then one bracket for each open body (`textBy_of_openLast`).
-/

namespace BemSheet

open Css

namespace Text

theorem splitEnd_append_append (s tail : Text) :
    s.splitEnd.1 ++ (s.splitEnd.2 ++ tail) = s ++ tail := by
  rw [← List.append_assoc, splitEnd_append]

theorem leading_append_append (s tail : Text) : s.leading ++ (s.trimStart ++ tail) = s ++ tail := by
  rw [← List.append_assoc, leading_append]

end Text

namespace Node

/-! ## Printing the node of a statement -/

theorem print_ofRuleHeader (header : Text) (nodes : List Node) (layout : Layout)
    (start : Location) : (ofRuleHeader header nodes layout start).print =
      layout.before ++ header ++ '{' :: printAll nodes ++ layout.after ++ ['}'] := by
  simp [ofRuleHeader, print, Text.splitEnd_append_append]

/-- What the printer writes behind the parameters of an at-rule. -/
def bodyText (body : Option (List Node)) (layout : Layout) : Text :=
  match body with
  | some nodes => '{' :: printAll nodes ++ layout.after ++ ['}']
  | none => semicolonText layout

theorem print_atRule (name params : Text) (body : Option (List Node)) (layout : Layout)
    (source : Option Location) : (atRule name params body layout source).print =
      layout.before ++ '@' :: name ++ layout.afterName ++ params ++ layout.between ++
        bodyText body layout := by
  cases body <;> simp [print, bodyText]

theorem print_ofAtHeader (name rest : Text) (body : Option (List Node)) (layout : Layout)
    (start : Location) : (ofAtHeader name rest body layout start).print =
      layout.before ++ '@' :: name ++ rest ++ bodyText body layout := by
  have behind : bodyText body { layout with
      afterName := rest.leading, between := rest.trimStart.splitEnd.2 } = bodyText body layout := by
    cases body <;> rfl
  rw [ofAtHeader, print_atRule, behind]
  simp [Text.splitEnd_append_append, Text.leading_append_append]

theorem print_ofDeclarationText {text : Text} {layout : Layout} {start : Location} {n : Node}
    (h : ofDeclarationText? text layout start = some n) :
    n.print = layout.before ++ text ++ semicolonText layout := by
  obtain ⟨front, back, -, rfl, rfl⟩ := ofDeclarationText?_eq_some h
  simp [print, semicolonText, Text.splitEnd_append_append, Text.leading_append_append]

theorem print_ofFlat {before : Text} {header : Header} {start : Location} {semicolon : Bool}
    {n : Node} (h : ofFlat before header start semicolon = .ok n) :
    n.print = before ++ header.text ++ if semicolon then [';'] else [] := by
  cases header with
  | keyword name rest =>
    obtain rfl := Except.ok.inj h
    simp [print_ofAtHeader, bodyText, semicolonText, Header.text]
  | plain text => exact print_ofDeclarationText (ofFlat_plain.mp h)

theorem print_ofNest (before : Text) (header : Header) (start : Location) (nodes : List Node)
    (after : Text) : (ofNest before header start nodes after).print =
      before ++ header.text ++ '{' :: printAll nodes ++ after ++ ['}'] := by
  cases header with
  | keyword name rest => simp [ofNest, print_ofAtHeader, bodyText, Header.text]
  | plain text => simp [ofNest, print_ofRuleHeader, Header.text]

/-! ## Printing the nodes of a list of statements -/

theorem printAll_cons (n : Node) (ns : List Node) :
    printAll (n :: ns) = n.print ++ printAll ns := by
  rw [printAll]

/-- The nodes of a list of statements print as its text with every end written. -/
theorem print_ofOutline {o : Outline} {nodes : List Node} {after : Text}
    (h : ofOutline o = .ok (nodes, after)) :
    printAll nodes ++ after = o.textBy fun _ => true := by
  induction o generalizing nodes after with
  | done text =>
    obtain ⟨rfl, rfl⟩ := Prod.mk.inj (Except.ok.inj h)
    rw [printAll]
    rfl
  | comment before body closed start rest ih =>
    obtain ⟨others, read, rfl⟩ := ofOutline_comment.mp h
    simp [printAll_cons, print, Outline.textBy, commentEnd, ← ih read]
  | flat before header start semicolon rest ih =>
    obtain ⟨node, others, flat, read, rfl⟩ := ofOutline_flat.mp h
    simp [printAll_cons, print_ofFlat flat, Outline.textBy, ← ih read]
  | nest before header start body closed rest inner ih =>
    obtain ⟨children, blank, others, within, read, rfl⟩ := ofOutline_nest.mp h
    simp [printAll_cons, print_ofNest, Outline.textBy, bodyEnd, ← inner within, ← ih read]

/-! ## Comments and bodies in the tree -/

def isComment : Node → Bool
  | comment .. => true
  | _ => false

/-- Whether a node is a rule or an at-rule with a body. -/
def hasBody (n : Node) : Bool := n.children?.isSome

theorem leaf_ofFlat {before : Text} {header : Header} {start : Location} {semicolon : Bool}
    {n : Node} (h : ofFlat before header start semicolon = .ok n) :
    n.isComment = false ∧ n.children? = none := by
  cases header with
  | keyword name rest =>
    obtain rfl := Except.ok.inj h
    exact ⟨rfl, rfl⟩
  | plain text =>
    obtain ⟨front, back, -, -, rfl⟩ := ofDeclarationText?_eq_some (ofFlat_plain.mp h)
    exact ⟨rfl, rfl⟩

theorem children?_ofNest (before : Text) (header : Header) (start : Location) (nodes : List Node)
    (after : Text) : (ofNest before header start nodes after).isComment = false ∧
      (ofNest before header start nodes after).children? = some nodes := by
  cases header <;> exact ⟨rfl, rfl⟩

/-- Every comment of a list of statements becomes a comment of the tree, and every body the body of
a node. -/
theorem countP_ofOutline {o : Outline} {nodes : List Node} {after : Text}
    (h : ofOutline o = .ok (nodes, after)) :
    o.comments.length = (preorderAll nodes).countP isComment ∧
      o.bodies.length = (preorderAll nodes).countP hasBody := by
  induction o generalizing nodes after with
  | done text =>
    obtain ⟨rfl, rfl⟩ := Prod.mk.inj (Except.ok.inj h)
    simp [Outline.comments, Outline.bodies]
  | comment before body closed start rest ih =>
    obtain ⟨others, read, rfl⟩ := ofOutline_comment.mp h
    obtain ⟨comments, bodies⟩ := ih read
    rw [countP_preorderAll_cons, countP_preorderAll_cons, ← comments, ← bodies]
    simp [Outline.comments, Outline.bodies, isComment, hasBody, children, children?, Nat.add_comm]
  | flat before header start semicolon rest ih =>
    obtain ⟨node, others, flat, read, rfl⟩ := ofOutline_flat.mp h
    obtain ⟨comments, bodies⟩ := ih read
    obtain ⟨nocomment, leaf⟩ := leaf_ofFlat flat
    rw [countP_preorderAll_cons, countP_preorderAll_cons, ← comments, ← bodies]
    simp [Outline.comments, Outline.bodies, nocomment, hasBody, children, leaf]
  | nest before header start body closed rest inner ih =>
    obtain ⟨nodes, blank, others, within, read, rfl⟩ := ofOutline_nest.mp h
    obtain ⟨comments, bodies⟩ := ih read
    obtain ⟨comments', bodies'⟩ := inner within
    obtain ⟨nocomment, beneath⟩ := children?_ofNest before header start nodes blank
    rw [countP_preorderAll_cons, countP_preorderAll_cons, ← comments, ← bodies]
    simp only [Outline.comments, Outline.bodies, nocomment, hasBody, children, beneath,
      Option.getD_some, ← comments', ← bodies', List.length_append, List.length_cons]
    constructor
    · simp
    · simp
      omega

end Node

/-! ## What printing adds -/

namespace Css.Outline

/-- The end that the last comment lacks. -/
def missingCommentEnd (o : Outline) : Text :=
  if o.comments.getLast? = some false then ['*', '/'] else []

/-- The brackets that the open bodies lack. -/
def missingBodyEnds (o : Outline) : Text := List.replicate (o.bodies.count false) '}'

theorem missingCommentEnd_of_closed {o : Outline} (h : o.closed = true) :
    o.missingCommentEnd = [] := by
  have all := (Bool.and_eq_true_iff.mp h).1
  rw [missingCommentEnd, if_neg]
  intro last
  cases List.all_eq_true.mp all false (List.mem_of_getLast? last)

theorem missingBodyEnds_of_closed {o : Outline} (h : o.closed = true) :
    o.missingBodyEnds = [] := by
  have all := (Bool.and_eq_true_iff.mp h).2
  rw [missingBodyEnds, List.count_eq_zero.mpr, List.replicate_zero]
  intro mem
  cases List.all_eq_true.mp all false mem

/-- Closed comments in front of others do not tell whether the last one is closed. -/
theorem getLast?_append_eq_false {first others : List Bool} (h : first.all id = true) :
    (first ++ others).getLast? = some false ↔ others.getLast? = some false := by
  rw [List.getLast?_append]
  cases last : others.getLast? with
  | some closed => simp
  | none =>
    simp only [Option.none_or]
    constructor
    · intro ends
      cases List.all_eq_true.mp h false (List.mem_of_getLast? ends)
    · nofun

theorem missingCommentEnd_congr {o o' : Outline}
    (h : o.comments.getLast? = some false ↔ o'.comments.getLast? = some false) :
    o.missingCommentEnd = o'.missingCommentEnd := by
  simp only [missingCommentEnd, h]

theorem missingCommentEnd_comment {before body : Text} {start : Location} {rest : Outline} :
    (comment before body true start rest).missingCommentEnd = rest.missingCommentEnd :=
  missingCommentEnd_congr (@getLast?_append_eq_false [true] rest.comments rfl)

theorem missingCommentEnd_nest {before : Text} {header : Header} {start : Location}
    {body : Outline} {shut : Bool} {rest : Outline} (h : body.closed = true) :
    (nest before header start body shut rest).missingCommentEnd = rest.missingCommentEnd :=
  missingCommentEnd_congr (getLast?_append_eq_false (Bool.and_eq_true_iff.mp h).1)

theorem missingBodyEnds_nest {before : Text} {header : Header} {start : Location}
    {body : Outline} {rest : Outline} (h : body.closed = true) :
    (nest before header start body true rest).missingBodyEnds = rest.missingBodyEnds := by
  have none_missing := missingBodyEnds_of_closed h
  rw [missingBodyEnds, List.replicate_eq_nil_iff] at none_missing
  simp [missingBodyEnds, bodies, none_missing]

/-- Only the last comment and the bodies at the end lack their ends, so these ends come after all
the rest. -/
theorem textBy_of_openLast {o : Outline} (h : o.OpenLast) :
    (o.textBy fun _ => true) = o.text ++ o.missingCommentEnd ++ o.missingBodyEnds := by
  induction o with
  | done after => simp [textBy, text, missingCommentEnd, missingBodyEnds, comments, bodies]
  | comment before body closed start rest ih =>
    obtain ⟨last, h⟩ := h
    cases closed with
    | true =>
      have same : (comment before body true start rest).missingBodyEnds =
          rest.missingBodyEnds := rfl
      simp [textBy, text, missingCommentEnd_comment, same, ih h]
    | false =>
      obtain rfl := last rfl
      simp [textBy, text, missingCommentEnd, missingBodyEnds, comments, bodies, commentEnd]
  | flat before header start semicolon rest ih =>
    have comment : (flat before header start semicolon rest).missingCommentEnd =
        rest.missingCommentEnd := rfl
    have body : (flat before header start semicolon rest).missingBodyEnds =
        rest.missingBodyEnds := rfl
    simp [textBy, text, comment, body, ih h]
  | nest before header start body closed rest inner ih =>
    obtain ⟨last, whole, within, h⟩ := h
    cases closed with
    | true =>
      have whole := whole rfl
      have same := inner within
      rw [missingCommentEnd_of_closed whole, missingBodyEnds_of_closed whole, text] at same
      simp [textBy, text, missingCommentEnd_nest whole, missingBodyEnds_nest whole, same, ih h]
    | false =>
      obtain rfl := last rfl
      have comment : (nest before header start body false (done [])).missingCommentEnd =
          body.missingCommentEnd :=
        missingCommentEnd_congr (by simp [comments])
      have bodies : (nest before header start body false (done [])).missingBodyEnds =
          body.missingBodyEnds ++ ['}'] := by
        simp [missingBodyEnds, bodies, List.replicate_succ']
      simp [textBy, text, comment, bodies, inner within, bodyEnd]

/-- Printing adds two characters for each open comment and one for each open body. -/
theorem length_textBy (o : Outline) : (o.textBy fun _ => true).length =
    o.text.length + 2 * o.comments.count false + o.bodies.count false := by
  induction o with
  | done after => simp [textBy, text, comments, bodies]
  | comment before body closed start rest ih =>
    rw [text] at ih ⊢
    cases closed <;> simp [textBy, comments, bodies, commentEnd, ih] <;> omega
  | flat before header start semicolon rest ih =>
    rw [text] at ih ⊢
    simp [textBy, comments, bodies, ih]
    omega
  | nest before header start body closed rest inner ih =>
    rw [text] at ih inner ⊢
    cases closed <;> simp [textBy, comments, bodies, bodyEnd, ih, inner] <;> omega

end Css.Outline

/-- A sheet that prints as the text it was read from has no open comment and no open body. -/
theorem Sheet.closed_of_print {css : Text} {sheet : Sheet} (h : Sheet.parse css = .ok sheet)
    (whole : sheet.print = css) : (outline css).closed = true := by
  have printed := Node.print_ofOutline (Sheet.parse_eq_ok.mp h)
  have sizes := Outline.length_textBy (outline css)
  rw [← printed, text_outline, ← Sheet.print, whole] at sizes
  have all {bs : List Bool} (none : bs.count false = 0) : bs.all id = true := by
    rw [List.all_eq_true]
    intro b hb
    cases b with
    | true => rfl
    | false => exact absurd hb (List.count_eq_zero.mp none)
  rw [Outline.closed, all (by omega), all (by omega)]
  rfl

/-- A style sheet prints as the text it was read from, then the end of the last comment if the text
does not close it, then one bracket for each body that the text does not close. So it prints as that
very text wherever all of these are closed. The comments and the bodies are those of the tree. -/
theorem Sheet.print_of_parse {css : Text} {sheet : Sheet} (h : Sheet.parse css = .ok sheet) :
    sheet.print = css ++ (outline css).missingCommentEnd ++ (outline css).missingBodyEnds ∧
    ((outline css).closed = true → sheet.print = css) ∧
    (outline css).comments.length = (Node.preorderAll sheet.nodes).countP Node.isComment ∧
    (outline css).bodies.length = (Node.preorderAll sheet.nodes).countP Node.hasBody := by
  have read := Sheet.parse_eq_ok.mp h
  have printed : sheet.print =
      css ++ (outline css).missingCommentEnd ++ (outline css).missingBodyEnds := by
    calc sheet.print
      _ = (outline css).textBy fun _ => true := Node.print_ofOutline read
      _ = (outline css).text ++ (outline css).missingCommentEnd ++ (outline css).missingBodyEnds :=
        Outline.textBy_of_openLast (openLast_outline css)
      _ = css ++ (outline css).missingCommentEnd ++ (outline css).missingBodyEnds := by
        rw [text_outline]
  refine ⟨printed, ?_, Node.countP_ofOutline read⟩
  intro closed
  rw [printed, Outline.missingCommentEnd_of_closed closed,
    Outline.missingBodyEnds_of_closed closed, List.append_nil, List.append_nil]

/-- A text that ends in a comment in two bodies gets three ends, the innermost first. -/
theorem Sheet.print_of_parse_all_open : ∃ sheet,
    Sheet.parse "@a b\x7bc\x7b;/*d".toList = .ok sheet ∧
      sheet.print = "@a b\x7bc\x7b;/*d*/\x7d\x7d".toList := by
  obtain ⟨sheet, read⟩ : ∃ sheet, Sheet.parse "@a b\x7bc\x7b;/*d".toList = .ok sheet := ⟨_, rfl⟩
  refine ⟨sheet, read, ?_⟩
  rw [(Sheet.print_of_parse read).1]
  decide

end BemSheet
