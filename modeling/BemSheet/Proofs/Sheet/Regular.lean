import BemSheet.Proofs.Css.Origins
import BemSheet.Proofs.Sheet.Layout
import BemSheet.Proofs.Sheet.Lossless

/-!
What every tree that was read looks like.

* `forall_ofOutline`: what holds of the node of each statement holds of every node of the tree.
* `Sheet.regular_of_parse`: so every node is laid out, is bare of what stands around it, has only
  the layout of its kind, and knows its place.
-/

namespace BemSheet

open Css Text

namespace Node

/-! ## From statements to all nodes -/

/-- What holds of comments, and of the node that each statement of a list makes, holds of every node
that was made. `q` is what is known of the statements. -/
theorem forall_ofOutline {p : Node → Prop} {q : Outline → Prop}
    (comment : ∀ before body (start : Location), p (.comment body { before } start))
    (flat : ∀ before header start semicolon rest n, q (.flat before header start semicolon rest) →
      ofFlat before header start semicolon = .ok n → p n)
    (nest : ∀ before header start body closed rest nodes after,
      q (.nest before header start body closed rest) →
      p (ofNest before header start nodes after))
    {o : Outline} (known : ∀ s ∈ o.statements, q s) {nodes : List Node} {after : Text}
    (h : ofOutline o = .ok (nodes, after)) : ∀ n ∈ preorderAll nodes, p n := by
  induction o generalizing nodes after with
  | done text =>
    obtain ⟨rfl, rfl⟩ := Prod.mk.inj (Except.ok.inj h)
    simp
  | comment before body closed start rest ih =>
    obtain ⟨others, read, rfl⟩ := ofOutline_comment.mp h
    rw [preorderAll_cons]
    exact List.forall_mem_cons.mpr ⟨comment before body start, ih known read⟩
  | flat before header start semicolon rest ih =>
    obtain ⟨first, known⟩ := List.forall_mem_cons.mp known
    obtain ⟨n, others, made, read, rfl⟩ := ofOutline_flat.mp h
    rw [preorderAll_cons, children, (leaf_ofFlat made).2, Option.getD_none, preorderAll_nil,
      List.nil_append]
    have own := flat before header start semicolon rest n first made
    exact List.forall_mem_cons.mpr ⟨own, ih known read⟩
  | nest before header start body closed rest inner ih =>
    obtain ⟨first, known⟩ := List.forall_mem_cons.mp known
    obtain ⟨within, known⟩ := List.forall_mem_append.mp known
    obtain ⟨children, blanks, others, beneath, read, rfl⟩ := ofOutline_nest.mp h
    rw [preorderAll_cons, Node.children, (children?_ofNest ..).2, Option.getD_some]
    have own := nest before header start body closed rest children blanks first
    exact List.forall_mem_cons.mpr ⟨own,
      List.forall_mem_append.mpr ⟨inner within beneath, ih known read⟩⟩

/-- A node with a body is made from a statement with a body. -/
theorem exists_nest {o : Outline} {nodes : List Node} {after : Text}
    (h : ofOutline o = .ok (nodes, after)) : ∀ n ∈ preorderAll nodes, n.hasBody = true →
      ∃ before header start body closed rest children blanks,
        .nest before header start body closed rest ∈ o.statements ∧
        n = ofNest before header start children blanks := by
  refine forall_ofOutline (q := (· ∈ o.statements)) ?_ ?_ ?_ (fun _ => id) h
  · intro before body start has
    cases has
  · intro before header start semicolon rest n _ made has
    rw [hasBody, (leaf_ofFlat made).2] at has
    cases has
  · intro before header start body closed rest children blanks statement _
    exact ⟨before, header, start, body, closed, rest, children, blanks, statement, rfl⟩

/-! ## Regular nodes -/

/-- The layout of a node without the fields that its kind does not have. -/
def ownLayout : Node → Layout
  | rule _ _ layout _ =>
    { before := layout.before, between := layout.between, after := layout.after }
  | atRule _ _ none layout _ => { layout with after := [] }
  | atRule _ _ (some _) layout _ => { layout with semicolon := false }
  | declaration _ _ layout _ => { layout with afterName := [] }
  | comment _ layout _ => { before := layout.before }

/-- What a node says is bare of what stands around it: of blanks behind a selector, of the `@` of an
at-rule, and of the one colon between the property and the value of a declaration. -/
def Bare : Node → Prop
  | rule selector _ _ _ => EndsFilled selector
  | atRule name _ _ _ _ => Named name
  | declaration _ _ layout _ =>
    ∃ front back, Blank front ∧ Blank back ∧ layout.between = front ++ ':' :: back
  | comment .. => True

/-- A node as reading makes it. -/
structure Regular (n : Node) : Prop where
  laidOut : n.LaidOut
  bare : n.Bare
  own : n.layout = n.ownLayout
  placed : n.source.isSome = true

theorem own_of_laidOut {n : Node} (h : n.LaidOut) : n.layout = n.ownLayout := by
  cases n with
  | rule selector nodes layout source => exact RuleLayout.eq h
  | atRule name params body layout source =>
    cases body with
    | none => exact BodyLayout.eq_none (AtRuleLayout.body h)
    | some nodes => exact BodyLayout.eq_some (AtRuleLayout.body h)
  | declaration property value layout source => exact DeclarationLayout.eq h
  | comment text layout source => exact CommentLayout.others h

theorem bare_ofFlat {before : Text} {header : Header} {start : Location} {semicolon : Bool}
    {n : Node} (named : header.Named) (h : ofFlat before header start semicolon = .ok n) :
    n.Bare ∧ n.source.isSome = true := by
  cases header with
  | keyword name rest =>
    obtain rfl := Except.ok.inj h
    exact ⟨named, rfl⟩
  | plain text =>
    obtain ⟨front, back, -, -, rfl⟩ := ofDeclarationText?_eq_some (ofFlat_plain.mp h)
    exact ⟨⟨_, _, blank_splitEnd front, blank_leading back, rfl⟩, rfl⟩

theorem bare_ofNest {header : Header} (named : header.Named) (before : Text) (start : Location)
    (nodes : List Node) (after : Text) :
    (ofNest before header start nodes after).Bare ∧
      (ofNest before header start nodes after).source.isSome = true := by
  cases header with
  | keyword name rest => exact ⟨named, rfl⟩
  | plain text => exact ⟨splitEnd_last text, rfl⟩

theorem bare_ofOutline {o : Outline}
    (named : ∀ s ∈ o.statements, ∀ header ∈ s.header?, header.Named)
    {nodes : List Node} {after : Text} (h : ofOutline o = .ok (nodes, after)) :
    ∀ n ∈ preorderAll nodes, n.Bare ∧ n.source.isSome = true := by
  refine forall_ofOutline (q := fun s => ∀ header ∈ s.header?, header.Named)
    (p := fun n => n.Bare ∧ n.source.isSome = true) ?_ ?_ ?_ named h
  · intro before body start
    exact ⟨trivial, rfl⟩
  · intro before header start semicolon rest n named made
    exact bare_ofFlat (named header rfl) made
  · intro before header start body closed rest nodes after named
    exact bare_ofNest (named header rfl) before start nodes after

end Node

/-- A style sheet as reading makes it. A statement that nothing ends is the last of its list, and
then no text stands between it and the end of the list. -/
structure Sheet.Regular (sheet : Sheet) : Prop where
  nodes : ∀ n ∈ Node.preorderAll sheet.nodes, n.Regular
  terminated : Node.Terminated sheet.nodes sheet.after
  after : Gap sheet.after

/-- Every style sheet that was read is regular, at every depth. -/
theorem Sheet.regular_of_parse {css : Text} {sheet : Sheet} (h : Sheet.parse css = .ok sheet) :
    sheet.Regular := by
  have read := Sheet.parse_eq_ok.mp h
  obtain ⟨laid, terminated, gap⟩ := Node.laidOut_ofOutline (laidOut_outline css) read
  have bare := Node.bare_ofOutline (named_outline css) read
  refine ⟨?_, terminated, gap⟩
  intro n hn
  exact ⟨laid n hn, (bare n hn).1, Node.own_of_laidOut (laid n hn), (bare n hn).2⟩

/-- The text `;@m{}`, and on a second line `.a {b : ;/*e*/`, a tab and `@n x`. -/
def mixedText : Text := ";@m\x7b\x7d\n.a \x7bb : ;/*e*/\t@n x".toList

/-- The sheet of `mixedText`: an at-rule with an empty body, and a rule that holds a declaration
without a value, a comment, and an at-rule that nothing ends. -/
def Sheet.mixed : Sheet where
  nodes := [
    .atRule ['m'] [] (some []) { before := [';'] } (some ⟨1, 2⟩),
    .rule ".a".toList [
      .declaration ['b'] [] { between := " : ".toList, semicolon := true } (some ⟨2, 5⟩),
      .comment ['e'] {} (some ⟨2, 10⟩),
      .atRule ['n'] ['x'] none { before := ['\t'], afterName := [' '] } (some ⟨2, 16⟩)]
      { before := ['\n'], between := [' '] } (some ⟨2, 1⟩)]

/-- The sheet of `mixedText` is regular, with an empty value, empty parameters, and a statement that
only the end of the text ends. -/
theorem Sheet.regular_of_parse_mixed :
    Sheet.parse mixedText = .ok .mixed ∧ Sheet.mixed.Regular := by
  have read : Sheet.parse mixedText = .ok .mixed := rfl
  exact ⟨read, Sheet.regular_of_parse read⟩

end BemSheet
