import BemSheet.Proofs.Css.Parts
import BemSheet.Proofs.Sheet.Places

/-!
Every part of a style sheet is read alone as it is read in its place.

The tokens of a statement are those of its own text (`Css.Forest.Whole`), wherever it stands, since
statements that end are cut apart from what follows them, and bodies from their brackets. So the
text of a node is a sheet of that node alone, and the text of a body is a sheet of what is in it.
-/

namespace BemSheet

open Css

/-- A text that is read as these nodes, places aside, and this text after them. -/
def Sheet.ReadsAs (s : Text) (nodes : List Node) (after : Text) : Prop :=
  ∃ found, Sheet.parse s = .ok found ∧ found.unplaced = ⟨Node.unplacedAll nodes, after⟩

namespace Node

/-- The text of the node is read as the node alone, and the text of its body, if it has one, as what
is in the body. -/
structure ReadAlone (n : Node) : Prop where
  node : Sheet.ReadsAs n.print [n] []
  body : ∀ nodes ∈ n.children?,
    Sheet.ReadsAs (printAll nodes ++ n.layout.after) nodes n.layout.after

/-! ## The first node of a list of statements -/

/-- The first statement of a list is its first node. -/
theorem ofOutline_single {o o' : Outline} (single : o.Single) {nodes : List Node} {after : Text}
    (h : ofOutline (o.append o') = .ok (nodes, after)) :
    ∃ n others, ofOutline o = .ok ([n], []) ∧ ofOutline o' = .ok (others, after) ∧
      nodes = n :: others := by
  have nothing : ofOutline (.done []) = .ok ([], []) := by rw [ofOutline]
  cases o with
  | done => cases single
  | comment before body closed start rest =>
    obtain rfl : rest = .done [] := single
    obtain ⟨others, read, rfl⟩ := ofOutline_comment.mp h
    rw [Outline.append, Outline.prepend_nil] at read
    exact ⟨_, others, ofOutline_comment.mpr ⟨[], nothing, rfl⟩, read, rfl⟩
  | flat before header start semicolon rest =>
    obtain rfl : rest = .done [] := single
    obtain ⟨n, others, flat, read, rfl⟩ := ofOutline_flat.mp h
    rw [Outline.append, Outline.prepend_nil] at read
    exact ⟨n, others, ofOutline_flat.mpr ⟨n, [], flat, nothing, rfl⟩, read, rfl⟩
  | nest before header start body closed rest =>
    obtain rfl : rest = .done [] := single
    obtain ⟨children, inner, others, within, read, rfl⟩ := ofOutline_nest.mp h
    rw [Outline.append, Outline.prepend_nil] at read
    exact ⟨_, others, ofOutline_nest.mpr ⟨children, inner, [], within, nothing, rfl⟩, read, rfl⟩

/-- A node with children is made from a statement with a body, and they from that body. -/
theorem nests_of_children {o : Outline} {n : Node} {others children : List Node} {after : Text}
    (h : ofOutline o = .ok (n :: others, after)) (has : n.children? = some children) :
    ∃ inner shut, Outline.Nests inner shut o ∧
      ofOutline inner = .ok (children, n.layout.after) := by
  cases o with
  | done => cases h
  | comment before body closed start rest =>
    obtain ⟨_, -, eq⟩ := ofOutline_comment.mp h
    obtain ⟨rfl, -⟩ := List.cons.inj eq
    cases has
  | flat before header start semicolon rest =>
    obtain ⟨m, _, flat, -, eq⟩ := ofOutline_flat.mp h
    obtain ⟨rfl, -⟩ := List.cons.inj eq
    rw [(leaf_ofFlat flat).2] at has
    cases has
  | nest before header start body closed rest =>
    obtain ⟨nodes, inner, _, within, -, eq⟩ := ofOutline_nest.mp h
    obtain ⟨rfl, -⟩ := List.cons.inj eq
    rw [(children?_ofNest before header start nodes inner).2] at has
    obtain rfl := Option.some.inj has
    refine ⟨body, closed, ⟨rfl, rfl⟩, ?_⟩
    rw [within]
    cases header <;> rfl

/-! ## Forests of their own text -/

theorem readsAs_of_whole {p : Cursor} {f : Forest} {nodes : List Node} {after : Text}
    (h : f.Whole p) (closed : (Outline.ofForest f).closed = true)
    (read : ofOutline (.ofForest f) = .ok (nodes, after)) :
    Sheet.ReadsAs (printAll nodes ++ after) nodes after := by
  have same : printAll nodes ++ after = f.text := by
    have openLast := (Outline.openLast_ofForest h.last).1
    rw [print_ofOutline read, Outline.textBy_of_openLast openLast,
      Outline.missingCommentEnd_of_closed closed, Outline.missingBodyEnds_of_closed closed,
      (Outline.text_ofForest h.spelled).1, List.append_nil, List.append_nil]
  have here : ofOutline (outlineFrom p f.text) = .ok (nodes, after) := by
    rw [outlineFrom, h.eq_ofTokens, read]
  obtain ⟨found, again, unplaced⟩ := ofOutline_unplaced (q := .start) here
  exact ⟨⟨found, after⟩, Sheet.parse_eq_ok.mpr (same ▸ again), by rw [Sheet.unplaced, unplaced]⟩

/-- Every node that a closed forest of its own text has, at any depth, is read alone. -/
theorem readAlone_of_whole {p : Cursor} {f : Forest} {nodes : List Node} {after : Text}
    (h : f.Whole p) (closed : (Outline.ofForest f).closed = true)
    (read : ofOutline (.ofForest f) = .ok (nodes, after)) :
    ∀ n ∈ preorderAll nodes, n.ReadAlone := by
  rcases (Outline.exists_first f).1 with ⟨gap, done⟩ | ⟨g, g', parts, single, ended⟩
  · rw [done] at read
    obtain ⟨rfl, -⟩ := Prod.mk.inj (Except.ok.inj read)
    simp
  have tokens : f.tokens.length = g.tokens.length + g'.tokens.length := by
    rw [parts, Forest.tokens_append, List.length_append]
  rw [parts] at h closed read
  obtain ⟨first, rest, split, closed, closed'⟩ := h.cut closed ended
  rw [split] at read
  obtain ⟨n, others, here, behind, rfl⟩ := ofOutline_single single read
  have nonempty : 0 < g.tokens.length := by
    cases g with
    | nil =>
      rw [Outline.ofForest_nil] at single
      cases single
    | leaf | block => exact Nat.succ_pos _
  -- The two smaller forests: what follows the first statement, and what is in its body.
  have later : ∀ m ∈ preorderAll others, m.ReadAlone := readAlone_of_whole rest closed' behind
  have beneath : ∀ children ∈ n.children?,
      Sheet.ReadsAs (printAll children ++ n.layout.after) children n.layout.after ∧
        ∀ m ∈ preorderAll children, m.ReadAlone := by
    intro children has
    obtain ⟨inner, shut, nests, within⟩ := nests_of_children here has
    obtain ⟨rfl, whole⟩ := Outline.closed_of_nests nests closed
    obtain ⟨body, q, rfl, own, smaller⟩ := first.exists_body nests
    exact ⟨readsAs_of_whole own whole within, readAlone_of_whole own whole within⟩
  rw [preorderAll_cons, List.forall_mem_cons, List.forall_mem_append]
  refine ⟨⟨?_, fun children has => (beneath children has).1⟩, ?_, later⟩
  · have alone := readsAs_of_whole first closed here
    rwa [printAll_cons, printAll, List.append_nil, List.append_nil] at alone
  · rw [children]
    cases has : n.children? with
    | none => simp
    | some children => exact (beneath children has).2
termination_by f.tokens.length
decreasing_by all_goals omega

end Node

/-- In a style sheet that prints as the text it was read from, every node at any depth is read from
its own text as it is in the sheet, and so is the body of every node that has one. -/
theorem Sheet.parse_subtree {css : Text} {sheet : Sheet} (h : Sheet.parse css = .ok sheet)
    (whole : sheet.print = css) : ∀ n ∈ Node.preorderAll sheet.nodes, n.ReadAlone :=
  Node.readAlone_of_whole (Forest.whole_tokensFrom .start css) (Sheet.closed_of_print h whole)
    (Sheet.parse_eq_ok.mp h)

/-- The text `@a{b{--c:{d}}/*e*/}`. -/
def deepText : Text := "@a\x7bb\x7b--c:\x7bd\x7d\x7d/*e*/\x7d".toList

/-- The sheet of `deepText`: an at-rule that holds a rule and a comment. -/
def Sheet.deep : Sheet where
  nodes := [
    .atRule ['a'] [] (some [
      .rule ['b'] [.declaration "--c".toList "\x7bd\x7d".toList { between := [':'] } (some ⟨1, 6⟩)]
        {} (some ⟨1, 4⟩),
      .comment ['e'] {} (some ⟨1, 14⟩)]) {} (some ⟨1, 1⟩)]

/-- The nodes of `deepText` are read alone, among them a custom property without a semicolon, which
the end of a body ends there and the end of the text here. -/
theorem Sheet.parse_subtree_deep : Sheet.parse deepText = .ok .deep ∧
    Sheet.deep.print = deepText ∧ ∀ n ∈ Node.preorderAll Sheet.deep.nodes, n.ReadAlone := by
  have read : Sheet.parse deepText = .ok .deep := rfl
  have whole : Sheet.deep.print = deepText := by decide
  exact ⟨read, whole, Sheet.parse_subtree read whole⟩

end BemSheet
