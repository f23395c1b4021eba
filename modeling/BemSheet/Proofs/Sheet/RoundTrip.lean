import BemSheet.Proofs.Sheet.WellFormed
import BemSheet.Sheet.Parser
import BemSheet.Sheet.Printer

/-!
Reading what was printed.

A well-formed style sheet is read back from its text (`Sheet.WellFormed.rereads`): every piece of
the text is grouped apart from the next one, so every node is found where it was printed. Only the
places of the nodes are new.

* `Rereads` says this of a list of nodes in front of a stop, `RereadsNode` of one node.
* Each kind of node has its own lemma, and the induction over the tree puts them together.
-/

namespace BemSheet

open Css Text

namespace Node

mutual

/-- A tree without the places of its nodes. -/
def unplaced : Node → Node
  | rule selector nodes layout _ => rule selector (unplacedAll nodes) layout none
  | atRule name params (some nodes) layout _ =>
    atRule name params (some (unplacedAll nodes)) layout none
  | atRule name params none layout _ => atRule name params none layout none
  | declaration property value layout _ => declaration property value layout none
  | comment text layout _ => comment text layout none

/-- A list of trees without the places of their nodes. -/
def unplacedAll : List Node → List Node
  | [] => []
  | n :: ns => n.unplaced :: unplacedAll ns

end

/-- Every node of a list of trees has a place. -/
def Placed (nodes : List Node) : Prop := ∀ n ∈ preorderAll nodes, n.source.isSome = true

theorem placed_cons {n : Node} {ns : List Node} :
    Placed (n :: ns) ↔ n.source.isSome = true ∧ Placed n.children ∧ Placed ns := by
  simp only [Placed, preorderAll_cons, List.forall_mem_cons, List.forall_mem_append]

theorem placed_nil : Placed [] := by simp [Placed]

/-! ## Finding the parts of a node -/

theorem ofNest_plain {selector between : Text} (last : EndsFilled selector)
    (blank : Blank between) (before : Text) (start : Location) (nodes : List Node)
    (after : Text) : ofNest before (.plain (selector ++ between)) start nodes after =
      rule selector nodes { before, between, after } start := by
  simp only [ofNest, ofRuleHeader, splitEnd_of_parts last blank]

theorem ofAtHeader_eq {params : Text} {body : Option (List Node)} {layout : Layout}
    (h : AtRuleLayout params body layout) (name : Text) (found : Option (List Node))
    (start : Location) (other : Layout) :
    ofAtHeader name (layout.afterName ++ params ++ layout.between) found other start =
      atRule name params found
        { other with afterName := layout.afterName, between := layout.between } start := by
  obtain ⟨lead, parts⟩ := cut_of_parts h.afterName h.trimmed h.between h.between_nil
  simp only [ofAtHeader, lead, parts]

theorem ofDeclarationText_eq {property value : Text} {layout : Layout}
    (h : DeclarationLayout property value layout) (start : Location) (other : Layout) :
    ofDeclarationText? (property ++ layout.between ++ value ++ layout.after) other start =
      some (declaration property value
        { other with between := layout.between, after := layout.after } start) := by
  obtain ⟨front, back, blankFront, blankBack, between⟩ := parts_of_trim h.between
  rw [List.append_assoc, List.singleton_append] at between
  have no_colon : ∀ c ∈ property ++ front, (c != ':') = true := by
    intro c hc
    rw [bne_iff_ne]
    rintro rfl
    rcases List.mem_append.mp hc with hc | hc
    · exact h.no_colon hc
    · exact absurd (blankFront ':' hc) (by decide)
  have whole : property ++ layout.between ++ value ++ layout.after =
      (property ++ front) ++ ':' :: (back ++ value ++ layout.after) := by
    simp [between]
  obtain ⟨lead, parts⟩ := cut_of_parts blankBack h.trimmed h.after h.after_nil
  rw [whole, ofDeclarationText?, List.dropWhile_append_of_pos no_colon,
    List.takeWhile_append_of_pos no_colon, List.dropWhile_cons_of_neg (by decide),
    List.takeWhile_cons_of_neg (by decide), List.append_nil]
  simp only [splitEnd_of_parts h.property_last blankFront, lead, parts, between]

/-! ## One node -/

/-- What is printed for these nodes and the text after them is read as the same nodes in front of a
stop. -/
def Rereads (p : Cursor) (nodes : List Node) (after : Text) : Prop :=
  ∃ forest found, Groups p (printAll nodes ++ after) Stops forest ∧
    ofOutline (.ofForest forest) = .ok (found, after) ∧
    unplacedAll found = unplacedAll nodes ∧ Placed found

/-- What is printed for this node is read as the same node in front of other nodes, or in front of a
stop if the node does not show where it ends. -/
def RereadsNode (p : Cursor) (n : Node) : Prop :=
  ∃ forest found, Groups p n.print (fun rest => n.ended = true ∨ Stops rest) forest ∧
    found.unplaced = n.unplaced ∧ Placed [found] ∧
    ∀ g others after, n.ended = true ∨ g = .nil → ofOutline (.ofForest g) = .ok (others, after) →
      ofOutline (.ofForest (forest.append g)) = .ok (found :: others, after)

/-- A statement with a body. -/
theorem rereads_nest {n : Node} {before header after : Text} {parts : Header} {nodes : List Node}
    (print : n.print = before ++ (header ++ ('{' :: (printAll nodes ++ after) ++ ['}'])))
    (gap : Gap before) (readAs : Outline.ReadAs header parts)
    (no_colon : ['-', '-'] <+: header → ':' ∉ header) (body : ∀ p, Rereads p nodes after)
    (same : ∀ found start, unplacedAll found = unplacedAll nodes →
      (ofNest before parts start found after).unplaced = n.unplaced)
    (p : Cursor) : RereadsNode p n := by
  obtain ⟨space, grouped_space, outline_space⟩ := Groups.gap gap p
  obtain ⟨head, custom, colon, start, grouped_head, heads, nestable⟩ := readAs (p.through before)
  obtain ⟨inner, found, grouped_inner, read, same_inner, placed⟩ :=
    body (((p.through before).through header).step '{')
  obtain ⟨opener, closer, curly, grouped_body⟩ := Groups.body grouped_inner
  refine ⟨space.append (head.append (.block opener inner (some closer) .nil)),
    ofNest before parts start found after, ?_, same found start same_inner, ?_, ?_⟩
  · have grouped := grouped_head.append grouped_body fun _ _ => stops_cons.mpr (by decide)
    rw [print]
    exact (grouped_space.append grouped fun _ _ => trivial).weaken fun _ _ => trivial
  · have shape : (ofNest before parts start found after).source = some start ∧
        (ofNest before parts start found after).children = found := by
      cases parts <;> exact ⟨rfl, rfl⟩
    exact placed_cons.mpr ⟨by rw [shape.1]; rfl, by rwa [shape.2], placed_nil⟩
  · intro g others after _ rest
    have outline : Outline.ofForest
        ((space.append (head.append (.block opener inner (some closer) .nil))).append g) =
        .nest before parts start (.ofForest inner) true (.ofForest g) := by
      rw [Forest.append_assoc, outline_space, Forest.append_assoc, Forest.append, Forest.append,
        heads.nest (nestable no_colon) curly inner closer g]
      simp [Outline.prepend]
    rw [outline, ofOutline_nest]
    exact ⟨found, _, others, read, rest, rfl⟩

/-- A statement without a body. -/
theorem rereads_flat {n : Node} {before header : Text} {parts : Header} {semicolon : Bool}
    (print : n.print = before ++ (header ++ if semicolon then [';'] else []))
    (ended : n.ended = semicolon) (gap : Gap before) (readAs : Outline.ReadAs header parts)
    (same : ∀ start, ∃ found, ofFlat before parts start semicolon = .ok found ∧
      found.unplaced = n.unplaced ∧ Placed [found])
    (p : Cursor) : RereadsNode p n := by
  obtain ⟨space, grouped_space, outline_space⟩ := Groups.gap gap p
  obtain ⟨head, custom, colon, start, grouped_head, heads, -⟩ := readAs (p.through before)
  obtain ⟨ending, grouped_ending, outline_ending⟩ :=
    Outline.Heads.flat semicolon ((p.through before).through header)
  obtain ⟨found, flat, same, placed⟩ := same start
  refine ⟨space.append (head.append ending), found, ?_, same, placed, ?_⟩
  · have grouped := grouped_head.append grouped_ending fun _ => Outline.stops_flat
    rw [print, ended]
    exact grouped_space.append grouped fun _ _ => trivial
  · intro g others after last rest
    rw [ended] at last
    have outline : Outline.ofForest ((space.append (head.append ending)).append g) =
        .flat before parts start semicolon (.ofForest g) := by
      rw [Forest.append_assoc, outline_space, Forest.append_assoc, outline_ending heads g last]
      simp [Outline.prepend]
    rw [outline, ofOutline_flat]
    exact ⟨found, others, flat, rest, rfl⟩

section

variable {layout : Layout} {source : Option Location} {nodes : List Node}

theorem rereads_rule {selector : Text} (laid : RuleLayout nodes layout)
    (safe : SafeSelector selector) (body : ∀ p, Rereads p nodes layout.after) (p : Cursor) :
    RereadsNode p (rule selector nodes layout source) := by
  have nonempty : selector ++ layout.between ≠ [] := by simp [safe.nonempty]
  have readAs := Outline.readAs_plain (safe.safe.append_blanks laid.between) nonempty
    (safe.starts layout.between)
  apply rereads_nest (by simp [print]) laid.before readAs (safe.no_colon_append laid.between) body
  intro found start same
  rw [ofNest_plain safe.trimmed.last laid.between, unplaced, unplaced, same, ← laid.eq]

theorem rereads_atRule {name params : Text} {body : Option (List Node)}
    (laid : AtRuleLayout params body layout) (plain : isPlainName name = true)
    (safe : Safe params) (inner : ∀ nodes ∈ body, ∀ p, Rereads p nodes layout.after) (p : Cursor) :
    RereadsNode p (atRule name params body layout source) := by
  have readAs := Outline.readAs_keyword (isPlainName_row plain) (startsIdent_of_isPlainName plain)
    (laid.safe safe) laid.apart_append
  have bodyLayout := laid.body
  cases body with
  | none =>
    have ended : (atRule name params none layout source).ended = layout.semicolon := rfl
    apply rereads_flat (by simp [print, semicolonText]) ended laid.before readAs
    intro start
    refine ⟨atRule name params none layout start, ?_, ?_, ?_⟩
    · rw [ofFlat, ofAtHeader_eq laid, ← bodyLayout.eq_none]
    · rw [unplaced, unplaced]
    · exact placed_cons.mpr ⟨rfl, placed_nil, placed_nil⟩
  | some nodes =>
    apply rereads_nest (by simp [print]) laid.before readAs _ (inner nodes rfl)
    · intro found start same
      rw [ofNest, ofAtHeader_eq laid, unplaced, unplaced, same, ← bodyLayout.eq_some]
    · intro hyphens
      cases (List.cons_prefix_cons.mp hyphens).1

theorem rereads_declaration {property value : Text}
    (laid : DeclarationLayout property value layout) (safe : Safe property) (safe' : Safe value)
    (p : Cursor) : RereadsNode p (declaration property value layout source) := by
  obtain ⟨safe_text, filled, starts⟩ := laid.header safe safe'
  have ended : (declaration property value layout source).ended = layout.semicolon := rfl
  apply rereads_flat (by simp [print, semicolonText]) ended laid.before
    (Outline.readAs_plain safe_text filled starts)
  intro start
  refine ⟨declaration property value layout start, ?_, ?_, ?_⟩
  · simp only [ofFlat, ofDeclarationText_eq laid, ← laid.eq]
  · rw [unplaced, unplaced]
  · exact placed_cons.mpr ⟨rfl, placed_nil, placed_nil⟩

theorem rereads_comment {text : Text} (laid : CommentLayout text layout) (p : Cursor) :
    RereadsNode p (comment text layout source) := by
  obtain ⟨gap, grouped_gap, outline_gap⟩ := Groups.gap laid.before p
  have grouped := grouped_gap.append (Groups.comment laid.no_end (p.through layout.before))
    fun _ _ => trivial
  have text_eq : (comment text layout source).print =
      layout.before ++ ('/' :: '*' :: text ++ ['*', '/']) := by simp [print]
  rw [← text_eq] at grouped
  refine ⟨_, comment text layout (p.through layout.before).location,
    grouped.weaken fun _ _ => trivial, ?_, ?_, ?_⟩
  · rw [unplaced, unplaced]
  · exact placed_cons.mpr ⟨rfl, placed_nil, placed_nil⟩
  · intro g others after _ rest
    rw [Forest.append_assoc, outline_gap, Forest.append, Forest.append, Outline.ofForest]
    simp only [Outline.prepend, List.append_nil]
    rw [ofOutline_comment]
    exact ⟨others, rest, by rw [← laid.others]⟩

end

/-! ## All nodes -/

theorem rereads_nil {after : Text} (gap : Gap after) (p : Cursor) : Rereads p [] after := by
  obtain ⟨f, grouped, outline⟩ := Groups.gap gap p
  have done : Outline.ofForest f = .done after := by
    have whole := outline .nil
    rw [Forest.append_nil, Outline.ofForest] at whole
    rw [whole, Outline.prepend, List.append_nil]
  refine ⟨f, [], ?_, by rw [done, ofOutline], by rw [unplacedAll], placed_nil⟩
  rw [printAll]
  exact grouped.weaken fun _ _ => trivial

theorem rereads_cons {n : Node} {ns : List Node} {after : Text}
    (ended : n.ended = true ∨ ns = [] ∧ after = []) (first : ∀ p, RereadsNode p n)
    (others : ∀ p, Rereads p ns after) (p : Cursor) : Rereads p (n :: ns) after := by
  obtain ⟨f, found, grouped, same, placed, outline⟩ := first p
  have text : printAll (n :: ns) ++ after = n.print ++ (printAll ns ++ after) := by
    rw [printAll, List.append_assoc]
  rcases ended with ended | ⟨rfl, rfl⟩
  · obtain ⟨g, rest, grouped', read, same', placed'⟩ := others (p.through n.print)
    refine ⟨f.append g, found :: rest, ?_, outline g rest after (.inl ended) read, ?_, ?_⟩
    · rw [text]
      exact grouped.append grouped' fun _ _ => .inl ended
    · rw [unplacedAll, unplacedAll, same, same']
    · obtain ⟨place, beneath, -⟩ := placed_cons.mp placed
      exact placed_cons.mpr ⟨place, beneath, placed'⟩
  · have read := outline .nil [] [] (.inr rfl) (by rw [Outline.ofForest, ofOutline])
    rw [Forest.append_nil] at read
    refine ⟨f, [found], ?_, read, ?_, placed⟩
    · rw [text, printAll, List.append_nil, List.append_nil]
      exact grouped.weaken fun _ hr => .inr hr
    · simp only [unplacedAll, same]

/-- Every list of nodes that are laid out and say nothing that disturbs a statement is read back. -/
theorem rereads_all (ns : List Node) : ∀ after, Gap after → Terminated ns after →
    (∀ n ∈ preorderAll ns, n.LaidOut ∧ n.SafeTexts) → ∀ p, Rereads p ns after := by
  induction ns using forestInduction with
  | nil =>
    intro after gap _ _ p
    exact rereads_nil gap p
  | cons n ns beneath others =>
    intro after gap terminated fine p
    rw [preorderAll_cons, List.forall_mem_cons, List.forall_mem_append] at fine
    obtain ⟨⟨laid, safe⟩, inner, rest⟩ := fine
    apply rereads_cons terminated.1 _ (others after gap terminated.2 rest)
    intro p
    cases n with
    | rule selector nodes layout source =>
      exact rereads_rule laid safe (beneath _ laid.after laid.terminated inner) p
    | atRule name params body layout source =>
      apply rereads_atRule laid safe.1 safe.2
      intro nodes eq
      obtain rfl : body = some nodes := eq
      obtain ⟨gap, -, terminated⟩ := laid.body
      exact beneath _ gap terminated inner
    | declaration property value layout source =>
      exact rereads_declaration laid safe.1 safe.2 p
    | comment text layout source => exact rereads_comment laid p

end Node

/-- A style sheet without the places of its nodes. -/
def Sheet.unplaced (sheet : Sheet) : Sheet :=
  { sheet with nodes := Node.unplacedAll sheet.nodes }

theorem Sheet.WellFormed.rereads {sheet : Sheet} (h : sheet.WellFormed) :
    Node.Rereads .start sheet.nodes sheet.after :=
  Node.rereads_all sheet.nodes sheet.after h.after h.terminated
    (fun n hn => ⟨h.laidOut n hn, h.safe n hn⟩) .start

theorem Sheet.parse_of_rereads {sheet : Sheet}
    (h : Node.Rereads .start sheet.nodes sheet.after) :
    ∃ found, Sheet.parse sheet.print = .ok found ∧ found.unplaced = sheet.unplaced ∧
      Node.Placed found.nodes := by
  obtain ⟨forest, nodes, grouped, read, same, placed⟩ := h
  refine ⟨{ nodes, after := sheet.after }, Sheet.parse_eq_ok.mpr ?_, ?_, placed⟩
  · rw [outline, tokens, Sheet.print, grouped.forest_eq stops_nil, read]
  · rw [Sheet.unplaced, Sheet.unplaced, same]

/-- A well-formed style sheet is read back from its text, with a place for every node and all else
as it was. -/
theorem Sheet.parse_print {sheet : Sheet} (h : sheet.WellFormed) :
    ∃ found, Sheet.parse sheet.print = .ok found ∧ found.unplaced = sheet.unplaced ∧
      ∀ n ∈ Node.preorderAll found.nodes, n.source.isSome = true :=
  parse_of_rereads h.rereads

/-- The sheet `@media (a;b) { .x:is([{}]) { --y: [;@] }}/* : {*/;@charset x` on four lines. Brackets
hide what would end a statement, and two statements have no end of their own. -/
def Sheet.hiding : Sheet where
  nodes := [
    .atRule "media".toList "(a;b)".toList (some [
      .rule ".x:is([\x7b\x7d])".toList [
        .declaration "--y".toList "[;@]".toList
          { before := [' '], between := [':', ' '], after := [' '] } none]
        { before := ['\n', ' '], between := [' '] } none])
      { between := [' '], afterName := [' '] } none,
    .comment " : \x7b".toList { before := ['\n'] } none,
    .atRule "charset".toList "x".toList none { before := [';', '\n'], afterName := [' '] } none]

theorem Sheet.parse_print_hiding : Sheet.hiding.WellFormed ∧
    ∃ found, Sheet.parse Sheet.hiding.print = .ok found ∧
      found.unplaced = Sheet.hiding.unplaced ∧
      ∀ n ∈ Node.preorderAll found.nodes, n.source.isSome = true :=
  ⟨by decide, Sheet.parse_print (by decide)⟩

end BemSheet
