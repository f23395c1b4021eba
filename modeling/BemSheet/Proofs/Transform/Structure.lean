import BemSheet.Proofs.Sheet.Walk
import BemSheet.Transform.Tree

/-!
What a transformation does to a tree, as one map.

* `Node.asRules f` is that map: at-rules named like a keyword become rules, `f` is applied to every
  selector, and everything else stays.
* `Sheet.normalize_eq` and `Sheet.expandSelectors_asRules`: each of the two walks is such a map, and
  its state goes over the nodes of the tree in preorder.
* Two walks make one map, which leaves no at-rule for a second run to find.
-/

namespace BemSheet

open Bem

/-- The words `block`, `elem` and `mod`. -/
def isKeyword (name : Text) : Bool := Keyword.all.any (·.word == name)

theorem isSome_ofWord? (name : Text) : (Keyword.ofWord? name).isSome = isKeyword name := by
  rw [Keyword.ofWord?, List.isSome_find?, isKeyword]

/-- The part of an at-rule's layout that the rule in its place keeps. -/
def Layout.ofRule (layout : Layout) : Layout :=
  { before := layout.before, between := layout.between, after := layout.after }

namespace Node

mutual

/-- The tree in which every at-rule named like a keyword is the rule whose selector is the name and
the parameters, and in which `f` is applied to every selector. -/
def asRules (f : Text → Text) : Node → Node
  | rule selector nodes layout source => rule (f selector) (asRulesAll f nodes) layout source
  | atRule name params (some nodes) layout source =>
    if isKeyword name then rule (f (name ++ params)) (asRulesAll f nodes) layout.ofRule source
    else atRule name params (some (asRulesAll f nodes)) layout source
  | atRule name params none layout source =>
    if isKeyword name then rule (f (name ++ params)) [] layout.ofRule source
    else atRule name params none layout source
  | declaration property value layout source => declaration property value layout source
  | comment text layout source => comment text layout source

def asRulesAll (f : Text → Text) : List Node → List Node
  | [] => []
  | n :: ns => n.asRules f :: asRulesAll f ns

end

/-- Whether a node is an at-rule named like a keyword. -/
def isKeywordAtRule : Node → Bool
  | atRule name _ _ _ _ => isKeyword name
  | _ => false

def selector? : Node → Option Text
  | rule selector _ _ _ => some selector
  | _ => none

/-- The selectors of a list of trees, in preorder. -/
def selectors (nodes : List Node) : List Text := (preorderAll nodes).filterMap selector?

theorem selectors_cons (n : Node) (ns : List Node) :
    selectors (n :: ns) = n.selector?.toList ++ selectors n.children ++ selectors ns := by
  rw [selectors, preorderAll_cons]
  cases h : n.selector? <;> simp [h, selectors]

section

variable (f : Text → Text)

@[simp] theorem asRulesAll_nil : asRulesAll f [] = [] := by rw [asRulesAll]

@[simp] theorem asRulesAll_cons (n : Node) (ns : List Node) :
    asRulesAll f (n :: ns) = n.asRules f :: asRulesAll f ns := by rw [asRulesAll]

theorem asRules_atRule (name params : Text) (body : Option (List Node)) (layout : Layout)
    (source : Option Location) : (atRule name params body layout source).asRules f =
      if isKeyword name then
        rule (f (name ++ params)) (asRulesAll f (body.getD [])) layout.ofRule source
      else atRule name params (body.map (asRulesAll f)) layout source := by
  cases body <;> simp [asRules]

theorem children_asRules (n : Node) : (n.asRules f).children = asRulesAll f n.children := by
  cases n with
  | rule | declaration | comment => simp [asRules, children, children?]
  | atRule name params body layout source =>
    rw [asRules_atRule]
    by_cases keyword : isKeyword name = true
    · rw [if_pos keyword]
      rfl
    · rw [if_neg keyword]
      cases body <;> simp [children, children?]

theorem isKeywordAtRule_asRules (n : Node) : (n.asRules f).isKeywordAtRule = false := by
  cases n with
  | rule | declaration | comment => rw [asRules]; rfl
  | atRule name params body layout source =>
    rw [asRules_atRule]
    by_cases keyword : isKeyword name = true
    · rw [if_pos keyword]
      rfl
    · rw [if_neg keyword]
      simpa [isKeywordAtRule] using keyword

theorem asRulesAll_no_keyword (ns : List Node) :
    ∀ n ∈ preorderAll (asRulesAll f ns), n.isKeywordAtRule = false := by
  induction ns using forestInduction with
  | nil => simp
  | cons n ns beneath others =>
    intro m hm
    rw [asRulesAll_cons, preorderAll_cons, children_asRules] at hm
    rcases List.mem_cons.mp hm with rfl | hm
    · exact isKeywordAtRule_asRules f n
    · rcases List.mem_append.mp hm with hm | hm
      · exact beneath m hm
      · exact others m hm

end

/-- A tree without at-rules named like a keyword is left as it is. -/
theorem asRulesAll_id {ns : List Node} (h : ∀ n ∈ preorderAll ns, n.isKeywordAtRule = false) :
    asRulesAll id ns = ns := by
  induction ns using forestInduction with
  | nil => exact asRulesAll_nil id
  | cons n ns beneath others =>
    rw [preorderAll_cons, List.forall_mem_cons, List.forall_mem_append] at h
    obtain ⟨head, inner, rest⟩ := h
    have children := beneath inner
    rw [asRulesAll_cons, others rest]
    congr 1
    cases n with
    | rule selector nodes => simpa [asRules, Node.children, children?] using children
    | declaration | comment => rw [asRules]
    | atRule name params body =>
      rw [isKeywordAtRule] at head
      cases body with
      | none => simp [asRules, head]
      | some nodes => simpa [asRules, head, Node.children, children?] using children

end Node

/-- The style sheet with `Node.asRules` done to every tree in it. -/
def Sheet.asRules (f : Text → Text) (sheet : Sheet) : Sheet :=
  { sheet with nodes := Node.asRulesAll f sheet.nodes }

/-! ## The first walk -/

/-- An at-rule named like a keyword as the rule in its place, and any other node as it is. -/
def Node.normalized (n : Node) : Node := ((Visitor.onAtRules normalizedRule?).visit n {}).1

/-- The record of at-rules made rules after one more node. -/
def Normalized.note (done : Normalized) (n : Node) : Normalized :=
  ((Visitor.onAtRules normalizedRule?).visit n done).2

theorem steady_normalizedRule :
    (Visitor.onAtRules normalizedRule?).Steady Node.normalized Normalized.note where
  visit n done := by
    cases n with
    | rule | declaration | comment => rfl
    | atRule name params body layout source =>
      simp only [Node.normalized, Normalized.note, Visitor.onAtRules, normalizedRule?]
      cases Keyword.ofWord? name <;> rfl
  children n := by
    cases n with
    | rule | declaration | comment => rfl
    | atRule name params body layout source =>
      simp only [Node.normalized, Visitor.onAtRules, normalizedRule?]
      cases Keyword.ofWord? name <;> rfl

theorem mapTrees_normalized (ns : List Node) :
    Node.mapTrees Node.normalized ns = Node.asRulesAll id ns := by
  induction ns using Node.forestInduction with
  | nil => simp
  | cons n ns beneath others =>
    have rebuilt : n.normalized.withChildren (Node.asRulesAll id n.children) = n.asRules id := by
      cases n with
      | rule | declaration | comment =>
        simp only [Node.asRules]
        rfl
      | atRule name params body layout source =>
        simp only [Node.normalized, Visitor.onAtRules, normalizedRule?, Node.asRules_atRule,
          ← isSome_ofWord?]
        cases Keyword.ofWord? name with
        | none => cases body <;> rfl
        | some keyword => cases body <;> rfl
    rw [Node.mapTrees_cons, Node.asRulesAll_cons, beneath, others, rebuilt]

theorem note_count (done : Normalized) (n : Node) :
    (done.note n).count = done.count + (if n.isKeywordAtRule then 1 else 0) := by
  cases n with
  | rule | declaration | comment => rfl
  | atRule name params body layout source =>
    simp only [Normalized.note, Visitor.onAtRules, normalizedRule?, Node.isKeywordAtRule,
      ← isSome_ofWord?]
    cases Keyword.ofWord? name <;> simp

theorem notes_count (ns : List Node) (done : Normalized) :
    (ns.foldl Normalized.note done).count = done.count + ns.countP Node.isKeywordAtRule := by
  induction ns generalizing done with
  | nil => rfl
  | cons n ns ih =>
    rw [List.foldl_cons, ih, note_count, List.countP_cons]
    omega

theorem note_eq_self {n : Node} (h : n.isKeywordAtRule = false) (done : Normalized) :
    done.note n = done := by
  cases n with
  | rule | declaration | comment => rfl
  | atRule name params body layout source =>
    rw [Node.isKeywordAtRule, ← isSome_ofWord?, Option.isSome_eq_false_iff,
      Option.isNone_iff_eq_none] at h
    simp [Normalized.note, Visitor.onAtRules, normalizedRule?, h]

theorem notes_eq_self {ns : List Node} (h : ∀ n ∈ ns, n.isKeywordAtRule = false)
    (done : Normalized) : ns.foldl Normalized.note done = done := by
  induction ns generalizing done with
  | nil => rfl
  | cons n ns ih =>
    obtain ⟨first, others⟩ := List.forall_mem_cons.mp h
    rw [List.foldl_cons, note_eq_self first, ih others]

theorem Sheet.normalize_eq (sheet : Sheet) : sheet.normalize =
    (sheet.asRules id, (Node.preorderAll sheet.nodes).foldl Normalized.note {}) := by
  simp only [Sheet.normalize, Sheet.walk, Visitor.walk_eq steady_normalizedRule,
    mapTrees_normalized, Sheet.asRules]

/-! ## The second walk -/

/-- The record of selectors changed after one more selector. -/
def Expanded.note (delimiters : Delimiters) (done : Expanded) (selector : Text) : Expanded :=
  (expandCounted delimiters selector done).2

/-- The record of selectors changed after one more node. -/
def Expanded.noteNode (delimiters : Delimiters) (done : Expanded) (n : Node) : Expanded :=
  match n.selector? with
  | some selector => done.note delimiters selector
  | none => done

theorem foldl_noteNode (delimiters : Delimiters) (ns : List Node) (done : Expanded) :
    (Node.preorderAll ns).foldl (Expanded.noteNode delimiters) done =
      (Node.selectors ns).foldl (Expanded.note delimiters) done := by
  rw [Node.selectors, List.foldl_filterMap]
  congr 1
  funext done n
  rw [Expanded.noteNode]
  cases n.selector? <;> rfl

/-- A rule with its selector expanded, and any other node as it is. -/
def Node.expanded (delimiters : Delimiters) : Node → Node
  | rule selector nodes layout source => rule (expand delimiters selector) nodes layout source
  | n => n

theorem steady_expandCounted (delimiters : Delimiters) :
    (Visitor.onSelectors (expandCounted delimiters)).Steady (Node.expanded delimiters)
      (Expanded.noteNode delimiters) where
  visit n done := by cases n <;> rfl
  children n := by cases n <;> rfl

theorem mapTrees_expanded (delimiters : Delimiters) (ns : List Node) :
    Node.mapTrees (Node.expanded delimiters) (Node.asRulesAll id ns) =
      Node.asRulesAll (expand delimiters) ns := by
  induction ns using Node.forestInduction with
  | nil => simp
  | cons n ns beneath others =>
    have rebuilt : ((n.asRules id).expanded delimiters).withChildren
        (Node.asRulesAll (expand delimiters) n.children) = n.asRules (expand delimiters) := by
      cases n with
      | rule | declaration | comment =>
        simp only [Node.asRules]
        rfl
      | atRule name params body layout source =>
        simp only [Node.asRules_atRule]
        by_cases keyword : isKeyword name = true
        · simp only [keyword, ↓reduceIte]
          rfl
        · simp only [keyword, Bool.false_eq_true, ↓reduceIte]
          cases body <;> rfl
    rw [Node.asRulesAll_cons, Node.asRulesAll_cons, Node.mapTrees_cons, Node.children_asRules,
      beneath, others, rebuilt]

theorem notes_count_expanded (delimiters : Delimiters) (selectors : List Text) (done : Expanded) :
    (selectors.foldl (Expanded.note delimiters) done).count =
      done.count + selectors.countP fun s => expand delimiters s ≠ s := by
  induction selectors generalizing done with
  | nil => rfl
  | cons s selectors ih =>
    have one : (Expanded.note delimiters done s).count =
        done.count + (if expand delimiters s ≠ s then 1 else 0) := by
      simp only [Expanded.note, expandCounted, expandLogged]
      by_cases h : expand delimiters s = s <;> simp [h]
    rw [List.foldl_cons, ih, one, List.countP_cons]
    simp only [decide_eq_true_eq]
    omega

theorem Sheet.expandSelectors_asRules (delimiters : Delimiters) (sheet : Sheet) :
    (sheet.asRules id).expandSelectors delimiters = (sheet.asRules (expand delimiters),
      (Node.selectors (sheet.asRules id).nodes).foldl (Expanded.note delimiters) {}) := by
  simp only [Sheet.expandSelectors, Sheet.walk, Sheet.asRules,
    Visitor.walk_eq (steady_expandCounted delimiters), mapTrees_expanded, foldl_noteNode]

/-! ## Both walks -/

/-- A style sheet without at-rules named like a keyword is normal already. -/
theorem Sheet.normalize_of_no_keyword {sheet : Sheet}
    (h : ∀ n ∈ Node.preorderAll sheet.nodes, n.isKeywordAtRule = false) :
    sheet.normalize = (sheet, {}) := by
  rw [Sheet.normalize_eq, notes_eq_self h, Sheet.asRules, Node.asRulesAll_id h]

theorem Sheet.transform_sheet (sheet : Sheet) (delimiters : Delimiters) :
    (sheet.transform delimiters).sheet = sheet.asRules (expand delimiters) := by
  simp only [Sheet.transform, Sheet.normalize_eq, Sheet.expandSelectors_asRules]

/-- A transformation is one map over the tree, and its summary counts the at-rules named like a
keyword, at any depth, and the selectors that the map changes once those at-rules are rules. After
normalizing no such at-rule is left, so that normalizing again finds none and changes nothing. -/
theorem Sheet.transform_structure (sheet : Sheet) (delimiters : Delimiters) :
    (sheet.transform delimiters).sheet = sheet.asRules (expand delimiters) ∧
    (sheet.transform delimiters).summary.atRules =
      (Node.preorderAll sheet.nodes).countP Node.isKeywordAtRule ∧
    (sheet.transform delimiters).summary.selectors =
      (Node.selectors (sheet.asRules id).nodes).countP (fun s => expand delimiters s ≠ s) ∧
    sheet.normalize.1 = sheet.asRules id ∧
    (Node.preorderAll sheet.normalize.1.nodes).countP Node.isKeywordAtRule = 0 ∧
    sheet.normalize.1.normalize = (sheet.normalize.1, {}) := by
  have none_left : ∀ n ∈ Node.preorderAll sheet.normalize.1.nodes, n.isKeywordAtRule = false := by
    rw [Sheet.normalize_eq]
    exact Node.asRulesAll_no_keyword id sheet.nodes
  refine ⟨sheet.transform_sheet delimiters, ?_, ?_, ?_, ?_,
    Sheet.normalize_of_no_keyword none_left⟩
  · simp only [Sheet.transform, Sheet.normalize_eq, notes_count]
    exact Nat.zero_add _
  · simp only [Sheet.transform, Sheet.normalize_eq, Sheet.expandSelectors_asRules,
      notes_count_expanded]
    exact Nat.zero_add _
  · rw [Sheet.normalize_eq]
  · rw [List.countP_eq_zero]
    intro n hn
    simp [none_left n hn]

end BemSheet
