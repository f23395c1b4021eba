import BemSheet.Location

/-!
The tree of a style sheet.

A node keeps the text that is not part of its selector, name or value in its `Layout`, so a tree can
be printed without losing a character of what it was read from.
-/

namespace BemSheet

/-- Text around the parts of a node.

* `before` stands in front of the node: white space and stray semicolons.
* `between` stands between the selector, parameters or property and the body or value.
* `afterName` stands between the name of an at-rule and its parameters.
* `after` stands after the last child of a body, or after the value of a declaration.
* `semicolon` tells whether a semicolon ends the statement. -/
structure Layout where
  before : Text := []
  between : Text := []
  afterName : Text := []
  after : Text := []
  semicolon : Bool := false
  deriving DecidableEq, Repr

/-- A rule, an at-rule with or without a body, a declaration, or a comment. `source` is the place of
the node's own text in what it was read from. -/
inductive Node
  | rule (selector : Text) (nodes : List Node) (layout : Layout) (source : Option Location)
  | atRule (name params : Text) (body : Option (List Node)) (layout : Layout)
      (source : Option Location)
  | declaration (property value : Text) (layout : Layout) (source : Option Location)
  | comment (text : Text) (layout : Layout) (source : Option Location)
  deriving Repr

namespace Node

def layout : Node → Layout
  | rule _ _ layout _ => layout
  | atRule _ _ _ layout _ => layout
  | declaration _ _ layout _ => layout
  | comment _ layout _ => layout

/-- Where the node's own text starts in what it was read from. -/
def source : Node → Option Location
  | rule _ _ _ source => source
  | atRule _ _ _ _ source => source
  | declaration _ _ _ source => source
  | comment _ _ source => source

/-- The list of children, for nodes that have one: declarations, comments and at-rules without a
body have none. -/
def children? : Node → Option (List Node)
  | rule _ nodes _ _ => some nodes
  | atRule _ _ body _ _ => body
  | declaration .. | comment .. => none

def children (n : Node) : List Node := n.children?.getD []

/-- A node with other children, if it has a list of them. -/
def withChildren (n : Node) (nodes : List Node) : Node :=
  match n with
  | rule selector _ layout source => rule selector nodes layout source
  | atRule name params (some _) layout source => atRule name params (some nodes) layout source
  | other => other

def mapLayout (f : Layout → Layout) : Node → Node
  | rule selector nodes layout source => rule selector nodes (f layout) source
  | atRule name params body layout source => atRule name params body (f layout) source
  | declaration property value layout source => declaration property value (f layout) source
  | comment text layout source => comment text (f layout) source

mutual

/-- The number of nodes beneath a node. -/
def descendants : Node → Nat
  | rule _ nodes _ _ => count nodes
  | atRule _ _ (some nodes) _ _ => count nodes
  | atRule _ _ none _ _ => 0
  | declaration .. => 0
  | comment .. => 0

/-- The number of nodes in a list of trees. -/
def count : List Node → Nat
  | [] => 0
  | n :: ns => 1 + n.descendants + count ns

end

@[simp] theorem descendants_rule (s : Text) (ns : List Node) (l : Layout) (o : Option Location) :
    (rule s ns l o).descendants = count ns := by rw [descendants]

@[simp] theorem descendants_atRule (n p : Text) (body : Option (List Node)) (l : Layout)
    (o : Option Location) : (atRule n p body l o).descendants = count (body.getD []) := by
  cases body <;> simp [descendants, count]

@[simp] theorem descendants_declaration (p v : Text) (l : Layout) (o : Option Location) :
    (declaration p v l o).descendants = 0 := by rw [descendants]

@[simp] theorem descendants_comment (t : Text) (l : Layout) (o : Option Location) :
    (comment t l o).descendants = 0 := by rw [descendants]

@[simp] theorem count_nil : count [] = 0 := by rw [count]

@[simp] theorem count_cons (n : Node) (ns : List Node) :
    count (n :: ns) = 1 + n.descendants + count ns := by rw [count]

theorem count_children (n : Node) : count n.children = n.descendants := by
  cases n <;> simp [children, children?]

mutual

/-- Whether two trees are equal. -/
def decEq : (a b : Node) → Decidable (a = b)
  | rule s ns l o, rule s' ns' l' o' =>
    match decEqList ns ns' with
    | isTrue h => decidable_of_iff (s = s' ∧ l = l' ∧ o = o') (by simp [h])
    | isFalse h => isFalse (by simp [h])
  | atRule n p (some ns) l o, atRule n' p' (some ns') l' o' =>
    match decEqList ns ns' with
    | isTrue h => decidable_of_iff (n = n' ∧ p = p' ∧ l = l' ∧ o = o') (by simp [h])
    | isFalse h => isFalse (by simp [h])
  | atRule n p none l o, atRule n' p' none l' o' =>
    decidable_of_iff (n = n' ∧ p = p' ∧ l = l' ∧ o = o') (by simp)
  | declaration p v l o, declaration p' v' l' o' =>
    decidable_of_iff (p = p' ∧ v = v' ∧ l = l' ∧ o = o') (by simp)
  | comment t l o, comment t' l' o' =>
    decidable_of_iff (t = t' ∧ l = l' ∧ o = o') (by simp)
  | atRule _ _ none _ _, atRule _ _ (some _) _ _ => isFalse nofun
  | atRule _ _ (some _) _ _, atRule _ _ none _ _ => isFalse nofun
  | rule .., atRule .. | rule .., declaration .. | rule .., comment .. => isFalse nofun
  | atRule .., rule .. | atRule .., declaration .. | atRule .., comment .. => isFalse nofun
  | declaration .., rule .. | declaration .., atRule .. | declaration .., comment .. =>
    isFalse nofun
  | comment .., rule .. | comment .., atRule .. | comment .., declaration .. => isFalse nofun

/-- Whether two lists of trees are equal. -/
def decEqList : (as bs : List Node) → Decidable (as = bs)
  | [], [] => isTrue rfl
  | [], _ :: _ => isFalse nofun
  | _ :: _, [] => isFalse nofun
  | a :: as, b :: bs =>
    match decEq a b, decEqList as bs with
    | isTrue h, isTrue h' => isTrue (by rw [h, h'])
    | isFalse h, _ => isFalse (by simp [h])
    | _, isFalse h => isFalse (by simp [h])

end

instance : DecidableEq Node := decEq

end Node

/-- A style sheet: its top-level nodes, and the text after the last of them. Of a `Layout`, a sheet has
no use for the other fields: nothing stands in front of it, it has no parts to stand between, and no
semicolon ends it. -/
structure Sheet where
  nodes : List Node := []
  after : Text := []
  deriving DecidableEq, Repr

end BemSheet
