import BemSheet.Sheet.Node

/-!
Walking a tree, parents before children.

A visitor may replace the node it is given, and the walk goes on into the children of the
replacement. A visitor leaves no more nodes beneath a node than it found there, so every walk ends.
-/

namespace BemSheet

/-- What to do at each node, with a state that is handed from visit to visit. -/
structure Visitor (σ : Type) where
  visit : Node → σ → Node × σ
  descendants_le (n : Node) (s : σ) : (visit n s).1.descendants ≤ n.descendants

namespace Visitor

variable {σ : Type}

/-- Visit every node of a list of trees. -/
def walk (v : Visitor σ) : List Node → σ → List Node × σ
  | [], s => ([], s)
  | n :: ns, s =>
    let visited := v.visit n s
    let inner := v.walk visited.1.children visited.2
    let others := v.walk ns inner.2
    (visited.1.withChildren inner.1 :: others.1, others.2)
termination_by nodes => Node.count nodes
decreasing_by
  · have := v.descendants_le n s
    rw [Node.count_cons, Node.count_children]
    omega
  · rw [Node.count_cons]
    omega

/-- Look at every node and change none. -/
def looking (look : Node → σ → σ) : Visitor σ where
  visit n s := (n, look n s)
  descendants_le _ _ := Nat.le_refl _

/-- Change the selector of every rule. -/
def onSelectors (change : Text → σ → Text × σ) : Visitor σ where
  visit
    | .rule selector nodes layout source, s =>
      let (selector, s) := change selector s
      (.rule selector nodes layout source, s)
    | n, s => (n, s)
  descendants_le n s := by cases n <;> simp

/-- Turn each at-rule into the rule that `replace` gives for it, if any. The children stay, and an
at-rule without a body becomes a rule with none. -/
def onAtRules
    (replace : (name params : Text) → Layout → Option Location → σ →
      Option (Text × Layout × Option Location × σ)) : Visitor σ where
  visit
    | .atRule name params body layout source, s =>
      match replace name params layout source s with
      | some (selector, layout, source, s) => (.rule selector (body.getD []) layout source, s)
      | none => (.atRule name params body layout source, s)
    | n, s => (n, s)
  descendants_le n s := by
    cases n with
    | atRule name params body layout source =>
      dsimp only
      cases replace name params layout source s <;> simp
    | rule | declaration | comment => simp

end Visitor

namespace Sheet

variable {σ : Type}

/-- Visit every node of a style sheet. -/
def walk (sheet : Sheet) (v : Visitor σ) (s : σ) : Sheet × σ :=
  let (nodes, s) := v.walk sheet.nodes s
  ({ sheet with nodes }, s)

/-- Every node at the time of its visit. -/
def visited (sheet : Sheet) : List Node :=
  (sheet.walk (.looking fun n seen => seen ++ [n]) []).2

/-- Change the selector of every rule at every depth. -/
def mapSelectors (sheet : Sheet) (f : Text → Text) : Sheet :=
  (sheet.walk (.onSelectors fun selector () => (f selector, ())) ()).1

/-- Turn every at-rule into a bare rule with the name for a selector; also gives the names in the
order in which they were met. -/
def bareRules (sheet : Sheet) : Sheet × List Text :=
  sheet.walk (.onAtRules fun name _ _ _ names => some (name, {}, none, names ++ [name])) []

end Sheet

end BemSheet
