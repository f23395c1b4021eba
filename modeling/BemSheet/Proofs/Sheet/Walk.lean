import BemSheet.Proofs.Sheet.Preorder
import BemSheet.Sheet.Walk

/-!
Walks that change nodes without regard to the state.

Such a walk is a map over the trees, and its state goes over their nodes in preorder (`walk_eq`).
What one visit does is all that is left to show of it (`Visitor.Steady`).
-/

namespace BemSheet

namespace Node

/-- Lists of trees with `f` done to every node, parents before children. -/
def mapTrees (f : Node → Node) : List Node → List Node
  | [] => []
  | n :: ns => (f n).withChildren (mapTrees f n.children) :: mapTrees f ns
termination_by nodes => count nodes
decreasing_by
  · rw [count_cons, count_children]
    omega
  · rw [count_cons]
    omega

@[simp] theorem mapTrees_nil (f : Node → Node) : mapTrees f [] = [] := by rw [mapTrees]

@[simp] theorem mapTrees_cons (f : Node → Node) (n : Node) (ns : List Node) :
    mapTrees f (n :: ns) = (f n).withChildren (mapTrees f n.children) :: mapTrees f ns := by
  rw [mapTrees]

end Node

namespace Visitor

variable {σ : Type}

/-- A visitor that leaves `f n` in the place of `n` in every state, with the children of `n`, and
takes note of `n` in its state. -/
structure Steady (v : Visitor σ) (f : Node → Node) (note : σ → Node → σ) : Prop where
  visit : ∀ n s, v.visit n s = (f n, note s n)
  children : ∀ n, (f n).children = n.children

theorem walk_eq {v : Visitor σ} {f : Node → Node} {note : σ → Node → σ} (h : v.Steady f note)
    (ns : List Node) (s : σ) :
    v.walk ns s = (Node.mapTrees f ns, (Node.preorderAll ns).foldl note s) := by
  induction ns using Node.forestInduction generalizing s with
  | nil =>
    rw [walk]
    simp
  | cons n ns beneath others =>
    rw [walk]
    simp only [h.visit, h.children, beneath, others]
    simp

end Visitor

end BemSheet
