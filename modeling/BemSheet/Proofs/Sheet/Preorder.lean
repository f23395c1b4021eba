import BemSheet.Sheet.Node

/-!
Trees as lists of their nodes.

* `Node.preorderAll` lists every node of a list of trees, so that what holds at every depth can be
  said of the members of one list.
* `Node.forestInduction` goes through a list of trees by the children of the first tree and by the
  trees after it, which is how every pass over a tree recurs.
-/

namespace BemSheet.Node

mutual

/-- A node and all nodes beneath it, parents before children. -/
def preorder : Node → List Node
  | rule selector nodes layout source => rule selector nodes layout source :: preorderAll nodes
  | atRule name params (some nodes) layout source =>
    atRule name params (some nodes) layout source :: preorderAll nodes
  | atRule name params none layout source => [atRule name params none layout source]
  | declaration property value layout source => [declaration property value layout source]
  | comment text layout source => [comment text layout source]

/-- Every node of a list of trees, parents before children. -/
def preorderAll : List Node → List Node
  | [] => []
  | n :: ns => n.preorder ++ preorderAll ns

end

@[simp] theorem preorderAll_nil : preorderAll [] = [] := by rw [preorderAll]

@[simp] theorem preorderAll_cons (n : Node) (ns : List Node) :
    preorderAll (n :: ns) = n :: (preorderAll n.children ++ preorderAll ns) := by
  rw [preorderAll]
  cases n with
  | rule | declaration | comment => simp [preorder, children, children?]
  | atRule name params body layout source =>
    cases body <;> simp [preorder, children, children?]

theorem countP_preorderAll_cons (p : Node → Bool) (n : Node) (ns : List Node) :
    (preorderAll (n :: ns)).countP p = (if p n then 1 else 0) +
      (preorderAll n.children).countP p + (preorderAll ns).countP p := by
  rw [preorderAll_cons, List.countP_cons, List.countP_append]
  omega

@[elab_as_elim]
theorem forestInduction {P : List Node → Prop} (nil : P [])
    (cons : ∀ n ns, P n.children → P ns → P (n :: ns)) (ns : List Node) : P ns :=
  match ns with
  | [] => nil
  | n :: ns => cons n ns (forestInduction nil cons n.children) (forestInduction nil cons ns)
termination_by count ns
decreasing_by
  · rw [count_cons, count_children]
    omega
  · rw [count_cons]
    omega

end BemSheet.Node
