import BemSheet.Proofs.Sheet.Preorder
import BemSheet.Sheet.Edit
import BemSheet.Sheet.Walk

/-!
The visits of a walk.

A walk goes on into what a visit leaves behind, so it need not end. What comes of a walk is
therefore told apart from the function that walks, for visits without any bound: each visit in its
order, and the tree that is left.

* `Node.get?_paths`: the places of a tree are the paths to its nodes, in preorder.
* `Walks.unique`: a walk has one outcome at most, and it has none where every visit leaves children
  (`Walks.eq_nil_of_children`).
* `Walks.preorder`: the nodes that the visits leave are the nodes of the new tree in preorder.
* `Walks.comesFrom`: by its path in the new tree, each visit is given a tree of the list that is
  walked, or a child of what an earlier visit left in the place of its parent.
* `exists_walks`: a walk ends, if no visit that it comes to leaves more nodes beneath its node than
  it found.
* `Walks.congr`, `Visitor.walks`: a walk depends only on the visits that it comes to, so a visitor
  that follows them gives its outcome.
* `Sheet.walk_visits`: so the walk of a style sheet visits every place of the new tree once, parents
  before children, and nothing besides.
-/

namespace BemSheet

namespace Node

/-! ## The paths of a tree -/

/-- The paths to the nodes of a list of trees, parents before children, where the first tree has the
index `start`. -/
def pathsFrom (start : Nat) : List Node → List (List Nat)
  | [] => []
  | n :: ns =>
    [start] :: ((pathsFrom 0 n.children).map (start :: ·) ++ pathsFrom (start + 1) ns)
termination_by nodes => count nodes
decreasing_by
  · rw [count_cons, count_children]
    omega
  · rw [count_cons]
    omega

@[simp] theorem pathsFrom_nil (start : Nat) : pathsFrom start [] = [] := by rw [pathsFrom]

@[simp] theorem pathsFrom_cons (start : Nat) (n : Node) (ns : List Node) :
    pathsFrom start (n :: ns) =
      [start] :: ((pathsFrom 0 n.children).map (start :: ·) ++ pathsFrom (start + 1) ns) := by
  rw [pathsFrom]

theorem length_pathsFrom (start : Nat) (ns : List Node) :
    (pathsFrom start ns).length = count ns := by
  induction ns using forestInduction generalizing start with
  | nil => simp
  | cons n ns beneath others => simp [beneath, others, count_children]; omega

theorem ne_nil_of_mem_pathsFrom {start : Nat} {ns : List Node} :
    ∀ path ∈ pathsFrom start ns, path ≠ [] := by
  induction ns using forestInduction generalizing start with
  | nil => simp
  | cons n ns beneath others =>
    rw [pathsFrom_cons]
    refine List.forall_mem_cons.mpr ⟨List.cons_ne_nil _ _, ?_⟩
    refine List.forall_mem_append.mpr ⟨?_, others⟩
    exact List.forall_mem_map.mpr fun _ _ => List.cons_ne_nil _ _

theorem get?_cons {path : List Nat} (h : path ≠ []) (i : Nat) (ns : List Node) :
    get? (i :: path) ns = ns[i]?.bind fun n => get? path n.children := by
  cases path with
  | nil => exact absurd rfl h
  | cons j path => rw [get?]

theorem get?_pathsFrom (front ns : List Node) :
    (pathsFrom front.length ns).map (get? · (front ++ ns)) = (preorderAll ns).map some := by
  induction ns using forestInduction generalizing front with
  | nil => simp
  | cons n ns beneath others =>
    have here : (front ++ n :: ns)[front.length]? = some n := by simp
    have inner : (pathsFrom 0 n.children).map (fun path => get? (front.length :: path)
        (front ++ n :: ns)) = (preorderAll n.children).map some := by
      rw [← beneath []]
      apply List.map_congr_left
      intro path mem
      rw [get?_cons (ne_nil_of_mem_pathsFrom path mem), here]
      rfl
    have behind : (pathsFrom (front.length + 1) ns).map (get? · (front ++ n :: ns)) =
        (preorderAll ns).map some := by
      simpa using others (front ++ [n])
    simp [get?, inner, behind, Function.comp_def]

/-- The paths to the nodes of a list of trees, parents before children. -/
def paths (ns : List Node) : List (List Nat) := pathsFrom 0 ns

/-- The paths of a tree lead to its nodes. -/
theorem get?_paths (ns : List Node) : (paths ns).map (get? · ns) = (preorderAll ns).map some :=
  get?_pathsFrom [] ns

theorem length_preorderAll (ns : List Node) : (preorderAll ns).length = count ns := by
  have lengths := congrArg List.length (get?_paths ns)
  rw [List.length_map, List.length_map] at lengths
  exact lengths.symm.trans (length_pathsFrom 0 ns)

end Node

/-! ## What comes of a walk -/

/-- A visit: the node that was given, and the node that was left in its place. -/
structure Visit where
  given : Node
  left : Node

variable {σ : Type}

/-- What a walk over a list of trees comes to, where it ends: its visits in their order, the trees that
it leaves, and the state after the last visit. The first tree is visited, then the children that
this visit left, and then the other trees. -/
inductive Walks (visit : Node → σ → Node × σ) :
    List Node → σ → List Visit → List Node → σ → Prop
  | nil {s : σ} : Walks visit [] s [] [] s
  | cons {n : Node} {ns children others : List Node} {s s₁ s₂ : σ} {inner later : List Visit}
      (beneath : Walks visit (visit n s).1.children (visit n s).2 inner children s₁)
      (behind : Walks visit ns s₁ later others s₂) :
      Walks visit (n :: ns) s (⟨n, (visit n s).1⟩ :: (inner ++ later))
        ((visit n s).1.withChildren children :: others) s₂

namespace Node

/-- A node without its children, if it has a list of them. -/
def childless (n : Node) : Node := n.withChildren []

@[simp] theorem childless_withChildren (n : Node) (ns : List Node) :
    (n.withChildren ns).childless = n.childless := by
  cases n with
  | rule | declaration | comment => rfl
  | atRule name params body layout source => cases body <;> rfl

/-- A node without a list of children gets none. -/
theorem children_withChildren {n : Node} {ns : List Node} (h : n.children = [] → ns = []) :
    (n.withChildren ns).children = ns := by
  cases n with
  | rule => rfl
  | declaration | comment => exact (h rfl).symm
  | atRule name params body layout source =>
    cases body with
    | none => exact (h rfl).symm
    | some nodes => rfl

end Node

namespace Walks

variable {visit : Node → σ → Node × σ} {ns ns' : List Node} {s s' : σ} {visits : List Visit}

/-- A walk has one outcome at most. -/
theorem unique (h : Walks visit ns s visits ns' s') {visits₁ : List Visit} {ns₁ : List Node} {s₁ : σ}
    (h₁ : Walks visit ns s visits₁ ns₁ s₁) : visits₁ = visits ∧ ns₁ = ns' ∧ s₁ = s' := by
  induction h generalizing visits₁ ns₁ s₁ with
  | nil =>
    cases h₁
    exact ⟨rfl, rfl, rfl⟩
  | cons _ _ beneath behind =>
    cases h₁ with
    | cons beneath₁ behind₁ =>
      obtain ⟨rfl, rfl, rfl⟩ := beneath beneath₁
      obtain ⟨rfl, rfl, rfl⟩ := behind behind₁
      exact ⟨rfl, rfl, rfl⟩

/-- A walk in which every visit leaves children does not end, whatever it starts with. -/
theorem eq_nil_of_children (h : Walks visit ns s visits ns' s')
    (grows : ∀ n s, (visit n s).1.children ≠ []) : ns = [] := by
  induction h with
  | nil => rfl
  | cons _ _ beneath _ => exact absurd beneath (grows _ _)

theorem length_trees (h : Walks visit ns s visits ns' s') : ns'.length = ns.length := by
  induction h with
  | nil => rfl
  | cons _ _ _ behind => simp [behind]

theorem children_left {m : Node} (h : Walks visit m.children s visits ns' s') :
    (m.withChildren ns').children = ns' := by
  apply Node.children_withChildren
  intro empty
  exact List.eq_nil_of_length_eq_zero (h.length_trees.trans (by rw [empty]; rfl))

/-- The visits leave the nodes of the new tree in preorder, apart from their children. -/
theorem preorder (h : Walks visit ns s visits ns' s') :
    (Node.preorderAll ns').map Node.childless = visits.map (·.left.childless) := by
  induction h with
  | nil => rfl
  | cons inner _ beneath behind => simp [inner.children_left, beneath, behind]

theorem length_visits (h : Walks visit ns s visits ns' s') : visits.length = Node.count ns' := by
  have lengths := congrArg List.length h.preorder
  rw [List.length_map, List.length_map] at lengths
  exact lengths.symm.trans (Node.length_preorderAll ns')

end Walks

/-! ## Where a visited node comes from -/

/-- What a visit is given at a path, after the visits of `before`: a tree of the list that is walked,
or a child of what an earlier visit left in the place of its parent. -/
def Visit.ComesFrom (start : Nat) (ns : List Node) (before : List (List Nat × Visit))
    (path : List Nat) (v : Visit) : Prop :=
  (∃ k, path = [start + k] ∧ ns[k]? = some v.given) ∨
    ∃ parent ∈ before, ∃ k, path = parent.1 ++ [k] ∧ parent.2.left.children[k]? = some v.given

namespace Visit.ComesFrom

variable {v : Visit} {start : Nat} {ns : List Node} {before before' : List (List Nat × Visit)}
  {path : List Nat}

/-- A tree further on in the list is still one of the list. -/
theorem later (h : v.ComesFrom (start + 1) ns before path) (n : Node)
    (mem : ∀ entry ∈ before, entry ∈ before') : v.ComesFrom start (n :: ns) before' path := by
  rcases h with ⟨k, rfl, given⟩ | ⟨parent, visited, own⟩
  · exact .inl ⟨k + 1, by rw [Nat.add_assoc, Nat.add_comm 1], given⟩
  · exact .inr ⟨parent, mem parent visited, own⟩

/-- Beneath a node that was visited, the list that is walked are the children that were left. -/
theorem inner {parent : Visit} (h : v.ComesFrom 0 parent.left.children before path)
    (visited : ([start], parent) ∈ before')
    (mem : ∀ entry ∈ before, (start :: entry.1, entry.2) ∈ before') (ns : List Node) :
    v.ComesFrom start ns before' (start :: path) := by
  rcases h with ⟨k, rfl, given⟩ | ⟨entry, known, k, rfl, given⟩
  · exact .inr ⟨_, visited, k, by rw [Nat.zero_add]; rfl, given⟩
  · exact .inr ⟨_, mem entry known, k, rfl, given⟩

end Visit.ComesFrom

/-- A member of two lists in a row is one of the first or one of the second. -/
theorem split_append {α : Type} {a b before behind : List α} {x : α}
    (h : a ++ b = before ++ x :: behind) :
    (∃ back, a = before ++ x :: back) ∨ ∃ front, before = a ++ front ∧ b = front ++ x :: behind := by
  rcases List.append_eq_append_iff.mp h with ⟨front, own, rest⟩ | ⟨back, own, rest⟩
  · exact .inr ⟨front, own, rest⟩
  · cases back with
    | nil => exact .inr ⟨[], by simpa using own.symm, rest.symm⟩
    | cons y back =>
      obtain ⟨rfl, -⟩ := List.cons.inj rest
      exact .inl ⟨back, own⟩

namespace Walks

variable {visit : Node → σ → Node × σ} {ns ns' : List Node} {s s' : σ} {visits : List Visit}

/-- Each visit is given a tree of the list, or a child of what an earlier visit left. -/
theorem comesFrom (h : Walks visit ns s visits ns' s') (start : Nat) :
    ∀ before path v behind,
      (Node.pathsFrom start ns').zip visits = before ++ (path, v) :: behind →
      v.ComesFrom start ns before path := by
  induction h generalizing start with
  | nil =>
    intro before path v behind whole
    simp at whole
  | @cons n ns children others _ _ _ first later inner _ beneath behind =>
    have lengths : ((Node.pathsFrom 0 children).map (start :: ·)).length = first.length := by
      rw [List.length_map, Node.length_pathsFrom, inner.length_visits]
    intro before path v back whole
    -- The visit is the first one, one beneath it, or one of the trees after it.
    rw [Node.pathsFrom_cons, inner.children_left, List.zip_cons_cons, List.zip_append lengths,
      List.zip_map_left] at whole
    cases before with
    | nil =>
      obtain ⟨own, -⟩ := List.cons.inj whole
      obtain ⟨rfl, rfl⟩ := Prod.mk.inj own
      exact .inl ⟨0, rfl, rfl⟩
    | cons entry before =>
      obtain ⟨rfl, tail⟩ := List.cons.inj whole
      rcases split_append tail with ⟨back, inside⟩ | ⟨front, rfl, after⟩
      · obtain ⟨known, others, zipped, rfl, rest⟩ := List.map_eq_append_iff.mp inside
        obtain ⟨⟨path', v'⟩, others, rfl, own, rfl⟩ := List.map_eq_cons_iff.mp rest
        obtain ⟨rfl, rfl⟩ := Prod.mk.inj own
        refine (beneath 0 known path' v' others zipped).inner List.mem_cons_self ?_ _
        intro entry mem
        exact List.mem_cons_of_mem _ (List.mem_map_of_mem mem)
      · refine (behind (start + 1) front path v back after).later n ?_
        intro entry mem
        exact List.mem_cons_of_mem _ (List.mem_append_right _ mem)

end Walks

/-! ## Walks that end -/

/-- A walk over `ns` from the state `s` comes to visit `n'` in the state `s'`: as the first node, among
the children that the first visit leaves, or behind these, once the walk over them has ended. -/
inductive ComesTo (visit : Node → σ → Node × σ) : List Node → σ → Node → σ → Prop
  | here {n : Node} {ns : List Node} {s : σ} : ComesTo visit (n :: ns) s n s
  | beneath {n n' : Node} {ns : List Node} {s s' : σ}
      (h : ComesTo visit (visit n s).1.children (visit n s).2 n' s') :
      ComesTo visit (n :: ns) s n' s'
  | behind {n n' : Node} {ns children : List Node} {s s₁ s' : σ} {inner : List Visit}
      (ended : Walks visit (visit n s).1.children (visit n s).2 inner children s₁)
      (h : ComesTo visit ns s₁ n' s') : ComesTo visit (n :: ns) s n' s'

/-- A walk ends, if no visit that it comes to leaves more nodes beneath its node than it found. -/
theorem exists_walks {visit : Node → σ → Node × σ} {ns : List Node} {s : σ}
    (bounded : ∀ n s', ComesTo visit ns s n s' →
      Node.count (visit n s').1.children ≤ Node.count n.children) :
    ∃ visits ns' s', Walks visit ns s visits ns' s' := by
  match ns with
  | [] => exact ⟨[], [], s, .nil⟩
  | n :: ns =>
    have fewer := bounded n s .here
    obtain ⟨inner, children, s₁, beneath⟩ := exists_walks fun n' s' h => bounded n' s' (.beneath h)
    obtain ⟨later, others, s₂, behind⟩ :=
      exists_walks fun n' s' h => bounded n' s' (.behind beneath h)
    exact ⟨_, _, _, .cons beneath behind⟩
termination_by Node.count ns
decreasing_by
  · rw [Node.count_children n] at fewer
    rw [Node.count_cons]
    omega
  · rw [Node.count_cons]
    omega

/-- A walk does not depend on visits that it does not come to. -/
theorem Walks.congr {visit visit' : Node → σ → Node × σ} {ns ns' : List Node} {s s' : σ}
    {visits : List Visit} (h : Walks visit ns s visits ns' s')
    (same : ∀ n s₁, ComesTo visit ns s n s₁ → visit' n s₁ = visit n s₁) :
    Walks visit' ns s visits ns' s' := by
  induction h with
  | nil => exact .nil
  | @cons n ns children others s _ _ inner later ended _ beneath behind =>
    have here := same n s .here
    have first := beneath fun n' s' comes => same n' s' (.beneath comes)
    have second := behind fun n' s' comes => same n' s' (.behind ended comes)
    rw [← here] at first ⊢
    exact .cons first second

/-- A visitor that does what `visit` does wherever the walk over `ns` comes to. -/
def Visitor.Follows (v : Visitor σ) (visit : Node → σ → Node × σ) (ns : List Node) (s : σ) : Prop :=
  ∀ n s', ComesTo visit ns s n s' → v.visit n s' = visit n s'

/-- The visitor that leaves a node as it is where `visit` would leave more nodes beneath it. -/
def Visitor.restrained (visit : Node → σ → Node × σ) : Visitor σ where
  visit n s :=
    if Node.count (visit n s).1.children ≤ Node.count n.children then visit n s else (n, s)
  descendants_le n s := by
    rw [← Node.count_children, ← Node.count_children]
    split
    next fewer => exact fewer
    next => exact Nat.le_refl _

theorem Visitor.restrained_follows {visit : Node → σ → Node × σ} {ns : List Node} {s : σ}
    (bounded : ∀ n s', ComesTo visit ns s n s' →
      Node.count (visit n s').1.children ≤ Node.count n.children) :
    (restrained visit).Follows visit ns s :=
  fun n s' comes => if_pos (bounded n s' comes)

/-- The walk of a visitor ends with what the function gives. -/
theorem Visitor.walks (v : Visitor σ) (ns : List Node) (s : σ) :
    ∃ visits, Walks v.visit ns s visits (v.walk ns s).1 (v.walk ns s).2 := by
  induction ns, s using Visitor.walk.induct v with
  | case1 s =>
    rw [Visitor.walk]
    exact ⟨[], .nil⟩
  | case2 n ns s visited inner beneath _ behind =>
    obtain ⟨first, beneath⟩ := beneath
    obtain ⟨later, behind⟩ := behind
    rw [Visitor.walk]
    exact ⟨_, .cons beneath behind⟩

/-- Whatever a visit makes of its node, a walk over a style sheet ends in one way, if no visit that it
comes to leaves more nodes beneath its node than it found. That is what the function gives, with any
visitor that follows these visits, and the text after the last node stays. There is one visit for
each node of the new tree: the nodes in preorder are what the visits left, apart from their children.
By the path of that node, a visit is given the node of the old sheet there, or the child that an
earlier visit left there. -/
theorem Sheet.walk_visits (sheet : Sheet) (visit : Node → σ → Node × σ) (s : σ)
    (bounded : ∀ n s', ComesTo visit sheet.nodes s n s' →
      Node.count (visit n s').1.children ≤ Node.count n.children) :
    ∃ visits nodes s',
      (∀ visits₁ nodes₁ s₁, Walks visit sheet.nodes s visits₁ nodes₁ s₁ ↔
        visits₁ = visits ∧ nodes₁ = nodes ∧ s₁ = s') ∧
      (∃ v : Visitor σ, v.Follows visit sheet.nodes s) ∧
      (∀ v : Visitor σ, v.Follows visit sheet.nodes s →
        sheet.walk v s = (⟨nodes, sheet.after⟩, s')) ∧
      visits.length = Node.count nodes ∧
      (Node.preorderAll nodes).map Node.childless = visits.map (·.left.childless) ∧
      ∀ before path made behind, (Node.paths nodes).zip visits = before ++ (path, made) :: behind →
        (∃ k, path = [k] ∧ sheet.nodes[k]? = some made.given) ∨
          ∃ parent ∈ before, ∃ k, path = parent.1 ++ [k] ∧
            parent.2.left.children[k]? = some made.given := by
  obtain ⟨visits, nodes, s', h⟩ := exists_walks bounded
  have follower := Visitor.restrained_follows bounded
  refine ⟨visits, nodes, s', ?_, ⟨_, follower⟩, ?_, h.length_visits, h.preorder, ?_⟩
  · intro visits₁ nodes₁ s₁
    constructor
    · exact fun other => h.unique other
    · rintro ⟨rfl, rfl, rfl⟩
      exact h
  · intro v follows
    obtain ⟨visits₁, own⟩ := v.walks sheet.nodes s
    obtain ⟨-, rfl, rfl⟩ := (h.congr follows).unique own
    rfl
  · intro before path made behind whole
    have own := h.comesFrom 0 before path made behind whole
    simpa only [Visit.ComesFrom, Nat.zero_add] using own

/-- A fourth visit would leave more nodes than it found, but three visits are all there are: the
at-rule gives way to a rule, which is gone into. -/
theorem Sheet.walk_visits_three :
    let visit : Node → Nat → Node × Nat := fun n s =>
      if s < 3 then (.rule ['r'] n.children {} none, s + 1) else (.rule [] [n, n] {} none, s)
    let sheet : Sheet :=
      ⟨[.atRule ['m'] [] (some [.rule ['b'] [] {} none]) {} none, .comment [] {} none], ['\n']⟩
    (∀ n s', ComesTo visit sheet.nodes 0 n s' →
      Node.count (visit n s').1.children ≤ Node.count n.children) ∧
    ∃ visits, Walks visit sheet.nodes 0 visits
        [.rule ['r'] [.rule ['r'] [] {} none] {} none, .rule ['r'] [] {} none] 3 ∧
      visits.length = 3 := by
  intro visit sheet
  have bounded : ∀ n s', ComesTo visit sheet.nodes 0 n s' →
      Node.count (visit n s').1.children ≤ Node.count n.children := by
    intro n s' comes
    cases comes with
    | here => exact Nat.le_refl _
    | beneath comes =>
      cases comes with
      | here => exact Nat.le_refl _
      | beneath comes => cases comes
      | behind _ comes => cases comes
    | behind ended comes =>
      cases ended with
      | cons ended ended' =>
        cases ended
        cases ended'
        cases comes with
        | here => exact Nat.le_refl _
        | beneath comes => cases comes
        | behind _ comes => cases comes
  refine ⟨bounded, ?_⟩
  obtain ⟨visits, nodes, s', outcome, -, -, length, -⟩ := Sheet.walk_visits sheet visit 0 bounded
  obtain ⟨rfl, rfl, rfl⟩ := (outcome _ _ _).mp (.cons (.cons .nil .nil) (.cons .nil .nil))
  exact ⟨_, (outcome _ _ _).mpr ⟨rfl, rfl, rfl⟩, length⟩

end BemSheet
