import BemSheet.Proofs.Transform.Structure
import BemSheet.Transform.Run
import Mathlib.Data.List.Forall2

/-!
The events of a run, read off the trees.

The walks of a transformation count and report as they go. What they leave behind is a list over the
nodes of the tree, in preorder, of the nodes that are changed (`notes_events`,
`notes_events_expanded`).

* `Reports`: what an event tells of an at-rule.
* `transform_events`: the events are as many as the summary says, and name what two trees differ in.
-/

namespace BemSheet

open Bem

/-- An event that reports an at-rule named like a keyword: the keyword, the selector of the rule in
its place, and the line of the at-rule. -/
inductive Reports : Node → Event → Prop
  | atRule (keyword : Keyword) (params : Text) (body : Option (List Node)) (layout : Layout)
      (source : Option Location) :
      Reports (.atRule keyword.word params body layout source)
        (.normalizedAtRule keyword (keyword.word ++ params) (source.map (·.line)))

/-! ## The events of the first walk -/

/-- The event for a node that is made a rule. -/
def Node.report? : Node → Option Event
  | .atRule name params _ _ source => (Keyword.ofWord? name).map fun keyword =>
    .normalizedAtRule keyword (name ++ params) (source.map (·.line))
  | _ => none

theorem note_events (done : Normalized) (n : Node) :
    (done.note n).events = done.events ++ n.report?.toList := by
  cases n with
  | rule | declaration | comment => exact (List.append_nil _).symm
  | atRule name params body layout source =>
    simp only [Normalized.note, Visitor.onAtRules, normalizedRule?, Node.report?]
    cases Keyword.ofWord? name <;> simp

theorem notes_events (ns : List Node) (done : Normalized) :
    (ns.foldl Normalized.note done).events = done.events ++ ns.filterMap Node.report? := by
  induction ns generalizing done with
  | nil => simp
  | cons n ns ih =>
    rw [List.foldl_cons, ih, note_events, List.append_assoc]
    cases report : n.report? <;> simp [report]

theorem Node.reports_of_report? {n : Node} (h : n.isKeywordAtRule = true) :
    ∃ event, n.report? = some event ∧ Reports n event := by
  cases n with
  | rule | declaration | comment => cases h
  | atRule name params body layout source =>
    rw [isKeywordAtRule, ← isSome_ofWord?, Option.isSome_iff_exists] at h
    obtain ⟨keyword, is⟩ := h
    obtain rfl := Keyword.ofWord?_eq_some is
    exact ⟨_, by rw [report?, is, Option.map_some], .atRule ..⟩

theorem Node.report?_eq_none {n : Node} (h : n.isKeywordAtRule = false) : n.report? = none := by
  cases n with
  | rule | declaration | comment => rfl
  | atRule name params body layout source =>
    rw [isKeywordAtRule, ← isSome_ofWord?, Option.isSome_eq_false_iff,
      Option.isNone_iff_eq_none] at h
    rw [report?, h, Option.map_none]

/-- The at-rules named like a keyword are reported one by one, and no other node is. -/
theorem forall₂_reports (ns : List Node) :
    List.Forall₂ Reports (ns.filter Node.isKeywordAtRule) (ns.filterMap Node.report?) := by
  induction ns with
  | nil => exact .nil
  | cons n ns ih =>
    cases is : n.isKeywordAtRule with
    | false => simpa [is, Node.report?_eq_none is] using ih
    | true =>
      obtain ⟨event, report, reports⟩ := Node.reports_of_report? is
      simpa [is, report] using List.Forall₂.cons reports ih

/-! ## The events of the second walk -/

variable (delimiters : Delimiters)

theorem notes_events_expanded (selectors : List Text) (done : Expanded) :
    (selectors.foldl (Expanded.note delimiters) done).events = done.events ++
      (selectors.filter fun s => expand delimiters s ≠ s).map
        fun s => .rewroteSelector s (expand delimiters s) := by
  induction selectors generalizing done with
  | nil => simp
  | cons s selectors ih =>
    rw [List.foldl_cons, ih]
    simp only [Expanded.note, expandCounted, expandLogged]
    by_cases same : expand delimiters s = s <;> simp [same]

/-- The selectors of two trees that a map leaves from one. -/
theorem Node.selectors_asRulesAll (f : Text → Text) (ns : List Node) :
    selectors (asRulesAll f ns) = (selectors (asRulesAll id ns)).map f := by
  induction ns using forestInduction with
  | nil => simp [selectors]
  | cons n ns beneath others =>
    have own : (n.asRules f).selector? = (n.asRules id).selector?.map f := by
      cases n with
      | rule | declaration | comment => simp [asRules, selector?]
      | atRule name params body layout source =>
        simp only [asRules_atRule]
        split <;> rfl
    simp only [asRulesAll_cons, selectors_cons, children_asRules, own, beneath, others,
      List.map_append]
    cases (n.asRules id).selector? <;> rfl

/-- A list beside its image: the elements that the map changes. -/
theorem filter_zip_map (f : Text → Text) (ss : List Text) :
    ((ss.zip (ss.map f)).filter fun pair => pair.1 ≠ pair.2) =
      (ss.filter fun s => f s ≠ s).map fun s => (s, f s) := by
  induction ss with
  | nil => rfl
  | cons s ss ih =>
    rw [List.map_cons, List.zip_cons_cons, List.filter_cons, List.filter_cons, ih]
    by_cases same : f s = s
    · simp [same]
    · simp [same, Ne.symm same]

/-! ## Runs -/

theorem Text.foldl_utf8Size (s : Text) (n : Nat) :
    s.foldl (fun n c => n + c.utf8Size) n = n + (String.ofList s).utf8ByteSize := by
  induction s generalizing n with
  | nil => simp
  | cons c s ih =>
    rw [List.foldl_cons, ih, String.ofList_cons, String.utf8ByteSize_append,
      String.utf8ByteSize_singleton, Nat.add_assoc]

theorem Text.utf8Size_eq (s : Text) : s.utf8Size = (String.ofList s).utf8ByteSize := by
  rw [utf8Size, foldl_utf8Size, Nat.zero_add]

theorem message_of_reports {ns : List Node} {events : List Event}
    (h : List.Forall₂ Reports ns events) :
    events.map Event.message = List.replicate ns.length "normalized BEM at-rule" := by
  induction h with
  | nil => rfl
  | cons first _ ih =>
    cases first
    rw [List.map_cons, ih]
    rfl

/-- The selectors of the normalized tree that expanding changes. -/
def Sheet.changed (sheet : Sheet) : List Text :=
  (Node.selectors sheet.normalize.1.nodes).filter fun s => expand delimiters s ≠ s

theorem Sheet.transform_summary (sheet : Sheet) : (sheet.transform delimiters).summary =
    ⟨((Node.preorderAll sheet.nodes).filter Node.isKeywordAtRule).length,
      (sheet.changed delimiters).length⟩ := by
  simp only [Sheet.transform, Sheet.changed, Sheet.normalize_eq, Sheet.expandSelectors_asRules,
    notes_count, notes_count_expanded, List.countP_eq_length_filter, Nat.zero_add]

theorem Sheet.transform_events_eq (sheet : Sheet) : (sheet.transform delimiters).events =
    (Node.preorderAll sheet.nodes).filterMap Node.report? ++
      (sheet.changed delimiters).map (fun s => .rewroteSelector s (expand delimiters s)) ++
      [.appliedTransform (sheet.transform delimiters).summary] := by
  simp only [Sheet.transform, Sheet.changed, Sheet.normalize_eq, Sheet.expandSelectors_asRules,
    notes_events, notes_events_expanded, List.nil_append]

/-- The events of a transformation are as many of each kind as its summary says, which comes last.
The first of them report the at-rules named like a keyword, one by one, and the others the selectors
that differ between the normalized tree and the transformed one, which have as many. A run reports
the sheet that it has read before all of these, and nothing if the text is refused. -/
theorem transform_events (delimiters : Delimiters) :
    (∀ sheet : Sheet, ∃ normalized rewritten,
      (sheet.transform delimiters).events =
        normalized ++ rewritten ++ [.appliedTransform (sheet.transform delimiters).summary] ∧
      (sheet.transform delimiters).events.map Event.message =
        List.replicate (sheet.transform delimiters).summary.atRules "normalized BEM at-rule" ++
          List.replicate (sheet.transform delimiters).summary.selectors "rewrote selector" ++
          ["applied BEM transform"] ∧
      List.Forall₂ Reports ((Node.preorderAll sheet.nodes).filter Node.isKeywordAtRule)
        normalized ∧
      Node.selectors (sheet.transform delimiters).sheet.nodes =
        (Node.selectors sheet.normalize.1.nodes).map (expand delimiters) ∧
      rewritten = (((Node.selectors sheet.normalize.1.nodes).zip
        (Node.selectors (sheet.transform delimiters).sheet.nodes)).filter
          fun pair => pair.1 ≠ pair.2).map fun pair => .rewroteSelector pair.1 pair.2) ∧
    ∀ css, (run delimiters css).events = match Sheet.parse css with
      | .ok sheet => .parsedSheet sheet.nodes.length (String.ofList css).utf8ByteSize ::
        (sheet.transform delimiters).events
      | .error _ => [] := by
  constructor
  · intro sheet
    have reports := forall₂_reports (Node.preorderAll sheet.nodes)
    have changed : Node.selectors (sheet.transform delimiters).sheet.nodes =
        (Node.selectors sheet.normalize.1.nodes).map (expand delimiters) := by
      rw [sheet.transform_sheet, sheet.normalize_eq]
      exact Node.selectors_asRulesAll (expand delimiters) sheet.nodes
    have rewritten := filter_zip_map (expand delimiters) (Node.selectors sheet.normalize.1.nodes)
    rw [← changed] at rewritten
    refine ⟨(Node.preorderAll sheet.nodes).filterMap Node.report?, _, ?_, ?_, reports, changed, rfl⟩
    · rw [rewritten, List.map_map]
      exact sheet.transform_events_eq delimiters
    · rw [sheet.transform_events_eq, sheet.transform_summary, List.map_append, List.map_append,
        message_of_reports reports, List.map_map]
      simp [Function.comp_def, Event.message]
  · intro css
    unfold run parseLogged
    cases Sheet.parse css with
    | ok sheet => simp [Text.utf8Size_eq]
    | error e => rfl

end BemSheet
