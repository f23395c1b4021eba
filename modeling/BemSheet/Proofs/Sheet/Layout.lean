import BemSheet.Proofs.Css.Layout
import BemSheet.Proofs.Sheet.WellFormed
import BemSheet.Sheet.Parser

/-!
Every tree that was read is laid out.

Each kind of node gets the layout that its kind may have, since the statement it is made from is
laid out (`laidOut_ofOutline`).
-/

namespace BemSheet

open Css Text

namespace Node

theorem laidOut_ofRuleHeader {header : Text} {nodes : List Node} {layout : Layout}
    (before : Gap layout.before) (afterName : layout.afterName = []) (after : Gap layout.after)
    (semicolon : layout.semicolon = false) (terminated : Terminated nodes layout.after)
    (start : Location) : (ofRuleHeader header nodes layout start).LaidOut where
  before := before
  between := blank_splitEnd header
  afterName := afterName
  after := after
  semicolon := semicolon
  terminated := terminated

theorem laidOut_ofAtHeader {rest : Text} (apart : startsWith isNameChar rest = false)
    {body : Option (List Node)} {layout : Layout} (before : Gap layout.before)
    (inner : BodyLayout layout body) (name : Text) (start : Location) :
    (ofAtHeader name rest body layout start).LaidOut := by
  obtain ⟨lead, trimmed, blanks, empty⟩ := parts_of_cut rest
  have whole : rest.leading ++ rest.trimStart.splitEnd.1 <+: rest :=
    ⟨rest.trimStart.splitEnd.2, by rw [List.append_assoc, splitEnd_append, leading_append]⟩
  refine ⟨before, trimmed, lead, blanks, empty, startsWith_isPrefix_false whole apart, ?_⟩
  cases body <;> exact inner

theorem laidOut_ofDeclarationText {text : Text} (starts : startsWith isSpace text = false)
    {layout : Layout} (before : Gap layout.before) (afterName : layout.afterName = [])
    {start : Location} {n : Node} (h : ofDeclarationText? text layout start = some n) :
    n.LaidOut := by
  obtain ⟨front, back, no_colon, rfl, rfl⟩ := ofDeclarationText?_eq_some h
  obtain ⟨lead, trimmed, blanks, empty⟩ := parts_of_cut back
  have no_colon : ':' ∉ (splitEnd front).1 := by
    intro hc
    apply no_colon
    rw [← splitEnd_append front]
    exact List.mem_append_left _ hc
  have whole : (splitEnd front).1 ++ ((splitEnd front).2 ++ ':' :: leading back) <+:
      front ++ ':' :: back := by
    refine ⟨trimStart back, ?_⟩
    rw [← List.append_assoc, splitEnd_append, List.append_assoc, List.cons_append, leading_append]
  have between : ((splitEnd front).2 ++ ':' :: leading back).trim = [':'] := by
    have colon : Trimmed [':'] := by decide
    have parts := trim_of_parts (blank_splitEnd front) colon lead (List.cons_ne_nil _ _)
    rwa [List.append_assoc] at parts
  exact ⟨before, no_colon, startsWith_isPrefix_false whole starts, splitEnd_last front, between,
    trimmed, blanks, empty, afterName⟩

theorem laidOut_ofFlat {before : Text} {header : Header} {start : Location} {semicolon : Bool}
    {n : Node} (gap : Gap before) (apart : header.Apart)
    (h : ofFlat before header start semicolon = .ok n) :
    n.LaidOut ∧ n.ended = semicolon ∧ n.children = [] := by
  cases header with
  | keyword name rest =>
    obtain rfl := Except.ok.inj h
    refine ⟨laidOut_ofAtHeader apart gap ?_ name start, rfl, rfl⟩
    exact rfl
  | plain text =>
    have read := ofFlat_plain.mp h
    refine ⟨laidOut_ofDeclarationText apart gap rfl read, ?_⟩
    obtain ⟨front, back, -, -, rfl⟩ := ofDeclarationText?_eq_some read
    exact ⟨rfl, rfl⟩

theorem laidOut_ofNest {before : Text} {header : Header} {nodes : List Node} {after : Text}
    (gap : Gap before) (apart : header.Apart) (inner : Gap after)
    (terminated : Terminated nodes after) (start : Location) :
    (ofNest before header start nodes after).LaidOut ∧
      (ofNest before header start nodes after).ended = true ∧
      (ofNest before header start nodes after).children = nodes := by
  cases header with
  | keyword name rest =>
    refine ⟨laidOut_ofAtHeader apart gap ?_ name start, rfl, rfl⟩
    exact ⟨inner, rfl, terminated⟩
  | plain text => exact ⟨laidOut_ofRuleHeader gap rfl inner rfl terminated start, rfl, rfl⟩

/-- The nodes of a list of statements are laid out, and each ends before the next one starts. -/
theorem laidOut_ofOutline {o : Outline} (laid : o.LaidOut) {nodes : List Node} {after : Text}
    (h : ofOutline o = .ok (nodes, after)) :
    (∀ n ∈ preorderAll nodes, n.LaidOut) ∧ Terminated nodes after ∧ Gap after := by
  induction o generalizing nodes after with
  | done text =>
    obtain ⟨rfl, rfl⟩ := Prod.mk.inj (Except.ok.inj h)
    exact ⟨by simp, trivial, laid⟩
  | comment before body closed start rest ih =>
    obtain ⟨gap, no_end, laid⟩ := laid
    obtain ⟨others, read, rfl⟩ := ofOutline_comment.mp h
    obtain ⟨all, terminated, last⟩ := ih laid read
    refine ⟨?_, ⟨.inl rfl, terminated⟩, last⟩
    rw [preorderAll_cons]
    exact List.forall_mem_cons.mpr ⟨⟨gap, no_end, rfl⟩, all⟩
  | flat before header start semicolon rest ih =>
    obtain ⟨gap, apart, ends, laid⟩ := laid
    obtain ⟨n, others, flat, read, rfl⟩ := ofOutline_flat.mp h
    obtain ⟨first, ended, leaf⟩ := laidOut_ofFlat gap apart flat
    obtain ⟨all, terminated, last⟩ := ih laid read
    refine ⟨?_, ⟨?_, terminated⟩, last⟩
    · rw [preorderAll_cons, leaf]
      exact List.forall_mem_cons.mpr ⟨first, all⟩
    · rw [ended]
      rcases ends with shown | done
      · exact .inl shown
      · subst done
        obtain ⟨rfl, rfl⟩ := Prod.mk.inj (Except.ok.inj read)
        exact .inr ⟨rfl, rfl⟩
  | nest before header start body closed rest inner ih =>
    obtain ⟨gap, apart, within, laid⟩ := laid
    obtain ⟨children, blanks, others, read, read', rfl⟩ := ofOutline_nest.mp h
    obtain ⟨beneath, ended, innerGap⟩ := inner within read
    obtain ⟨all, terminated, last⟩ := ih laid read'
    obtain ⟨first, closed, has⟩ := laidOut_ofNest gap apart innerGap ended start
    refine ⟨?_, ⟨.inl closed, terminated⟩, last⟩
    rw [preorderAll_cons, has]
    exact List.forall_mem_cons.mpr ⟨first, List.forall_mem_append.mpr ⟨beneath, all⟩⟩

end Node

/-- A style sheet that was read is well-formed as far as its layout goes. -/
theorem Sheet.wellFormed_of_parse {css : Text} {sheet : Sheet} (h : Sheet.parse css = .ok sheet)
    (safe : ∀ n ∈ Node.preorderAll sheet.nodes, n.SafeTexts) : sheet.WellFormed := by
  obtain ⟨laid, terminated, gap⟩ :=
    Node.laidOut_ofOutline (laidOut_outline css) (Sheet.parse_eq_ok.mp h)
  exact ⟨laid, safe, terminated, gap⟩

end BemSheet
