import BemSheet.Proofs.Bem.Expansion
import BemSheet.Proofs.Sheet.Layout
import BemSheet.Proofs.Sheet.RoundTrip
import BemSheet.Proofs.Transform.Structure
import BemSheet.Transform.Run

/-!
The text of a transformed style sheet has the transformed structure.

* `safeSelector_expand`: an expanded selector heads a rule as the selector did, if no address comes
  up in it.
* `Sheet.WellFormed.asRules`: at-rules that become rules and selectors that are expanded leave a
  well-formed tree, so that its text is read back.
-/

namespace BemSheet

open Bem Css Text

namespace Node

/-- A selector that may be expanded: addresses aside, it is safe. -/
structure Expandable (selector : Text) : Prop where
  shown : ∀ c ∈ selector, isHiding c = false
  nested : openAfter? [] selector = some []
  nonempty : selector ≠ []
  trimmed : Trimmed selector
  no_colon : ['-', '-'] <+: selector → ':' ∉ selector

theorem SafeSelector.expandable {selector : Text} (h : SafeSelector selector) :
    Expandable selector :=
  ⟨h.safe.shown, h.safe.nested, h.nonempty, h.trimmed, h.no_colon⟩

theorem safeSelector_expand {delimiters : Delimiters} (plain : delimiters.Plain) {selector : Text}
    (h : Expandable selector) (no_url : containsUrl (expand delimiters selector) = false) :
    SafeSelector (expand delimiters selector) := by
  obtain ⟨replaces, ends⟩ := renders_expand plain selector
  have shown : ∀ c ∈ expand delimiters selector, isHiding c = false := by
    intro c hc
    rcases replaces.chars c hc with old | new
    · exact h.shown c old
    · exact (isClassChar_cases new).1
  have safe : Safe (expand delimiters selector) := ⟨⟨shown, no_url⟩, replaces.nested _ _ h.nested⟩
  have colon : ':' ∈ expand delimiters selector → ':' ∈ selector := by
    intro hc
    rcases replaces.chars _ hc with old | new
    · exact old
    · exact absurd rfl (isClassChar_cases new).2.2
  have last := ends h.trimmed.last
  rcases expand_start plain selector with same | ⟨lead, c, t, front, eq, is⟩
  · rw [same] at safe ⊢
    exact ⟨safe, h.nonempty, h.trimmed, h.no_colon⟩
  · have first : isBlank c = false ∧ c ≠ '-' := by
      rcases is with rfl | rfl <;> decide
    refine ⟨safe, by simp [eq], ⟨?_, last⟩, ?_⟩
    · rw [eq]
      cases lead with
      | nil => simpa using first.1
      | cons d lead =>
        obtain ⟨rest, rfl⟩ := front
        exact h.trimmed.first
    · intro hyphens hc
      rw [eq] at hyphens
      have both : ['-', '-'] <+: lead := hyphens_of_append (by simpa using first.2) hyphens
      exact h.no_colon (both.trans front) (colon hc)

/-- The name and the parameters of an at-rule that becomes a rule make a selector. -/
theorem expandable_of_keyword {name params : Text} (keyword : isKeyword name = true)
    (safe : Safe params) (trimmed : Trimmed params) : Expandable (name ++ params) := by
  obtain ⟨k, -, word⟩ := List.any_eq_true.mp keyword
  obtain rfl := beq_iff_eq.mp word
  have shown : ∀ c ∈ k.word, isHiding c = false := by cases k <;> decide
  have ends : EndsFilled k.word := by cases k <;> decide
  have starts : ∃ c s, k.word = c :: s ∧ isBlank c = false ∧ c ≠ '-' := by
    cases k <;> exact ⟨_, _, rfl, by decide, by decide⟩
  obtain ⟨c, s, eq, filled, letter⟩ := starts
  refine ⟨List.forall_mem_append.mpr ⟨shown, safe.shown⟩, ?_, by simp [eq], ⟨?_, ?_⟩, ?_⟩
  · rw [openAfter?_append, openAfter?_of_neutral (word_not_special k), Option.bind_some,
      safe.nested]
  · rw [eq]
    simpa using filled
  · exact endsFilled_append ends trimmed.last
  · intro hyphens
    rw [eq] at hyphens
    exact absurd (List.cons_prefix_cons.mp hyphens).1.symm letter

/-! ## The transformed tree -/

section

variable (f : Text → Text)

theorem ended_asRules {n : Node} (h : n.ended = true) : (n.asRules f).ended = true := by
  cases n with
  | rule | declaration | comment => rwa [asRules]
  | atRule name params body layout source =>
    rw [asRules_atRule]
    by_cases keyword : isKeyword name = true
    · rw [if_pos keyword]
      rfl
    · rw [if_neg keyword]
      cases body <;> exact h

theorem terminated_asRulesAll {nodes : List Node} {after : Text} (h : Terminated nodes after) :
    Terminated (asRulesAll f nodes) after := by
  induction nodes with
  | nil => rw [asRulesAll_nil]; trivial
  | cons n ns ih =>
    rw [asRulesAll_cons]
    refine ⟨h.1.imp (ended_asRules f) fun last => ⟨?_, last.2⟩, ih h.2⟩
    rw [last.1, asRulesAll_nil]

theorem laidOut_asRules {n : Node} (h : n.LaidOut) : (n.asRules f).LaidOut := by
  cases n with
  | rule selector nodes layout source =>
    rw [asRules]
    exact { h with terminated := terminated_asRulesAll f h.terminated }
  | declaration | comment => rwa [asRules]
  | atRule name params body layout source =>
    have inner := h.body
    rw [asRules_atRule]
    by_cases keyword : isKeyword name = true
    · rw [if_pos keyword]
      cases body with
      | none =>
        refine ⟨h.before, h.between, rfl, ?_, rfl, ?_⟩
        · rw [Layout.ofRule, inner]
          exact gap_nil
        · rw [Option.getD_none, asRulesAll_nil]
          trivial
      | some nodes =>
        exact ⟨h.before, h.between, rfl, inner.1, rfl, terminated_asRulesAll f inner.2.2⟩
    · rw [if_neg keyword]
      cases body with
      | none => exact h
      | some nodes =>
        exact { h with body := ⟨inner.1, inner.2.1, terminated_asRulesAll f inner.2.2⟩ }

end

theorem safeTexts_asRules {delimiters : Delimiters} (plain : delimiters.Plain) {n : Node}
    (laid : n.LaidOut) (safe : n.SafeTexts)
    (no_url : ∀ s ∈ (n.asRules (expand delimiters)).selector?, containsUrl s = false) :
    (n.asRules (expand delimiters)).SafeTexts := by
  cases n with
  | rule selector nodes layout source =>
    rw [asRules] at no_url ⊢
    exact safeSelector_expand plain safe.expandable (no_url _ rfl)
  | declaration | comment => rwa [asRules]
  | atRule name params body layout source =>
    rw [asRules_atRule] at no_url ⊢
    by_cases keyword : isKeyword name = true
    · rw [if_pos keyword] at no_url ⊢
      exact safeSelector_expand plain (expandable_of_keyword keyword safe.2 laid.trimmed)
        (no_url _ rfl)
    · rw [if_neg keyword]
      exact safe

theorem fine_asRulesAll {delimiters : Delimiters} (plain : delimiters.Plain) {nodes : List Node}
    (fine : ∀ n ∈ preorderAll nodes, n.LaidOut ∧ n.SafeTexts)
    (no_url : ∀ s ∈ selectors (asRulesAll (expand delimiters) nodes), containsUrl s = false) :
    ∀ n ∈ preorderAll (asRulesAll (expand delimiters) nodes), n.LaidOut ∧ n.SafeTexts := by
  induction nodes using forestInduction with
  | nil => simp
  | cons n ns beneath others =>
    rw [preorderAll_cons, List.forall_mem_cons, List.forall_mem_append] at fine
    rw [asRulesAll_cons, selectors_cons, List.forall_mem_append, List.forall_mem_append,
      children_asRules] at no_url
    obtain ⟨⟨laid, safe⟩, inner, rest⟩ := fine
    obtain ⟨⟨own, inner_url⟩, rest_url⟩ := no_url
    have own : ∀ s ∈ (n.asRules (expand delimiters)).selector?, containsUrl s = false := by
      intro s hs
      exact own s (Option.mem_toList.mpr hs)
    rw [asRulesAll_cons, preorderAll_cons, children_asRules, List.forall_mem_cons,
      List.forall_mem_append]
    refine ⟨⟨?_, ?_⟩, ?_, ?_⟩
    · exact laidOut_asRules _ laid
    · exact safeTexts_asRules plain laid safe own
    · exact beneath inner inner_url
    · exact others rest rest_url

end Node

/-- A transformed tree is well-formed if the tree was, and if no address comes up in a selector. -/
theorem Sheet.WellFormed.asRules {sheet : Sheet} (h : sheet.WellFormed) {delimiters : Delimiters}
    (plain : delimiters.Plain)
    (no_url : ∀ s ∈ Node.selectors (sheet.asRules (expand delimiters)).nodes,
      containsUrl s = false) : (sheet.asRules (expand delimiters)).WellFormed := by
  have fine := Node.fine_asRulesAll plain (fun n hn => ⟨h.laidOut n hn, h.safe n hn⟩) no_url
  exact ⟨fun n hn => (fine n hn).1, fun n hn => (fine n hn).2,
    Node.terminated_asRulesAll _ h.terminated, h.after⟩

theorem transformText_of_parse {css : Text} {sheet : Sheet} (read : Sheet.parse css = .ok sheet)
    (delimiters : Delimiters) :
    transformText delimiters css = .ok (sheet.asRules (expand delimiters)).print := by
  simp only [transformText, run, parseLogged, read, Sheet.transform_sheet]

/-- A transformed text is read as the transformed tree, if no address comes up in its selectors. -/
theorem transformText_parse {css : Text} {sheet : Sheet} (read : Sheet.parse css = .ok sheet)
    (safe : ∀ n ∈ Node.preorderAll sheet.nodes, n.SafeTexts) {delimiters : Delimiters}
    (plain : delimiters.Plain)
    (no_url : ∀ s ∈ Node.selectors (sheet.transform delimiters).sheet.nodes,
      containsUrl s = false) :
    ∃ text found, transformText delimiters css = .ok text ∧ Sheet.parse text = .ok found ∧
      found.unplaced = (sheet.transform delimiters).sheet.unplaced := by
  rw [Sheet.transform_sheet] at no_url ⊢
  have wellFormed := (Sheet.wellFormed_of_parse read safe).asRules plain no_url
  obtain ⟨found, again, same, -⟩ := Sheet.parse_of_rereads wellFormed.rereads
  exact ⟨_, found, transformText_of_parse read delimiters, again, same⟩

/-- The text `@block(a) { @elem(b):hover { c: (;) } } block(x) mod(y -> z) { }`. -/
def nestedText : Text :=
  "@block(a) \x7b @elem(b):hover \x7b c: (;) \x7d \x7d block(x) mod(y -> z) \x7b \x7d".toList

/-- At-rules in at-rules become rules, and a modifier of two words is joined. -/
theorem transformText_parse_nested : ∃ sheet, Sheet.parse nestedText = .ok sheet ∧
    ∃ text found, transformText {} nestedText = .ok text ∧ Sheet.parse text = .ok found ∧
      found.unplaced = (sheet.transform {}).sheet.unplaced :=
  ⟨_, rfl, transformText_parse rfl (by decide +kernel) (by decide +kernel) (by decide +kernel)⟩

/-- The text `block(UR)L((a){b:c}){}`. -/
def upperUrlText : Text := "block(UR)L((a)\x7bb:c\x7d)\x7b\x7d".toList

/-- The sheet of `upperUrlText`, one rule without children. -/
def Sheet.upperUrl : Sheet where
  nodes := [.rule (upperUrlText.take 20) [] {} (some ⟨1, 1⟩)]

/-- The sheet of the transformed text, `.URL((a){b:c}` and `){}`. -/
def Sheet.upperUrlHalves : Sheet where
  nodes := [
    .rule ".URL((a)".toList
      [.declaration ['b'] ['c'] { between := [':'] } (some ⟨1, 10⟩)] {} (some ⟨1, 1⟩),
    .rule [')'] [] {} (some ⟨1, 14⟩)]

/-- An address that comes up in capital letters hides a bracket too: the text of the transformed
rule is read as two rules, although no selector holds `url(` in small letters. -/
theorem transformText_parse_upperUrl :
    Sheet.parse upperUrlText = .ok .upperUrl ∧ Sheet.upperUrl.print = upperUrlText ∧
    (∀ n ∈ Node.preorderAll Sheet.upperUrl.nodes, n.SafeTexts) ∧ ({} : Delimiters).Plain ∧
    (∀ s ∈ Node.selectors (Sheet.upperUrl.transform {}).sheet.nodes, ¬ "url(".toList <:+: s) ∧
    ∃ text found, transformText {} upperUrlText = .ok text ∧ Sheet.parse text = .ok found ∧
      found.unplaced ≠ (Sheet.upperUrl.transform {}).sheet.unplaced := by
  have read : Sheet.parse upperUrlText = .ok .upperUrl := rfl
  have text : (Sheet.upperUrl.asRules (expand {})).print =
      ".URL((a)\x7bb:c\x7d)\x7b\x7d".toList := by decide
  have transformed := transformText_of_parse read {}
  rw [text] at transformed
  have again : Sheet.parse ".URL((a)\x7bb:c\x7d)\x7b\x7d".toList = .ok .upperUrlHalves := rfl
  have no_small : ∀ s ∈ Node.selectors (Sheet.upperUrl.asRules (expand {})).nodes, 'u' ∉ s := by
    decide
  rw [Sheet.transform_sheet]
  refine ⟨read, by decide, by decide, by decide, ?_, _, .upperUrlHalves, transformed, again,
    by decide⟩
  intro s hs inside
  exact no_small s hs (inside.subset (by decide))

end BemSheet
