import BemSheet.Proofs.Sheet.Chunks
import BemSheet.Proofs.Transform.RoundTrip

/-!
Transforming texts one after another.

A transformation changes every node by itself, and neither the text in front of a node nor its place
matters to it. So what it makes of two texts, of which the first ends its last statement, is what it
makes of each (`transformText_append`).
-/

namespace BemSheet

open Bem Css

namespace Node

variable (f : Text → Text)

theorem asRules_prepend (gap : Text) (n : Node) :
    (n.prepend gap).asRules f = (n.asRules f).prepend gap := by
  cases n with
  | rule | declaration | comment => simp [prepend, mapLayout, asRules]
  | atRule name params body layout source =>
    simp only [prepend, mapLayout, asRules_atRule]
    split <;> rfl

theorem asRulesAll_append (ns ms : List Node) :
    asRulesAll f (ns ++ ms) = asRulesAll f ns ++ asRulesAll f ms := by
  induction ns with
  | nil => simp
  | cons n ns ih => simp [ih]

theorem asRulesAll_relocateAll (g : Location → Location) (ns : List Node) :
    asRulesAll f (relocateAll g ns) = relocateAll g (asRulesAll f ns) := by
  induction ns using forestInduction with
  | nil => simp
  | cons n ns beneath others =>
    have first : (n.relocate g).asRules f = (n.asRules f).relocate g := by
      cases n with
      | rule selector nodes => simpa [relocate, asRules, children, children?] using beneath
      | declaration | comment => simp [relocate, asRules]
      | atRule name params body =>
        cases body with
        | none => by_cases keyword : isKeyword name = true <;> simp [relocate, asRules, keyword]
        | some nodes =>
          by_cases keyword : isKeyword name = true <;>
            simpa [relocate, asRules, keyword, children, children?] using beneath
    rw [relocateAll_cons, asRulesAll_cons, asRulesAll_cons, relocateAll_cons, first, others]

end Node

namespace Sheet

variable (f : Text → Text)

theorem asRules_append (s t : Sheet) :
    (s.append t).asRules f = (s.asRules f).append (t.asRules f) := by
  obtain ⟨nodes, after⟩ := s
  obtain ⟨_ | ⟨n, ns⟩, after'⟩ := t
  · simp [append, prepend, asRules]
  · simp [append, prepend, asRules, Node.asRulesAll_append, Node.asRules_prepend]

/-- What is printed of a transformed sheet does not depend on places. -/
theorem print_asRules_relocate (g : Location → Location) (s : Sheet) :
    ((s.relocate g).asRules f).print = (s.asRules f).print := by
  simp only [print, asRules, relocate]
  rw [Node.asRulesAll_relocateAll, ← Node.printAll_unplacedAll, Node.unplacedAll_relocateAll,
    Node.printAll_unplacedAll]

end Sheet

theorem transformText_of_error {css : Text} {e : ParseError} (h : Sheet.parse css = .error e)
    (delimiters : Delimiters) : transformText delimiters css = .error (.sheet e) := by
  simp only [transformText, run, parseLogged, h]

/-- Let a text be read as a sheet that prints as that text, and let its last node, if it has one,
show where it ends. Whatever comes behind it is read as if it stood alone, at places further on, and
so is it transformed. What is not read alone is not read behind the text either, for the same
fault. -/
theorem transformText_append {front : Text} {sheet : Sheet} (read : Sheet.parse front = .ok sheet)
    (whole : sheet.print = front) (ended : ∀ n ∈ sheet.nodes.getLast?, n.ended = true)
    (back : Text) (delimiters : Delimiters) :
    (∀ other, Sheet.parse back = .ok other →
      Sheet.parse (front ++ back) = .ok (sheet.append (other.relocate (behind front back))) ∧
      ∃ text text', transformText delimiters front = .ok text ∧
        transformText delimiters back = .ok text' ∧
        transformText delimiters (front ++ back) = .ok (text ++ text')) ∧
    ∀ e, Sheet.parse back = .error e →
      ∃ e', Sheet.parse (front ++ back) = .error e' ∧
        transformText delimiters (front ++ back) = .error (.sheet e') ∧
        e'.fault.detail = e.fault.detail ∧ e'.location = behind front back e.location := by
  have both := Sheet.parse_append read whole ended back
  constructor
  · intro other alone
    rw [alone] at both
    refine ⟨both, _, _, transformText_of_parse read delimiters,
      transformText_of_parse alone delimiters, ?_⟩
    rw [transformText_of_parse both, Sheet.asRules_append, Sheet.print_append,
      Sheet.print_asRules_relocate]
  · intro e alone
    rw [alone] at both
    exact ⟨_, both, transformText_of_error both delimiters, rfl, rfl⟩

/-- The sheet of `x{}` and a carriage return. -/
def Sheet.returned : Sheet where
  nodes := [.rule ['x'] [] {} (some ⟨1, 1⟩)]
  after := ['\r']

/-- The sheet of a line feed and `mod(y){}`. -/
def Sheet.fed : Sheet where
  nodes := [.rule "mod(y)".toList [] { before := ['\n'] } (some ⟨2, 1⟩)]

/-- A line break that the two texts share counts once: the rule behind it stands in the second line
of both texts, as it does alone. The fault of a text that is read behind stands there too. -/
theorem transformText_append_lineBreak :
    (∃ text text', transformText {} "x\x7b\x7d\r".toList = .ok text ∧
      transformText {} "\nmod(y)\x7b\x7d".toList = .ok text' ∧
      transformText {} "x\x7b\x7d\r\nmod(y)\x7b\x7d".toList = .ok (text ++ text')) ∧
    Sheet.parse "x\x7b\x7d\r\nmod(y)\x7b\x7d".toList = .ok (Sheet.returned.append .fed) ∧
    ∃ e, Sheet.parse "x\x7b\x7d\r\nz".toList = .error e ∧ e.location = ⟨2, 1⟩ := by
  have read : Sheet.parse "x\x7b\x7d\r".toList = .ok .returned := rfl
  have whole : Sheet.returned.print = "x\x7b\x7d\r".toList := by decide
  have ended : ∀ n ∈ Sheet.returned.nodes.getLast?, n.ended = true := by
    rintro n ⟨⟩
    rfl
  obtain ⟨behind, transformed⟩ :=
    (transformText_append read whole ended "\nmod(y)\x7b\x7d".toList {}).1 .fed rfl
  obtain ⟨e, fails, -, -, location⟩ :=
    (transformText_append read whole ended "\nz".toList {}).2 ⟨.unknownWord ['z'], ⟨2, 1⟩⟩ rfl
  exact ⟨transformed, behind, e, fails, location⟩

end BemSheet
