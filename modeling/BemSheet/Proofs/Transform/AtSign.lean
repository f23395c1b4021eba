import BemSheet.Proofs.Css.AtSign
import BemSheet.Proofs.Sheet.Regular
import BemSheet.Proofs.Transform.Chunks

/-!
A keyword with its `@` and without it.

* `asRules_ofNest_unsigned`: a statement that starts with a keyword, at once followed by the rest of
  its header, makes the same rule whether it starts with an `@` or not.
* `transformText_without_at`: so a text is transformed to the same text without that `@`.
-/

namespace BemSheet

open Bem Css Text

theorem word_keyword (k : Keyword) : Word k.word := by
  cases k <;> exact ⟨by decide, by decide, by decide⟩

theorem isKeyword_word (k : Keyword) : isKeyword k.word = true := by
  cases k <;> rfl

/-! ## One statement -/

namespace Node

/-- The blanks at the end of a text stay where they are behind a keyword. -/
theorem splitEnd_keyword {name : Text} (keyword : isKeyword name = true) (rest : Text) :
    (name ++ rest).splitEnd = (name ++ rest.splitEnd.1, rest.splitEnd.2) := by
  obtain ⟨k, -, word⟩ := List.any_eq_true.mp keyword
  obtain rfl := beq_iff_eq.mp word
  have filled : EndsFilled k.word := by cases k <;> decide
  have parts := splitEnd_of_parts (endsFilled_append filled (splitEnd_last rest))
    (blank_splitEnd rest)
  rwa [List.append_assoc, splitEnd_append] at parts

variable (f : Text → Text)

/-- Without the sign of a keyword, a statement makes the same rule. -/
theorem asRules_ofNest_unsigned (before : Text) (header : Header) (start : Location)
    {nodes nodes' : List Node} (same : asRulesAll f nodes = asRulesAll f nodes') (after : Text) :
    (ofNest before (header.unsigned isKeyword) start nodes after).asRules f =
      (ofNest before header start nodes' after).asRules f := by
  cases header with
  | plain text =>
    simp only [Header.unsigned, ofNest, ofRuleHeader, asRules, same]
  | keyword name rest =>
    rw [Header.unsigned]
    split
    next is =>
      obtain ⟨keyword, apart⟩ := Bool.and_eq_true_iff.mp is
      have leading : rest.leading = [] := List.isEmpty_iff.mp apart
      have whole : rest.trimStart = rest := by
        have parts := leading_append rest
        rwa [leading] at parts
      simp only [ofNest, ofAtHeader, ofRuleHeader, asRules, keyword, whole, same,
        splitEnd_keyword keyword, Layout.ofRule, if_pos]
    next => simp only [ofNest, ofAtHeader, asRules, same]

end Node

/-! ## Lists of statements -/

namespace Sheet

variable (f : Text → Text)

theorem map_asRules_cons {n n' : Node} (first : n.asRules f = n'.asRules f)
    {read read' : Except ParseError Sheet}
    (same : read.map (asRules f) = read'.map (asRules f)) :
    (read.map (cons n)).map (asRules f) = (read'.map (cons n')).map (asRules f) := by
  have split (n : Node) (read : Except ParseError Sheet) :
      (read.map (cons n)).map (asRules f) =
        (read.map (asRules f)).map (cons (n.asRules f)) := by
    cases read with
    | error e => rfl
    | ok s => simp [Except.map, cons, asRules]
  rw [split, split, first, same]

theorem map_asRules_bind {read read' : Except ParseError Sheet}
    {next next' : Sheet → Except ParseError Sheet}
    (same : read.map (asRules f) = read'.map (asRules f))
    (behind : ∀ s s', s.asRules f = s'.asRules f →
      (next s).map (asRules f) = (next' s').map (asRules f)) :
    (read.bind next).map (asRules f) = (read'.bind next').map (asRules f) := by
  cases read with
  | error e =>
    cases read' with
    | error e' =>
      obtain rfl := Except.error.inj same
      rfl
    | ok s' => cases same
  | ok s =>
    cases read' with
    | error e' => cases same
    | ok s' => exact behind s s' (Except.ok.inj same)

/-- Without the signs of keywords, statements are read as the same sheet once at-rules are made
rules, or have the same fault. -/
theorem asRules_ofOutline_unsigned (o : Outline) :
    (ofOutline (o.mapHeaders (.unsigned isKeyword))).map (asRules f) =
      (ofOutline o).map (asRules f) := by
  induction o with
  | done after => rfl
  | comment before body closed start rest ih =>
    rw [Outline.mapHeaders, ofOutline_comment, ofOutline_comment]
    exact map_asRules_cons f rfl ih
  | flat before header start semicolon rest ih =>
    rw [Outline.mapHeaders, ofOutline_flat, ofOutline_flat]
    cases Node.ofFlat before header start semicolon with
    | error e => rfl
    | ok n => exact map_asRules_cons f rfl ih
  | nest before header start body closed rest inner ih =>
    rw [Outline.mapHeaders, ofOutline_nest, ofOutline_nest]
    refine map_asRules_bind f inner ?_
    rintro ⟨nodes, after⟩ ⟨nodes', after'⟩ same
    obtain ⟨beneath, rfl⟩ := Sheet.mk.inj same
    exact map_asRules_cons f
      (Node.asRules_ofNest_unsigned f before header start beneath after) ih

/-- What is printed of a list of statements once at-rules are made rules. -/
def rewritten? (o : Outline) : Option Text :=
  (ofOutline o).toOption.map fun sheet => (sheet.asRules f).print

theorem rewritten?_unsigned (o : Outline) :
    rewritten? f (o.mapHeaders (.unsigned isKeyword)) = rewritten? f o := by
  have printed (o : Outline) :
      rewritten? f o = ((ofOutline o).map (asRules f)).toOption.map print := by
    rw [rewritten?]
    cases ofOutline o <;> rfl
  rw [printed, printed, asRules_ofOutline_unsigned]

theorem rewritten?_relocate (g : Location → Location) (o : Outline) :
    rewritten? f (o.relocate g) = rewritten? f o := by
  rw [rewritten?, rewritten?, ofOutline_relocate]
  cases ofOutline o with
  | error e => rfl
  | ok sheet => exact congrArg some (print_asRules_relocate f g sheet)

theorem rewritten?_of_parse {css : Text} {sheet : Sheet} (read : parse css = .ok sheet) :
    rewritten? f (outline css) = some (sheet.asRules f).print := by
  rw [rewritten?, ← parse_eq, read]
  rfl

end Sheet

/-! ## Texts -/

/-- An at-rule named like a keyword, with a body and with nothing between its name and its
parameters, wherever it stands: without its `@` the text is read too, and transformed to the same
text. -/
theorem transformText_without_at {u v : Text} {sheet : Sheet}
    (read : Sheet.parse (u ++ '@' :: v) = .ok sheet) {keyword : Keyword} {params : Text}
    {children : List Node} {layout : Layout}
    (mem : .atRule keyword.word params (some children) layout
      (some (Cursor.start.through u).location) ∈ Node.preorderAll sheet.nodes)
    (apart : layout.afterName = []) :
    ∃ other, Sheet.parse (u ++ v) = .ok other ∧
      ∀ delimiters, ∃ text, transformText delimiters (u ++ v) = .ok text ∧
        transformText delimiters (u ++ '@' :: v) = .ok text := by
  obtain ⟨before, header, start, body, closed, rest, nodes, after, statement, made⟩ :=
    Node.exists_nest (Sheet.parse_eq_ok.mp read) _ mem rfl
  cases header with
  | plain text => cases made
  | keyword name behind =>
    obtain ⟨rfl, -, -, rfl, place⟩ := Node.atRule.inj made
    obtain rfl := Option.some.inj place
    obtain ⟨o, unsigned, moved⟩ :=
      outline_without_at (word_keyword keyword) (isKeyword_word keyword) statement apart
    have same (f : Text → Text) : Sheet.rewritten? f (outline (u ++ v)) =
        some (sheet.asRules f).print := by
      calc Sheet.rewritten? f (outline (u ++ v))
        _ = Sheet.rewritten? f o := by
          rw [← Sheet.rewritten?_relocate f nowhere, moved, Sheet.rewritten?_relocate]
        _ = Sheet.rewritten? f (outline (u ++ '@' :: v)) := by
          rw [← Sheet.rewritten?_unsigned, unsigned, Sheet.rewritten?_unsigned]
        _ = some (sheet.asRules f).print := Sheet.rewritten?_of_parse f read
    cases again : Sheet.parse (u ++ v) with
    | error e =>
      have none := same id
      rw [Sheet.rewritten?, ← Sheet.parse_eq, again] at none
      cases none
    | ok other =>
      refine ⟨other, rfl, fun delimiters => ⟨_, ?_, transformText_of_parse read delimiters⟩⟩
      have text := same (expand delimiters)
      rw [Sheet.rewritten?_of_parse _ again] at text
      rw [transformText_of_parse again, Option.some.inj text]

/-- The text `a{/*b*/` and a line break. -/
def signedFront : Text := "a\x7b/*b*/\n".toList

/-- The text `block(x (y)):z {@mod(m){`. -/
def signedBack : Text := "block(x (y)):z \x7b@mod(m)\x7b".toList

/-- The sheet of both with an `@` between them. Nothing in it is closed. -/
def Sheet.signed : Sheet where
  nodes := [
    .rule ['a'] [
      .comment ['b'] {} (some ⟨1, 3⟩),
      .atRule "block".toList "(x (y)):z".toList (some [
        .atRule "mod".toList "(m)".toList (some []) {} (some ⟨2, 18⟩)])
        { before := ['\n'], between := [' '] } (some ⟨2, 1⟩)] {} (some ⟨1, 1⟩)]

/-- Of two at-rules, one in the other, the outer one is a rule without its `@`, and the inner one is
found in it as before. -/
theorem transformText_without_at_nested :
    Sheet.parse (signedFront ++ '@' :: signedBack) = .ok .signed ∧
    ∃ other, Sheet.parse (signedFront ++ signedBack) = .ok other ∧
      ∀ delimiters, ∃ text, transformText delimiters (signedFront ++ signedBack) = .ok text ∧
        transformText delimiters (signedFront ++ '@' :: signedBack) = .ok text := by
  have read : Sheet.parse (signedFront ++ '@' :: signedBack) = .ok .signed := rfl
  have mem : .atRule Keyword.block.word "(x (y)):z".toList
      (some [.atRule "mod".toList "(m)".toList (some []) {} (some ⟨2, 18⟩)])
      { before := ['\n'], between := [' '] }
      (some (Cursor.start.through signedFront).location) ∈
        Node.preorderAll Sheet.signed.nodes := by decide
  exact ⟨read, transformText_without_at read mem rfl⟩

end BemSheet
