import BemSheet.Proofs.Css.Layout
import BemSheet.Proofs.Css.Placement
import BemSheet.Proofs.Css.Unclosed
import BemSheet.Proofs.Text.Blanks
import BemSheet.Sheet.Parser

/-!
Which style sheets are refused, and with which error.

Only a statement without a block can be at fault, so the statements of that kind are listed at all
depths, in the order of the text and with the text before each (`Outline.flats`).

* `Outline.flats_whole`: each of them goes up to a semicolon, to the end of a body or to the end of
  the text.
* `Sheet.parse_eq_error`: a text is refused for the first of them that is no at-rule and has no
  colon.
-/

namespace BemSheet.Css

/-- A statement that ends without a block: the text before it, its own text, and its place. -/
structure Flat where
  front : Text
  header : Header
  start : Location
  deriving DecidableEq, Repr

/-- A statement without a block is at fault if it is no at-rule and has no colon. -/
def Flat.faulty (f : Flat) : Bool :=
  match f.header with
  | .keyword .. => false
  | .plain text => !text.contains ':'

theorem Flat.header_of_faulty {f : Flat} (h : f.faulty = true) :
    ∃ text, f.header = .plain text := by
  obtain ⟨front, header, start⟩ := f
  cases header with
  | keyword name rest => cases h
  | plain text => exact ⟨text, rfl⟩

/-- What may follow a list of statements: nothing, or the end of the body that they stand in. -/
def Closes (back : Text) : Prop := ∀ c ∈ back.head?, c = '}'

/-- What may follow a statement without a block: besides these, a semicolon. -/
def EndsFlat (back : Text) : Prop := ∀ c ∈ back.head?, c = ';' ∨ c = '}'

namespace Outline

/-- The statements of a list that end without a block, at any depth, in the order of the text.
`front` is the text before the list. -/
def flats (front : Text) : Outline → List Flat
  | done _ => []
  | comment before body closed _ rest =>
    rest.flats (front ++ (before ++ '/' :: '*' :: body ++ commentEnd closed))
  | flat before header start semicolon rest =>
    ⟨front ++ before, header, start⟩ ::
      rest.flats (front ++ (before ++ header.text ++ if semicolon then [';'] else []))
  | nest before header _ body closed rest =>
    body.flats (front ++ (before ++ header.text ++ ['{'])) ++
      rest.flats (front ++ (before ++ header.text ++ '{' :: body.text ++ bodyEnd closed))

theorem closes_body {closed : Bool} {rest : Outline} (last : closed = false → rest = done [])
    {back : Text} (closes : Closes back) : Closes (bodyEnd closed ++ rest.text ++ back) := by
  cases closed with
  | true =>
    intro c hc
    exact (Option.some.inj hc).symm
  | false =>
    rw [last rfl]
    exact closes

/-- A statement without a block goes up to a semicolon, or to the end of its list. -/
theorem flats_whole {o : Outline} (laid : o.LaidOut) (last : o.OpenLast) {front back : Text}
    (closes : Closes back) : ∀ f ∈ o.flats front, ∃ rest, EndsFlat rest ∧
      f.front ++ f.header.text ++ rest = front ++ o.text ++ back := by
  induction o generalizing front back with
  | done after => exact nofun
  | comment before body closed start rest ih =>
    intro f hf
    obtain ⟨behind, ends, eq⟩ := ih laid.2.2 last.2 closes f hf
    exact ⟨behind, ends, by rw [eq]; simp [text, textBy]⟩
  | flat before header start semicolon rest ih =>
    obtain ⟨-, -, ended, laid⟩ := laid
    refine List.forall_mem_cons.mpr ⟨?_, ?_⟩
    · cases semicolon with
      | true =>
        refine ⟨';' :: rest.text ++ back, ?_, by simp [text, textBy]⟩
        intro c hc
        exact .inl (Option.some.inj hc).symm
      | false =>
        obtain rfl : rest = done [] := by simpa using ended
        exact ⟨back, fun c hc => .inr (closes c hc), by simp [text, textBy]⟩
    · intro f hf
      obtain ⟨behind, ends, eq⟩ := ih laid last closes f hf
      exact ⟨behind, ends, by rw [eq]; simp [text, textBy]⟩
  | nest before header start body closed rest inner ih =>
    obtain ⟨-, -, within, laid⟩ := laid
    obtain ⟨ends, -, lastWithin, last⟩ := last
    refine List.forall_mem_append.mpr ⟨?_, ?_⟩
    · intro f hf
      obtain ⟨behind, ends, eq⟩ := inner within lastWithin (closes_body ends closes) f hf
      exact ⟨behind, ends, by rw [eq]; simp [text, textBy]⟩
    · intro f hf
      obtain ⟨behind, ends, eq⟩ := ih laid last closes f hf
      exact ⟨behind, ends, by rw [eq]; simp [text, textBy]⟩

theorem flats_front (o : Outline) (front : Text) : ∀ f ∈ o.flats front, front <+: f.front := by
  have behind {a b c : Text} (h : a ++ b <+: c) : a <+: c := (List.prefix_append a b).trans h
  induction o generalizing front with
  | done after => exact nofun
  | comment before body closed start rest ih => exact fun f hf => behind (ih _ f hf)
  | flat before header start semicolon rest ih =>
    refine List.forall_mem_cons.mpr ⟨List.prefix_append front before, ?_⟩
    exact fun f hf => behind (ih _ f hf)
  | nest before header start body closed rest inner ih =>
    refine List.forall_mem_append.mpr ⟨?_, ?_⟩
    · exact fun f hf => behind (inner _ f hf)
    · exact fun f hf => behind (ih _ f hf)

/-- Statements without a block are listed in the order of the text, and none overlaps another. -/
theorem flats_sorted {o : Outline} (laid : o.LaidOut) (last : o.OpenLast) (front : Text) :
    (o.flats front).Pairwise fun f g => f.front ++ f.header.text <+: g.front := by
  induction o generalizing front with
  | done after => exact .nil
  | comment before body closed start rest ih => exact ih laid.2.2 last.2 _
  | flat before header start semicolon rest ih =>
    refine List.pairwise_cons.mpr ⟨?_, ih laid.2.2.2 last _⟩
    intro g hg
    refine .trans ?_ (flats_front rest _ g hg)
    exact ⟨if semicolon then [';'] else [], by simp⟩
  | nest before header start body closed rest inner ih =>
    obtain ⟨-, -, within, laid⟩ := laid
    obtain ⟨-, -, lastWithin, last⟩ := last
    refine List.pairwise_append.mpr ⟨inner within lastWithin _, ih laid last _, ?_⟩
    intro f hf g hg
    have nothing : Closes [] := nofun
    obtain ⟨behind, -, eq⟩ := flats_whole within lastWithin nothing f hf
    refine .trans ?_ (flats_front rest _ g hg)
    rw [List.append_nil] at eq
    exact ⟨behind ++ bodyEnd closed, by rw [← List.append_assoc, eq]; simp⟩

theorem flats_placed {o : Outline} {p : Cursor} {front : Text} (h : o.Placed (p.through front)) :
    ∀ f ∈ o.flats front, f.start = (p.through f.front).location := by
  induction o generalizing front with
  | done after => exact nofun
  | comment before body closed start rest ih =>
    apply ih
    rw [Cursor.through_append]
    exact h.2
  | flat before header start semicolon rest ih =>
    obtain ⟨place, h⟩ := h
    refine List.forall_mem_cons.mpr ⟨?_, ih ?_⟩
    · rw [place, ← Cursor.through_append]
    · rwa [Cursor.through_append]
  | nest before header start body closed rest inner ih =>
    obtain ⟨-, within, h⟩ := h
    refine List.forall_mem_append.mpr ⟨inner ?_, ih ?_⟩
    · rwa [Cursor.through_append]
    · rwa [Cursor.through_append]

end Outline

/-- The statements of a text that end without a block. -/
def flats (s : Text) : List Flat := (outline s).flats []

end BemSheet.Css

namespace BemSheet

open Css Text

/-- The error of a statement at fault. -/
def Css.Flat.error (f : Flat) : ParseError :=
  ⟨.unknownWord (f.header.text.firstWord?.getD f.header.text), f.start⟩

namespace Node

theorem ofDeclarationText?_eq_none {text : Text} {layout : Layout} {start : Location} :
    ofDeclarationText? text layout start = none ↔ ':' ∉ text := by
  unfold ofDeclarationText?
  split
  next eq =>
    have whole : text.takeWhile (· != ':') ++ text.dropWhile (· != ':') = text :=
      List.takeWhile_append_dropWhile
    rw [eq, List.append_nil] at whole
    have none : ':' ∉ text := by
      intro colon
      rw [← whole] at colon
      have other := List.all_eq_true.mp List.all_takeWhile _ colon
      simp at other
    simp [none]
  next colon back eq =>
    have inside : colon ∈ text := (List.dropWhile_suffix _).subset (eq ▸ List.mem_cons_self)
    have stop := List.head?_dropWhile_not (· != ':') text
    have is : colon = ':' := by simpa [eq] using stop
    rw [← is]
    exact ⟨nofun, fun h => absurd inside h⟩

/-- What becomes of reading statements, by the first of them at fault. -/
def Outcome {α : Type} (read : Except ParseError α) : Option Flat → Prop
  | some f => read = .error f.error
  | none => ∃ a, read = .ok a

/-- What is read later is at fault only if nothing before it is. -/
theorem Outcome.bind {α β : Type} {read : Except ParseError α} {next : α → Except ParseError β}
    {first second : Option Flat} (h : Outcome read first) (h' : ∀ a, Outcome (next a) second) :
    Outcome (read >>= next) (first.or second) := by
  cases first with
  | some f =>
    have refused : read = .error f.error := h
    rw [refused]
    rfl
  | none =>
    obtain ⟨a, rfl⟩ := h
    exact h' a

/-- What cannot fail has no part in the outcome. -/
theorem Outcome.followed {α β : Type} {read : Except ParseError α}
    {next : α → Except ParseError β} {first : Option Flat} (h : Outcome read first)
    (sound : ∀ a, ∃ b, next a = .ok b) : Outcome (read >>= next) first := by
  rw [← Option.or_none (o := first)]
  exact h.bind sound

theorem outcome_ofFlat (before : Text) (f : Flat) (semicolon : Bool) :
    Outcome (ofFlat before f.header f.start semicolon) ([f].find? Flat.faulty) := by
  obtain ⟨front, header, start⟩ := f
  cases header with
  | keyword name rest => exact ⟨_, rfl⟩
  | plain text =>
    by_cases colon : ':' ∈ text
    · have sound : Flat.faulty ⟨front, .plain text, start⟩ = false := by simpa [Flat.faulty]
      rw [List.find?_cons, sound]
      cases made : ofDeclarationText? text { before, semicolon } start with
      | none => exact absurd colon (ofDeclarationText?_eq_none.mp made)
      | some n => exact ⟨n, ofFlat_plain.mpr made⟩
    · have faulty : Flat.faulty ⟨front, .plain text, start⟩ = true := by simpa [Flat.faulty]
      rw [List.find?_cons, faulty]
      simp only [ofFlat, ofDeclarationText?_eq_none.mpr colon]
      rfl

/-- Reading a list of statements fails for the first of them at fault, and only then. -/
theorem outcome_ofOutline (o : Outline) (front : Text) :
    Outcome (ofOutline o) ((o.flats front).find? Flat.faulty) := by
  induction o generalizing front with
  | done after => exact ⟨_, rfl⟩
  | comment before body closed start rest ih =>
    rw [ofOutline, Outline.flats]
    exact (ih _).followed fun _ => ⟨_, rfl⟩
  | flat before header start semicolon rest ih =>
    have own := outcome_ofFlat before ⟨front ++ before, header, start⟩ semicolon
    rw [ofOutline, Outline.flats, ← List.singleton_append, List.find?_append]
    exact own.bind fun _ => (ih _).followed fun _ => ⟨_, rfl⟩
  | nest before header start body closed rest inner ih =>
    -- The node itself cannot fail, so the fault is in its body, which is read first, or behind it.
    rw [ofOutline, Outline.flats, List.find?_append]
    exact (inner _).bind fun _ => (ih _).followed fun _ => ⟨_, rfl⟩

end Node

theorem Sheet.parse_outcome (css : Text) :
    Node.Outcome (parse css) ((flats css).find? Flat.faulty) := by
  rw [parse]
  exact (Node.outcome_ofOutline (outline css) []).followed fun _ => ⟨_, rfl⟩

/-- A text is refused exactly for the first of its statements at fault, in the order of the text and
at any depth: for the first word of that statement, at the place where the statement starts. -/
theorem Sheet.parse_eq_error (css : Text) :
    (∀ e, parse css = .error e ↔ ∃ f text word, (flats css).find? Flat.faulty = some f ∧
      f.header = .plain text ∧ FirstWord text word ∧ e = ⟨.unknownWord word, f.start⟩) ∧
    (∀ f ∈ flats css, f.start = (Cursor.start.through f.front).location ∧
      ∃ back, EndsFlat back ∧ f.front ++ f.header.text ++ back = css) ∧
    (flats css).Pairwise fun f g => f.front ++ f.header.text <+: g.front := by
  have laid := laidOut_outline css
  have last := openLast_outline css
  refine ⟨?_, ?_, Outline.flats_sorted laid last []⟩
  · intro e
    have outcome := parse_outcome css
    constructor
    · intro refused
      cases first : (flats css).find? Flat.faulty with
      | some f =>
        rw [first] at outcome
        obtain ⟨text, header⟩ := f.header_of_faulty (List.find?_some first)
        have same : f.error = e := Except.error.inj (outcome.symm.trans refused)
        refine ⟨f, text, _, rfl, header, firstWord_iff.mpr rfl, ?_⟩
        rw [← same, Flat.error, header]
        rfl
      | none =>
        rw [first] at outcome
        obtain ⟨sheet, read⟩ := outcome
        rw [read] at refused
        cases refused
    · rintro ⟨f, text, word, first, header, is, rfl⟩
      rw [first] at outcome
      have refused : parse css = .error f.error := outcome
      rw [refused, Flat.error, header, ← firstWord_iff.mp is]
      rfl
  · intro f hf
    have nothing : Closes [] := nofun
    obtain ⟨back, ends, whole⟩ := Outline.flats_whole laid last nothing f hf
    have placed : (outline css).Placed (Cursor.start.through []) := placed_outline css
    refine ⟨Outline.flats_placed placed f hf, back, ends, ?_⟩
    rw [whole, List.nil_append, List.append_nil, text_outline]

/-- Of two statements at fault, the text `a{b:c;`, a line break and `  d e}f` is refused for the one
in the body, which stands first. -/
theorem Sheet.parse_eq_error_first :
    parse "a\x7bb:c;\n  d e\x7df".toList = .error ⟨.unknownWord ['d'], ⟨2, 3⟩⟩ ∧
    ParseError.message ⟨.unknownWord ['d'], ⟨2, 3⟩⟩ =
      "CSS parse error at line 2, column 3: Unknown word 'd'".toList ∧
    (flats "a\x7bb:c;\n  d e\x7df".toList).length = 3 ∧
    (∀ f ∈ flats "a\x7bb:c;\n  d e\x7df".toList,
      f.start = (Cursor.start.through f.front).location) := by
  obtain ⟨refused, whole, -⟩ := Sheet.parse_eq_error "a\x7bb:c;\n  d e\x7df".toList
  refine ⟨(refused _).mpr ?_, by decide +kernel, by decide, fun f hf => (whole f hf).1⟩
  refine ⟨⟨"a\x7bb:c;\n  ".toList, .plain "d e".toList, ⟨2, 3⟩⟩, "d e".toList, ['d'], ?_⟩
  refine ⟨by decide, rfl, ?_, rfl⟩
  exact firstWord_iff.mpr (by decide)

end BemSheet
