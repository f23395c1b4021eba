import BemSheet.Css.Outline
import BemSheet.Sheet.Fault
import BemSheet.Sheet.Node

/-!
Reading a style sheet.

`Css.outline` splits the text into statements; here each statement becomes a node. Nothing but a
flat statement without a colon can fail, and the first such statement of the text decides the error.
-/

namespace BemSheet

open Css

namespace Node

/-- The rule with this header: a selector, and the blanks after it. -/
def ofRuleHeader (header : Text) (nodes : List Node) (layout : Layout) (start : Location) : Node :=
  let (selector, between) := header.splitEnd
  .rule selector nodes { layout with between } start

/-- The at-rule with this name and this text after it: parameters with blanks on either side. -/
def ofAtHeader (name rest : Text) (body : Option (List Node)) (layout : Layout)
    (start : Location) : Node :=
  let (params, between) := rest.trimStart.splitEnd
  .atRule name params body { layout with afterName := rest.leading, between } start

/-- The declaration with this text, split at its first colon. -/
def ofDeclarationText? (text : Text) (layout : Layout) (start : Location) : Option Node :=
  match text.dropWhile (· != ':') with
  | [] => none
  | colon :: back =>
    let (property, blanks) := Text.splitEnd (text.takeWhile (· != ':'))
    let (value, after) := (Text.trimStart back).splitEnd
    let between := blanks ++ colon :: Text.leading back
    some (.declaration property value { layout with between, after } start)

/-- The node for a statement without a block. -/
def ofFlat (before : Text) (header : Header) (start : Location) (semicolon : Bool) :
    Except ParseError Node :=
  let layout : Layout := { before, semicolon }
  match header with
  | .keyword name rest => .ok (ofAtHeader name rest none layout start)
  | .plain text =>
    match ofDeclarationText? text layout start with
    | some node => .ok node
    | none => .error ⟨.unknownWord (text.firstWord?.getD text), start⟩

/-- The node for a statement with a block. -/
def ofNest (before : Text) (header : Header) (start : Location) (nodes : List Node)
    (after : Text) : Node :=
  let layout : Layout := { before, after }
  match header with
  | .keyword name rest => ofAtHeader name rest (some nodes) layout start
  | .plain text => ofRuleHeader text nodes layout start

/-- The nodes for a list of statements, and the text after the last of them. The statements of a body
are all that stands in it, so it can only fail for one of them. -/
def ofOutline : Outline → Except ParseError (List Node × Text)
  | .done after => .ok ([], after)
  | .comment before body _ start rest => do
    let (nodes, after) ← ofOutline rest
    return (.comment body { before } start :: nodes, after)
  | .flat before header start semicolon rest => do
    let node ← ofFlat before header start semicolon
    let (nodes, after) ← ofOutline rest
    return (node :: nodes, after)
  | .nest before header start body _ rest => do
    let (children, inner) ← ofOutline body
    let (nodes, after) ← ofOutline rest
    return (ofNest before header start children inner :: nodes, after)

/-! ## What has been read, if reading succeeds -/

theorem bind_eq_ok {ε α β : Type} {x : Except ε α} {f : α → Except ε β} {b : β} :
    x >>= f = .ok b ↔ ∃ a, x = .ok a ∧ f a = .ok b := by
  cases x with
  | error e => exact ⟨nofun, nofun⟩
  | ok a => exact ⟨fun h => ⟨a, rfl, h⟩, fun ⟨_, eq, h⟩ => by cases eq; exact h⟩

/-- A declaration is read from a text with a colon, by what stands before the first one and what
stands after it. -/
theorem ofDeclarationText?_eq_some {text : Text} {layout : Layout} {start : Location} {n : Node}
    (h : ofDeclarationText? text layout start = some n) :
    ∃ front back, ':' ∉ front ∧ text = front ++ ':' :: back ∧
      n = .declaration (Text.splitEnd front).1 (Text.trimStart back).splitEnd.1
        { layout with
          between := (Text.splitEnd front).2 ++ ':' :: Text.leading back
          after := (Text.trimStart back).splitEnd.2 } start := by
  unfold ofDeclarationText? at h
  split at h
  · cases h
  next colon back eq =>
    obtain rfl := Option.some.inj h
    have is : colon = ':' := by
      have first := List.head?_dropWhile_not (· != ':') text
      simpa [eq] using first
    subst is
    refine ⟨text.takeWhile (· != ':'), back, ?_, ?_, rfl⟩
    · intro front
      have other := List.all_eq_true.mp List.all_takeWhile _ front
      simp at other
    · rw [← eq, List.takeWhile_append_dropWhile]

/-- A statement that does not start with an at-keyword can only be a declaration. -/
theorem ofFlat_plain {before text : Text} {start : Location} {semicolon : Bool} {n : Node} :
    ofFlat before (.plain text) start semicolon = .ok n ↔
      ofDeclarationText? text { before, semicolon } start = some n := by
  simp only [ofFlat]
  cases ofDeclarationText? text { before, semicolon } start with
  | none => exact ⟨nofun, nofun⟩
  | some node => simp

theorem ofOutline_comment {before body : Text} {closed : Bool} {start : Location} {rest : Outline}
    {nodes : List Node} {after : Text} :
    ofOutline (.comment before body closed start rest) = .ok (nodes, after) ↔
      ∃ others, ofOutline rest = .ok (others, after) ∧
        nodes = .comment body { before } start :: others := by
  rw [ofOutline, bind_eq_ok]
  constructor
  · rintro ⟨⟨others, after⟩, read, h⟩
    cases h
    exact ⟨others, read, rfl⟩
  · rintro ⟨others, read, rfl⟩
    exact ⟨_, read, rfl⟩

theorem ofOutline_flat {before : Text} {header : Header} {start : Location} {semicolon : Bool}
    {rest : Outline} {nodes : List Node} {after : Text} :
    ofOutline (.flat before header start semicolon rest) = .ok (nodes, after) ↔
      ∃ node others, ofFlat before header start semicolon = .ok node ∧
        ofOutline rest = .ok (others, after) ∧ nodes = node :: others := by
  rw [ofOutline, bind_eq_ok]
  simp only [bind_eq_ok]
  constructor
  · rintro ⟨node, flat, ⟨others, after⟩, read, h⟩
    cases h
    exact ⟨node, others, flat, read, rfl⟩
  · rintro ⟨node, others, flat, read, rfl⟩
    exact ⟨node, flat, _, read, rfl⟩

theorem ofOutline_nest {before : Text} {header : Header} {start : Location} {body : Outline}
    {closed : Bool} {rest : Outline} {nodes : List Node} {after : Text} :
    ofOutline (.nest before header start body closed rest) = .ok (nodes, after) ↔
      ∃ children inner others, ofOutline body = .ok (children, inner) ∧
        ofOutline rest = .ok (others, after) ∧
        nodes = ofNest before header start children inner :: others := by
  rw [ofOutline, bind_eq_ok]
  simp only [bind_eq_ok]
  constructor
  · rintro ⟨⟨children, inner⟩, within, ⟨others, after⟩, read, h⟩
    cases h
    exact ⟨children, inner, others, within, read, rfl⟩
  · rintro ⟨children, inner, others, within, read, rfl⟩
    exact ⟨_, within, _, read, rfl⟩

end Node

/-- Read a style sheet. -/
def Sheet.parse (s : Text) : Except ParseError Sheet := do
  let (nodes, after) ← Node.ofOutline (outline s)
  return { nodes, after }

theorem Sheet.parse_eq_ok {s : Text} {sheet : Sheet} :
    Sheet.parse s = .ok sheet ↔ Node.ofOutline (outline s) = .ok (sheet.nodes, sheet.after) := by
  rw [Sheet.parse, Node.bind_eq_ok]
  constructor
  · rintro ⟨⟨nodes, after⟩, read, h⟩
    cases h
    exact read
  · intro read
    exact ⟨_, read, rfl⟩

end BemSheet
