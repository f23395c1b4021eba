import BemSheet.Sheet.Walk
import BemSheet.Transform.Event

/-!
At-rules that are named like a keyword become ordinary rules, so that selectors are the only place
where the notation has to be looked for.
-/

namespace BemSheet

/-- The at-rules made rules so far, and the events that report them. -/
structure Normalized where
  count : Nat := 0
  events : List Event := []
  deriving DecidableEq, Repr

/-- The rule for an at-rule whose name is a keyword: its selector is the name and the parameters
with nothing between, and its place and the layout that rules have are kept. -/
def normalizedRule? (name params : Text) (layout : Layout) (source : Option Location)
    (done : Normalized) : Option (Text × Layout × Option Location × Normalized) :=
  (Bem.Keyword.ofWord? name).map fun keyword =>
    let selector := name ++ params
    let event := Event.normalizedAtRule keyword selector (source.map (·.line))
    (selector, { before := layout.before, between := layout.between, after := layout.after }, source,
      ⟨done.count + 1, done.events ++ [event]⟩)

/-- Make every at-rule named `block`, `elem` or `mod` a rule, at every depth. -/
def Sheet.normalize (sheet : Sheet) : Sheet × Normalized :=
  sheet.walk (.onAtRules normalizedRule?) {}

end BemSheet
