import BemSheet.Bem.Selector
import BemSheet.Transform.AtRule

/-!
Transforming a tree: at-rules are normalized everywhere first, then every selector is expanded.
-/

namespace BemSheet

open Bem

/-- The expanded selector, and the event that reports it if it is another text. -/
def expandLogged (delimiters : Delimiters) (selector : Text) : Text × List Event :=
  let expanded := expand delimiters selector
  (expanded, if expanded ≠ selector then [.rewroteSelector selector expanded] else [])

/-- The selectors changed so far, and the events that report them. -/
structure Expanded where
  count : Nat := 0
  events : List Event := []
  deriving DecidableEq, Repr

/-- Expand one selector, and count it if it is another text. -/
def expandCounted (delimiters : Delimiters) (selector : Text) (done : Expanded) :
    Text × Expanded :=
  let (expanded, events) := expandLogged delimiters selector
  let count := if expanded ≠ selector then done.count + 1 else done.count
  (expanded, ⟨count, done.events ++ events⟩)

/-- Expand the selector of every rule, at every depth. -/
def Sheet.expandSelectors (sheet : Sheet) (delimiters : Delimiters) : Sheet × Expanded :=
  sheet.walk (.onSelectors (expandCounted delimiters)) {}

/-- A transformed tree with what was changed and what was reported. -/
structure Transformed where
  sheet : Sheet
  summary : Summary
  events : List Event
  deriving DecidableEq, Repr

/-- Transform a tree. -/
def Sheet.transform (sheet : Sheet) (delimiters : Delimiters) : Transformed :=
  let (sheet, normalized) := sheet.normalize
  let (sheet, expanded) := sheet.expandSelectors delimiters
  let summary : Summary := ⟨normalized.count, expanded.count⟩
  ⟨sheet, summary, normalized.events ++ expanded.events ++ [.appliedTransform summary]⟩

end BemSheet
