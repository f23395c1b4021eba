import BemSheet.Sheet.Parser
import BemSheet.Sheet.Printer
import BemSheet.Transform.Tree

/-!
Runs from text to text. A run reads a style sheet, transforms it and prints it, and reports what it
does as a list of events.
-/

namespace BemSheet

open Bem

/-- Why a run gives no text. -/
inductive Failure
  | sheet (error : ParseError)
  | environment (error : EnvironmentError)
  deriving DecidableEq, Repr

def Failure.message : Failure → Text
  | sheet error => error.message
  | environment error => error.message

/-- The outcome of a run, and the events reported up to it. -/
structure Run where
  events : List Event
  result : Except Failure Text

/-- Read a style sheet and report it; one that is refused is not reported. -/
def parseLogged (css : Text) : List Event × Except ParseError Sheet :=
  match Sheet.parse css with
  | .ok sheet => ([.parsedSheet sheet.nodes.length css.utf8Size], .ok sheet)
  | .error error => ([], .error error)

/-- Transform a text. -/
def run (delimiters : Delimiters) (css : Text) : Run :=
  match parseLogged css with
  | (events, .ok sheet) =>
    let transformed := sheet.transform delimiters
    ⟨events ++ transformed.events, .ok transformed.sheet.print⟩
  | (events, .error error) => ⟨events, .error (.sheet error)⟩

/-- Transform a text with the delimiters of the environment. -/
def runInEnvironment (modifier element : Setting) (css : Text) : Run :=
  match Delimiters.ofEnvironment modifier element with
  | .ok delimiters =>
    let rest := run delimiters css
    { rest with events := .resolvedDelimiters delimiters :: rest.events }
  | .error error => ⟨[], .error (.environment error)⟩

/-- The transformed text. -/
def transformText (delimiters : Delimiters) (css : Text) : Except Failure Text :=
  (run delimiters css).result

end BemSheet
