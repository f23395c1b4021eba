import BemSheet.Text

/-!
The two delimiters of class names, and where they come from.
-/

namespace BemSheet.Bem

/-- The text before a modifier and between its words, and the text between a block and an element.
The defaults give `block__elem_mod_value`. -/
structure Delimiters where
  modifier : Text := ['_']
  element : Text := ['_', '_']
  deriving DecidableEq, Repr

/-- The name of the environment variable that holds the modifier delimiter. -/
def modifierVariable : Text := "BEM_MOD_DELIM".toList

/-- The name of the environment variable that holds the element delimiter. -/
def elementVariable : Text := "BEM_ELEM_DELIM".toList

/-- An environment variable that holds something other than text. -/
structure EnvironmentError where
  variableName : Text
  deriving DecidableEq, Repr

def EnvironmentError.message (e : EnvironmentError) : Text :=
  "Environment variable '".toList ++ e.variableName ++ "' is not valid unicode".toList

/-- What an environment variable holds. -/
inductive Setting
  | unset
  | text (value : Text)
  | undecodable
  deriving DecidableEq, Repr

namespace Setting

/-- The setting of a variable by its bytes, which are text if they are valid UTF-8. -/
def ofBytes (bytes : ByteArray) : Setting :=
  match String.fromUTF8? bytes with
  | some s => text s.toList
  | none => undecodable

/-- The text of a variable, which fails if there is something else. -/
def read (variableName : Text) : Setting → Except EnvironmentError (Option Text)
  | unset => .ok none
  | text value => .ok (some value)
  | undecodable => .error ⟨variableName⟩

end Setting

namespace Delimiters

/-- A value that is absent or empty leaves the default. -/
def choose (value : Option Text) (default : Text) : Text :=
  match value with
  | none | some [] => default
  | some value => value

/-- The delimiters with these values of the two variables. -/
def ofValues (modifier element : Option Text) : Delimiters where
  modifier := choose modifier ({} : Delimiters).modifier
  element := choose element ({} : Delimiters).element

/-- The delimiters by the value of each variable. -/
def ofVariables (value? : Text → Option Text) : Delimiters :=
  ofValues (value? modifierVariable) (value? elementVariable)

/-- The delimiters by the two variables of the environment. The modifier variable is read first, so
its error comes first. -/
def ofEnvironment (modifier element : Setting) : Except EnvironmentError Delimiters := do
  let modifier ← modifier.read modifierVariable
  let element ← element.read elementVariable
  return ofValues modifier element

end Delimiters

end BemSheet.Bem
