import BemSheet.Bem.Delimiters

/-!
Blocks, their elements, and the class selectors that name them.
-/

namespace BemSheet.Bem

/-- The block and the element named last. -/
structure Entity where
  block : Option Text := none
  elem : Option Text := none
  deriving DecidableEq, Repr

/-- An empty name is no name. -/
def named? (name : Text) : Option Text := if name.isEmpty then none else some name

namespace Entity

/-- The block with this name. Its elements are yet to be named, whatever came before. -/
def ofBlock (name : Text) : Entity := { block := named? name }

/-- The element with this name, of the same block. -/
def element (entity : Entity) (name : Text) : Entity := { entity with elem := named? name }

/-- A part of a class name with the delimiter in front of it; a part that is absent leaves nothing. -/
def part (delimiter : Text) : Option Text → Text
  | none => []
  | some name => delimiter ++ name

/-- The class selector that names an entity, or an entity with a modifier. -/
def selector (entity : Entity) (modifier : Option Text) (delimiters : Delimiters) : Text :=
  '.' :: part [] entity.block ++ part delimiters.element entity.elem ++
    part delimiters.modifier (modifier.bind named?)

end Entity

end BemSheet.Bem
