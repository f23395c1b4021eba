import BemSheet.Bem.Entity
import BemSheet.Bem.Modifier
import BemSheet.Bem.Piece

/-!
The class selectors of a clause.
-/

namespace BemSheet.Bem

/-- The text of the pieces of a clause, where `entity` was named last. A block or an element is
`pending` until a modifier takes it into its class or a literal ends the compound. Neither forgets
the entity, so later pieces still name what belongs to the block before them. -/
def renderPieces (delimiters : Delimiters) (entity : Entity) (pending : Bool) : List Piece → Text
  | [] => []
  | .literal text :: pieces =>
    (if pending then entity.selector none delimiters else []) ++ text ++
      renderPieces delimiters entity false pieces
  | .block name :: pieces => renderPieces delimiters (.ofBlock name) true pieces
  | .elem name :: pieces => renderPieces delimiters (entity.element name) true pieces
  | .mod value :: pieces =>
    entity.selector (delimit value delimiters.modifier) delimiters ++
      renderPieces delimiters entity false pieces

/-- A clause with its tags replaced by class selectors. -/
def renderClause (delimiters : Delimiters) (clause : Text) : Text :=
  renderPieces delimiters {} false (pieces clause)

end BemSheet.Bem
