import BemSheet.Sheet.Node

/-!
Printing a tree: every node writes its own text with its layout around it.
-/

namespace BemSheet

namespace Node

def semicolonText (layout : Layout) : Text := if layout.semicolon then [';'] else []

mutual

/-- The text of a node. A semicolon ends declarations and at-rules without a body only. -/
def print : Node → Text
  | rule selector nodes layout _ =>
    layout.before ++ selector ++ layout.between ++ '{' :: printAll nodes ++ layout.after ++ ['}']
  | atRule name params (some nodes) layout _ =>
    layout.before ++ '@' :: name ++ layout.afterName ++ params ++ layout.between ++
      '{' :: printAll nodes ++ layout.after ++ ['}']
  | atRule name params none layout _ =>
    layout.before ++ '@' :: name ++ layout.afterName ++ params ++ layout.between ++
      semicolonText layout
  | declaration property value layout _ =>
    layout.before ++ property ++ layout.between ++ value ++ layout.after ++ semicolonText layout
  | comment text layout _ => layout.before ++ '/' :: '*' :: text ++ ['*', '/']

/-- The text of a list of nodes. -/
def printAll : List Node → Text
  | [] => []
  | n :: ns => n.print ++ printAll ns

end

end Node

/-- The text of a style sheet. -/
def Sheet.print (sheet : Sheet) : Text := Node.printAll sheet.nodes ++ sheet.after

end BemSheet
