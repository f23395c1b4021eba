import BemSheet.Sheet.Node

/-!
Finding and changing single nodes. A path is a list of child indices from the top level.
-/

namespace BemSheet

/-- Why an edit is refused. -/
inductive EditError
  | noNode
  | noField
  deriving DecidableEq, Repr

/-- A new content for one field of a node. -/
inductive Edit
  | before (text : Text)
  | between (text : Text)
  | afterName (text : Text)
  | after (text : Text)
  | semicolon (flag : Bool)
  | selector (text : Text)
  | name (text : Text)
  | params (text : Text)
  | property (text : Text)
  | value (text : Text)
  | commentText (text : Text)
  | body (nodes : Option (List Node))

namespace Edit

/-- The node with the new content; `none` if it has no such field. Every node has a layout. -/
def change? : Edit → Node → Option Node
  | before text, n => some (n.mapLayout ({ · with before := text }))
  | between text, n => some (n.mapLayout ({ · with between := text }))
  | afterName text, n => some (n.mapLayout ({ · with afterName := text }))
  | after text, n => some (n.mapLayout ({ · with after := text }))
  | semicolon flag, n => some (n.mapLayout ({ · with semicolon := flag }))
  | selector text, .rule _ ns l o => some (.rule text ns l o)
  | name text, .atRule _ p b l o => some (.atRule text p b l o)
  | params text, .atRule n _ b l o => some (.atRule n text b l o)
  | property text, .declaration _ v l o => some (.declaration text v l o)
  | value text, .declaration p _ l o => some (.declaration p text l o)
  | commentText text, .comment _ l o => some (.comment text l o)
  | body nodes, .rule s _ l o => some (.rule s (nodes.getD []) l o)
  | body nodes, .atRule n p _ l o => some (.atRule n p nodes l o)
  | _, _ => none

end Edit

namespace Node

/-- The node at a path in a list of trees. -/
def get? : List Nat → List Node → Option Node
  | [], _ => none
  | [i], nodes => nodes[i]?
  | i :: j :: path, nodes => nodes[i]?.bind fun n => get? (j :: path) n.children

/-- Change the list of nodes beneath the node at a path; the empty path is the list itself. -/
def changeList {α ε : Type} (missing : ε) (f : List Node → Except ε (List Node × α)) :
    List Nat → List Node → Except ε (List Node × α)
  | [], nodes => f nodes
  | i :: path, nodes =>
    match nodes[i]? with
    | none => .error missing
    | some n =>
      match n.children? with
      | none => .error missing
      | some children => do
        let (children, a) ← changeList missing f path children
        return (nodes.set i (n.withChildren children), a)

end Node

namespace Sheet

def get? (sheet : Sheet) (path : List Nat) : Option Node := Node.get? path sheet.nodes

private def changeAt {α : Type} (sheet : Sheet) (path : List Nat)
    (f : List Node → Except EditError (List Node × α)) : Except EditError (Sheet × α) := do
  let (nodes, a) ← Node.changeList .noNode f path sheet.nodes
  return ({ sheet with nodes }, a)

/-- Put a node among the children of the node at `parent`, at an index or at the end; also gives the
index it gets. -/
def insert (sheet : Sheet) (parent : List Nat) (index : Option Nat) (node : Node) :
    Except EditError (Sheet × Nat) :=
  sheet.changeAt parent fun nodes =>
    let i := min (index.getD nodes.length) nodes.length
    .ok (nodes.insertIdx i node, i)

/-- Take the node at a path away; also gives that node. -/
def remove (sheet : Sheet) (path : List Nat) : Except EditError (Sheet × Node) :=
  match path.getLast? with
  | none => .error .noNode
  | some i =>
    sheet.changeAt path.dropLast fun nodes =>
      match nodes[i]? with
      | none => .error .noNode
      | some n => .ok (nodes.eraseIdx i, n)

/-- Change one field of the node at a path. Without a field to change, the node is only looked for. -/
def edit (sheet : Sheet) (path : List Nat) (edit : Option Edit) : Except EditError Sheet :=
  match path.getLast? with
  | none => .error .noNode
  | some i => do
    let (sheet, ()) ← sheet.changeAt path.dropLast fun nodes =>
      match nodes[i]? with
      | none => .error .noNode
      | some n =>
        match edit.bind (·.change? n) with
        | none => .error .noField
        | some n => .ok (nodes.set i n, ())
    return sheet

end Sheet

end BemSheet
