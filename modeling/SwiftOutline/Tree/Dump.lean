/-
  SwiftOutline.Tree.Dump

  A tree written out line by line, one line for each node and each token that
  is no trivia, and the kinds that occur in a tree.
-/
import SwiftOutline.Text.Quoted
import SwiftOutline.Tree.Cursor

namespace SwiftOutline

/-! ## Lines -/

namespace Cursor

/-- One line: the kind, the span, and the text of a token. -/
def dumpLine (c : Cursor) : String :=
  let indent := String.ofList (List.replicate (2 * c.above.length) ' ')
  let span := "@" ++ toString c.span.start ++ ".." ++ toString c.span.stop
  match c.tree with
  | .node k _ => indent ++ k.name ++ span ++ "\n"
  | .leaf t => indent ++ t.kind.name ++ span ++ " " ++ Text.quoted t.text ++ "\n"

end Cursor

mutual

/-- Cursors for a tree and all nodes and tokens in it, parents before their children. -/
def Cursor.elementsOf : Tree → (start : Nat) → (above : List Frame) → List Cursor
  | .leaf t, start, above => [⟨.leaf t, start, above⟩]
  | .node k children, start, above =>
    ⟨.node k children, start, above⟩ :: Cursor.elementsOfForest k start above [] start children

/-- Cursors for children and all nodes and tokens in them. -/
def Cursor.elementsOfForest (k : NodeKind) (parentStart : Nat) (above : List Frame) :
    (before : List Tree) → (offset : Nat) → List Tree → List Cursor
  | _, _, [] => []
  | before, offset, t :: rest =>
    Cursor.elementsOf t offset (⟨k, parentStart, before, rest⟩ :: above)
      ++ Cursor.elementsOfForest k parentStart above (t :: before) (offset + t.size) rest

end

/-- The element and all nodes and tokens in it, parents before their children. -/
def Cursor.descendants (c : Cursor) : List Cursor := Cursor.elementsOf c.tree c.start c.above

namespace Tree

/-- A tree written out. -/
def dump (t : Tree) : String :=
  String.join (((Cursor.ofTree t).descendants.filter fun c =>
    c.token?.all fun t => !t.isTrivia).map Cursor.dumpLine)

end Tree

/-! ## Kinds -/

/-- The kind of an element. -/
inductive ElementKind where
  | token (k : TokenKind)
  | node (k : NodeKind)
  deriving DecidableEq, Repr, Inhabited

namespace ElementKind

/-- Printed name of a kind. -/
def name : ElementKind → String
  | token k => k.name
  | node k => k.name

/-- Kinds in their order of declaration, tokens before nodes. -/
def precedes : ElementKind → ElementKind → Bool
  | token a, token b => a.ctorIdx ≤ b.ctorIdx
  | node a, node b => a.ctorIdx ≤ b.ctorIdx
  | token _, node _ => true
  | node _, token _ => false

end ElementKind

namespace Tree

/-- The kind of the outermost element. -/
def kind : Tree → ElementKind
  | .leaf t => .token t.kind
  | .node k _ => .node k

/-- The kinds of all elements, each once, in their order of declaration. -/
def kinds (t : Tree) : List ElementKind :=
  (((Cursor.ofTree t).descendants.map fun c => c.tree.kind).eraseDups).mergeSort
    ElementKind.precedes

end Tree

end SwiftOutline
