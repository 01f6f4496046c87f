/-
  SwiftOutline.Tree.ViewMode

  Two ways to look at a tree: as it is, or as if what the grammar could not
  place were not there.
-/
import SwiftOutline.Tree.Cursor

namespace SwiftOutline

/-- How `unexpected` nodes are treated. -/
inductive ViewMode where
  /-- They are nodes like all others. -/
  | sourceAccurate
  /-- They and all in them are passed over. -/
  | fixedUp
  deriving DecidableEq, Repr, Inhabited

namespace ViewMode

/-- Whether a node of kind `k` is visible. -/
def shows (m : ViewMode) (k : NodeKind) : Bool :=
  m == .sourceAccurate || k != .unexpected

end ViewMode

namespace Cursor

/-- Whether the element is visible itself, whatever it stands in. -/
def visibleIn (m : ViewMode) (c : Cursor) : Bool := c.tree.nodeKind?.all m.shows

/-- Whether all that the element stands in is visible. -/
def surroundedIn (m : ViewMode) (c : Cursor) : Bool := c.above.all fun f => m.shows f.kind

/-- The child nodes that are visible. -/
def childrenIn (m : ViewMode) (c : Cursor) : List Cursor :=
  c.children.filter (visibleIn m)

/-- The child nodes of kind `k` that are visible. -/
def childrenOf (m : ViewMode) (k : NodeKind) (c : Cursor) : List Cursor :=
  (c.childrenIn m).filter fun e => e.isKind k

/-- The first visible child node that is a type. -/
def typeIn? (m : ViewMode) (c : Cursor) : Option Cursor :=
  (c.childrenIn m).find? isType

/-- The tokens of the element that are no trivia and stand in nothing invisible. -/
def tokensIn (m : ViewMode) (c : Cursor) : List Token :=
  c.tokens.filterMap fun t =>
    if t.surroundedIn m then t.token?.filter fun t => !t.isTrivia else none

/-! ## Searching -/

/-- What a search does when it meets a node. -/
inductive Visit where
  /-- Takes the node and does not look into it. -/
  | take
  /-- Looks into the node. -/
  | enter
  /-- Passes the node over. -/
  | skip
  deriving DecidableEq, Repr

mutual

/-- The nodes that a search takes from a tree, from left to right. -/
def gatherFrom (visit : NodeKind → Visit) :
    Tree → (start : Nat) → (above : List Frame) → List Cursor
  | .leaf _, _, _ => []
  | .node k children, start, above =>
    match visit k with
    | .take => [⟨.node k children, start, above⟩]
    | .enter => gatherFromForest visit k start above [] start children
    | .skip => []

/-- The nodes that a search takes from children, from left to right. -/
def gatherFromForest (visit : NodeKind → Visit) (k : NodeKind) (parentStart : Nat)
    (above : List Frame) : (before : List Tree) → (offset : Nat) → List Tree → List Cursor
  | _, _, [] => []
  | before, offset, t :: rest =>
    gatherFrom visit t offset (⟨k, parentStart, before, rest⟩ :: above)
      ++ gatherFromForest visit k parentStart above (t :: before) (offset + t.size) rest

end

/-- The nodes that a search takes at and below the element. -/
def gather (visit : NodeKind → Visit) (c : Cursor) : List Cursor :=
  gatherFrom visit c.tree c.start c.above

/-- The nodes that a search takes below the element. -/
def gatherBelow (visit : NodeKind → Visit) (c : Cursor) : List Cursor :=
  match c.tree with
  | .leaf _ => []
  | .node k children => gatherFromForest visit k c.start c.above [] c.start children

end Cursor

end SwiftOutline
