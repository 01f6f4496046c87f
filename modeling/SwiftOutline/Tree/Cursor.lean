/-
  SwiftOutline.Tree.Cursor

  Places in a syntax tree. A cursor holds the element it stands at, the byte
  offset where that begins, and everything around it, so that one can move to
  the children, the siblings and the parent, and from token to token.
-/
import SwiftOutline.Text.Blank
import SwiftOutline.Tree.Basic

namespace SwiftOutline

/-- What surrounds an element inside its parent. -/
structure Frame where
  /-- Kind of the parent. -/
  kind : NodeKind
  /-- Offset where the parent begins. -/
  start : Nat
  /-- The siblings before the element, the nearest first. -/
  before : List Tree
  /-- The siblings behind the element, the nearest first. -/
  after : List Tree
  deriving Repr, Inhabited

/-- An element of a tree together with its surroundings. -/
structure Cursor where
  tree : Tree
  /-- Offset where the element begins. -/
  start : Nat
  /-- The surroundings, level by level up to the root. -/
  above : List Frame
  deriving Repr, Inhabited

namespace Frame

/-- The parent of `t`. -/
def parent (f : Frame) (t : Tree) : Tree :=
  .node f.kind (f.before.reverse ++ t :: f.after)

end Frame

namespace Cursor

/-! ## The element itself -/

/-- The root of a tree. -/
def ofTree (t : Tree) : Cursor := ⟨t, 0, []⟩

/-- Where the element stands in the text. -/
def span (c : Cursor) : Span := ⟨c.start, c.start + c.tree.size⟩

/-- The text of the element. -/
def text (c : Cursor) : String := c.tree.text

/-- The text of the element without blanks at its ends. -/
def description (c : Cursor) : String := Text.trim c.text

/-- The token, if the element is one. -/
def token? (c : Cursor) : Option Token :=
  match c.tree with
  | .leaf t => some t
  | .node _ _ => none

/-- Whether the element is a node of kind `k`. -/
def isKind (c : Cursor) (k : NodeKind) : Bool := c.tree.nodeKind? == some k

/-- Whether the element is a token of kind `k`. -/
def isToken (c : Cursor) (k : TokenKind) : Bool := c.token?.any fun t => t.kind == k

/-- Whether the element is a token that is no trivia. -/
def isSignificant (c : Cursor) : Bool := c.token?.any fun t => !t.isTrivia

/-- Whether the element is a type. -/
def isType (c : Cursor) : Bool := c.tree.nodeKind?.any NodeKind.isType

/-- Whether the element is a pattern. -/
def isPattern (c : Cursor) : Bool := c.tree.nodeKind?.any NodeKind.isPattern

/-! ## Down -/

/-- Cursors for the children `rest` of a `k` node that begins at `start`, when the children
    `before` come before them and they begin at `offset`. -/
def childrenFrom (k : NodeKind) (start : Nat) (above : List Frame) :
    (before : List Tree) → (offset : Nat) → (rest : List Tree) → List Cursor
  | _, _, [] => []
  | before, offset, t :: rest =>
    ⟨t, offset, ⟨k, start, before, rest⟩ :: above⟩
      :: childrenFrom k start above (t :: before) (offset + t.size) rest

/-- All children, nodes and tokens. -/
def elements (c : Cursor) : List Cursor :=
  match c.tree with
  | .leaf _ => []
  | .node k children => childrenFrom k c.start c.above [] c.start children

/-- The children that are nodes. -/
def children (c : Cursor) : List Cursor :=
  c.elements.filter fun e => e.tree.nodeKind?.isSome

/-- The first child node of kind `k`. -/
def child? (c : Cursor) (k : NodeKind) : Option Cursor :=
  c.elements.find? fun e => e.isKind k

/-- The first child node that is a type. -/
def typeChild? (c : Cursor) : Option Cursor :=
  c.elements.find? isType

/-- The tokens among the children that are no trivia. -/
def significantTokens (c : Cursor) : List Token :=
  c.elements.filterMap fun e => e.token?.filter fun t => !t.isTrivia

/-- Whether a token of kind `k` is among the children. -/
def hasToken (c : Cursor) (k : TokenKind) : Bool :=
  c.elements.any fun e => e.isToken k

/-- The first token of kind `k` among the children. -/
def tokenOf? (c : Cursor) (k : TokenKind) : Option Token :=
  (c.elements.find? fun e => e.isToken k).bind token?

/-- The text behind the first child that is a `k` token; empty if there is none. -/
def textAfter (c : Cursor) (k : TokenKind) : String :=
  String.join (((c.elements.dropWhile fun e => !e.isToken k).drop 1).map text)

mutual

/-- Cursors for a tree and the nodes in it, parents before their children. -/
def nodesOf : Tree → (start : Nat) → (above : List Frame) → List Cursor
  | .leaf _, _, _ => []
  | .node k children, start, above =>
    ⟨.node k children, start, above⟩ :: nodesOfForest k start above [] start children

/-- Cursors for the nodes among children and in them. -/
def nodesOfForest (k : NodeKind) (parentStart : Nat) (above : List Frame) :
    (before : List Tree) → (offset : Nat) → List Tree → List Cursor
  | _, _, [] => []
  | before, offset, t :: rest =>
    nodesOf t offset (⟨k, parentStart, before, rest⟩ :: above)
      ++ nodesOfForest k parentStart above (t :: before) (offset + t.size) rest

end

/-- The element and all nodes in it, parents before their children. -/
def nodes (c : Cursor) : List Cursor := nodesOf c.tree c.start c.above

mutual

/-- Cursors for the tokens of a tree. -/
def tokensOf : Tree → (start : Nat) → (above : List Frame) → List Cursor
  | .leaf t, start, above => [⟨.leaf t, start, above⟩]
  | .node k children, start, above => tokensOfForest k start above [] start children

/-- Cursors for the tokens of children. -/
def tokensOfForest (k : NodeKind) (parentStart : Nat) (above : List Frame) :
    (before : List Tree) → (offset : Nat) → List Tree → List Cursor
  | _, _, [] => []
  | before, offset, t :: rest =>
    tokensOf t offset (⟨k, parentStart, before, rest⟩ :: above)
      ++ tokensOfForest k parentStart above (t :: before) (offset + t.size) rest

end

/-- All tokens of the element, from left to right. -/
def tokens (c : Cursor) : List Cursor := tokensOf c.tree c.start c.above

/-! ## Up and sideways -/

/-- The parent of the element. -/
def parent? (c : Cursor) : Option Cursor :=
  match c.above with
  | [] => none
  | f :: above => some ⟨f.parent c.tree, f.start, above⟩

/-- The parent, its parent and so on, up to the root, of the element `t` inside `above`. -/
def ancestorsOf (t : Tree) : (above : List Frame) → List Cursor
  | [] => []
  | f :: above => ⟨f.parent t, f.start, above⟩ :: ancestorsOf (f.parent t) above

/-- The parent, its parent and so on, up to the root. -/
def ancestors (c : Cursor) : List Cursor := ancestorsOf c.tree c.above

/-- The root of the tree. -/
def root (c : Cursor) : Cursor := c.ancestors.getLastD c

/-- The next element behind `t`, which begins at `start` inside `above`: its next sibling, or that
    of the nearest ancestor that has one. -/
def elementAfter (t : Tree) (start : Nat) : (above : List Frame) → Option Cursor
  | [] => none
  | f :: above =>
    match f.after with
    | s :: rest =>
      some ⟨s, start + t.size, { f with before := t :: f.before, after := rest } :: above⟩
    | [] => elementAfter (f.parent t) f.start above

/-- The last element before `t`, which begins at `start` inside `above`: its previous sibling, or
    that of the nearest ancestor that has one. -/
def elementBefore (t : Tree) (start : Nat) : (above : List Frame) → Option Cursor
  | [] => none
  | f :: above =>
    match f.before with
    | s :: rest =>
      some ⟨s, start - s.size, { f with before := rest, after := t :: f.after } :: above⟩
    | [] => elementBefore (f.parent t) f.start above

/-! ## From token to token

The first token of an element is looked for in the first child only, and in the first child of
that, so it is missing if this leads to a node without children, whatever follows. The last token
is looked for in the same way. -/

mutual

/-- The first token of a tree. -/
def firstTokenOf : Tree → (start : Nat) → (above : List Frame) → Option Cursor
  | .leaf t, start, above => some ⟨.leaf t, start, above⟩
  | .node k children, start, above => firstTokenOfForest k start above children

/-- The first token of the first child of a `k` node. -/
def firstTokenOfForest (k : NodeKind) (start : Nat) (above : List Frame) :
    List Tree → Option Cursor
  | [] => none
  | t :: rest => firstTokenOf t start (⟨k, start, [], rest⟩ :: above)

end

mutual

/-- The last token of a tree. -/
def lastTokenOf : Tree → (start : Nat) → (above : List Frame) → Option Cursor
  | .leaf t, start, above => some ⟨.leaf t, start, above⟩
  | .node k children, start, above => lastTokenOfForest k start above [] start children

/-- The last token of the last child of a `k` node. -/
def lastTokenOfForest (k : NodeKind) (parentStart : Nat) (above : List Frame) :
    (before : List Tree) → (offset : Nat) → List Tree → Option Cursor
  | _, _, [] => none
  | before, offset, t :: rest =>
    match rest with
    | [] => lastTokenOf t offset (⟨k, parentStart, before, []⟩ :: above)
    | _ :: _ => lastTokenOfForest k parentStart above (t :: before) (offset + t.size) rest

end

/-- The first token of the element. -/
def firstToken? (c : Cursor) : Option Cursor := firstTokenOf c.tree c.start c.above

/-- The last token of the element. -/
def lastToken? (c : Cursor) : Option Cursor := lastTokenOf c.tree c.start c.above

/-- The first token of the next element. -/
def nextToken? (c : Cursor) : Option Cursor :=
  (elementAfter c.tree c.start c.above).bind firstToken?

/-- The last token of the previous element. -/
def prevToken? (c : Cursor) : Option Cursor :=
  (elementBefore c.tree c.start c.above).bind lastToken?

/-- Number of tokens that stand beside a path to the root. -/
def tokensBeside : List Frame → Nat
  | [] => 0
  | f :: fs =>
    (Tree.forestLeaves f.before).length + (Tree.forestLeaves f.after).length + tokensBeside fs

/-- Number of tokens of the whole tree. -/
def tokenTotal (c : Cursor) : Nat :=
  c.tree.leaves.length + tokensBeside c.above

/-- The first token that is no trivia among `c` and the tokens that `step` leads to, at most
    `steps` of them. -/
def seek (step : Cursor → Option Cursor) : (steps : Nat) → Cursor → Option Cursor
  | 0, _ => none
  | n + 1, c => if c.isSignificant then some c else (step c).bind (seek step n)

/-- The first token of the element that is no trivia. -/
def firstSignificant? (c : Cursor) : Option Cursor :=
  (c.firstToken?.bind (seek nextToken? c.tokenTotal)).filter fun t => c.span.contains t.span

/-- The last token of the element that is no trivia. -/
def lastSignificant? (c : Cursor) : Option Cursor :=
  (c.lastToken?.bind (seek prevToken? c.tokenTotal)).filter fun t => c.span.contains t.span

/-- The next token that is no trivia. -/
def nextSignificant? (c : Cursor) : Option Cursor :=
  c.nextToken?.bind (seek nextToken? c.tokenTotal)

/-- From the first to the last token of the element that is no trivia. -/
def trimmedSpan (c : Cursor) : Span :=
  match c.firstSignificant?, c.lastSignificant? with
  | some first, some last => ⟨first.span.start, last.span.stop⟩
  | _, _ => c.span

end Cursor

end SwiftOutline
