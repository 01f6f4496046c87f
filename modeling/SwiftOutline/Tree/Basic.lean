/-
  SwiftOutline.Tree.Basic

  Syntax trees: nodes with a kind over the tokens of a text, trivia included.
-/
import SwiftOutline.Token.Basic
import SwiftOutline.Tree.Kind

namespace SwiftOutline

/-- A syntax tree over tokens. -/
inductive Tree where
  | leaf (token : Token)
  | node (kind : NodeKind) (children : List Tree)
  deriving Repr, Inhabited

namespace Tree

mutual

/-- Whether two trees are equal. -/
def decEq : (t u : Tree) → Decidable (t = u)
  | .leaf a, .leaf b => decidable_of_iff (a = b) (by rw [Tree.leaf.injEq])
  | .node k ts, .node k' us =>
    have := forestDecEq ts us
    decidable_of_iff (k = k' ∧ ts = us) (by rw [Tree.node.injEq])
  | .leaf _, .node _ _ => isFalse Tree.noConfusion
  | .node _ _, .leaf _ => isFalse Tree.noConfusion

/-- Whether two sequences of trees are equal. -/
def forestDecEq : (ts us : List Tree) → Decidable (ts = us)
  | [], [] => isTrue rfl
  | t :: ts, u :: us =>
    have := decEq t u
    have := forestDecEq ts us
    decidable_of_iff (t = u ∧ ts = us) (by rw [List.cons.injEq])
  | [], _ :: _ => isFalse (List.cons_ne_nil _ _).symm
  | _ :: _, [] => isFalse (List.cons_ne_nil _ _)

end

instance : DecidableEq Tree := decEq

mutual

/-- The tokens of a tree, from left to right. -/
def leaves : Tree → List Token
  | .leaf t => [t]
  | .node _ children => forestLeaves children

/-- The tokens of a sequence of trees, from left to right. -/
def forestLeaves : List Tree → List Token
  | [] => []
  | t :: ts => leaves t ++ forestLeaves ts

end

mutual

/-- Number of bytes of a tree's text. -/
def size : Tree → Nat
  | .leaf t => t.size
  | .node _ children => forestSize children

/-- Number of bytes of the text of a sequence of trees. -/
def forestSize : List Tree → Nat
  | [] => 0
  | t :: ts => size t + forestSize ts

end

/-- The text of a tree. -/
def text (t : Tree) : String :=
  String.join (t.leaves.map Token.text)

/-- Kind of a node; a leaf has none. -/
def nodeKind? : Tree → Option NodeKind
  | .leaf _ => none
  | .node k _ => some k

/-- The children of a node; a leaf has none. -/
def children : Tree → List Tree
  | .leaf _ => []
  | .node _ children => children

end Tree

end SwiftOutline
