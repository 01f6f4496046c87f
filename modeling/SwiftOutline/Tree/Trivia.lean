/-
  SwiftOutline.Tree.Trivia

  Putting trivia into a tree that was built without them. Trivia between two
  elements go to the parent of both, so that no node but the root begins or
  ends with trivia; the root holds what stands at either end of the text.
-/
import SwiftOutline.Tree.Basic

namespace SwiftOutline

namespace Tree

/-- The trivia that a token sequence begins with, as leaves. -/
def leadingTrivia (ts : List Token) : List Tree :=
  (ts.takeWhile Token.isTrivia).map .leaf

mutual

/-- A tree with trivia inside it, taken from a token sequence that begins with the first token of
    the tree; and the rest of the sequence. A leaf keeps its kind and takes the text of the token
    that comes next, and where none does it vanishes. -/
def weave : Tree → List Token → List Tree × List Token
  | .leaf _, [] => ([], [])
  | .leaf t, u :: us => ([.leaf ⟨t.kind, u.text⟩], us)
  | .node k children, ts =>
    let (woven, rest) := weaveForest children ts
    ([.node k woven], rest)

/-- A sequence of trees with trivia before and inside them, taken from a token sequence; and the
    rest of the sequence. -/
def weaveForest : List Tree → List Token → List Tree × List Token
  | [], ts => ([], ts)
  | t :: rest, ts =>
    let (trees, after) := weave t (ts.dropWhile Token.isTrivia)
    let (forest, last) := weaveForest rest after
    (leadingTrivia ts ++ trees ++ forest, last)

end

/-- A root of the given children, with all trivia of a token sequence. -/
def rootWithTrivia (children : List Tree) (ts : List Token) : Tree :=
  let (woven, rest) := weaveForest children ts
  .node .sourceFile (woven ++ leadingTrivia rest)

end Tree

end SwiftOutline
