/-
  SwiftOutline.Proofs.Tree.Everywhere

  What holds of all nodes that the parser makes holds of all nodes in the tree of
  a text, unless it depends on trivia.
-/
import SwiftOutline.Proofs.Parser.Everywhere
import SwiftOutline.Proofs.Tree.Places
import SwiftOutline.Proofs.Tree.Recovery

namespace SwiftOutline

variable {P Q : NodeKind → List Tree → Prop}

namespace Tree

/-- Without trivia, a child that is not left out has a counterpart. -/
theorem leaf_or_mem_forestWithoutTrivia {t : Tree} {ts : List Tree} (h : t ∈ ts) :
    (∃ u, t = .leaf u) ∨ t.withoutTrivia ∈ forestWithoutTrivia ts := by
  cases htrivia : t.isTriviaLeaf with
  | true =>
    cases t with
    | leaf u => exact .inl ⟨u, rfl⟩
    | node k children => cases htrivia
  | false => exact .inr (mem_forestWithoutTrivia.mpr ⟨t, h, htrivia, rfl⟩)

/-- What all nodes are like without trivia tells what they are like with trivia. -/
theorem Everywhere.of_withoutTrivia
    (hP : ∀ k children, P k (forestWithoutTrivia children) → Q k children) (t : Tree)
    (h : t.withoutTrivia.Everywhere P) : t.Everywhere Q := by
  cases t with
  | leaf t => exact .leaf
  | node k children =>
    obtain ⟨here, inside⟩ := everywhere_node_iff.mp h
    refine .node (hP k children here) fun t ht => ?_
    rcases leaf_or_mem_forestWithoutTrivia ht with ⟨u, rfl⟩ | ht'
    · exact .leaf
    · exact of_withoutTrivia hP t (inside _ ht')

theorem Everywhere.of_within {t : Tree} {c : Cursor} (h : t.Everywhere P)
    (hc : Cursor.Within t c) : c.tree.Everywhere P := by
  induction hc with
  | root => exact h
  | child _ mem ih => exact ih.of_mem_children (Cursor.tree_mem_children mem)

/-- What the property says of a node in a tree. -/
theorem Everywhere.here_of_within {t : Tree} {c : Cursor} {k : NodeKind} (h : t.Everywhere P)
    (hc : Cursor.Within t c) (hk : c.tree.nodeKind? = some k) : P k c.tree.children :=
  (h.of_within hc).here hk

end Tree

theorem nodeKind?_parse (source : String) : (parse source).tree.nodeKind? = some .sourceFile := by
  rw [← Tree.nodeKind?_withoutTrivia, withoutTrivia_parse]
  rfl

/-- What all nodes are like that the parser makes, the root included, tells what all nodes in the
    tree of a text are like. -/
theorem everywhere_parse_of_root {source : String}
    (hP : ∀ k children, P k (Tree.forestWithoutTrivia children) → Q k children)
    (hroot : P .sourceFile (finalState (lex source)).built.reverse)
    (h : (finalState (lex source)).Everywhere P) : (parse source).tree.Everywhere Q := by
  refine .of_withoutTrivia hP _ ?_
  rw [withoutTrivia_parse]
  exact .node hroot fun t ht => h t (List.mem_reverse.mp ht)

/-- So does what all nodes are like that the parser makes, if the root is like that anyway. -/
theorem everywhere_parse {source : String}
    (hP : ∀ k children, P k (Tree.forestWithoutTrivia children) → Q k children)
    (hroot : ∀ children, P .sourceFile children)
    (h : (finalState (lex source)).Everywhere P) : (parse source).tree.Everywhere Q :=
  everywhere_parse_of_root hP (hroot _) h

end SwiftOutline
