/-
  SwiftOutline.Proofs.Tree.Leaves

  The leaves of a tree determine its size and where its tokens stand. When trivia
  are put into a tree two sequences meet, the leaves of the tree and the tokens of
  the text; where the leaves are the tokens that are no trivia, no token is lost
  and none is moved.
-/
import SwiftOutline.Proofs.Token.Gap
import SwiftOutline.Tree.Dump
import SwiftOutline.Tree.Trivia

namespace SwiftOutline

/-! ## Sequences of tokens -/

namespace Token

theorem totalSize_append (ts us : List Token) :
    totalSize (ts ++ us) = totalSize ts + totalSize us := by
  induction ts with
  | nil => simp [totalSize]
  | cons t ts ih => rw [List.cons_append, totalSize, totalSize, ih, Nat.add_assoc]

theorem layout_append (start : Nat) (ts us : List Token) :
    layout start (ts ++ us) = layout start ts ++ layout (start + totalSize ts) us := by
  induction ts generalizing start with
  | nil => rfl
  | cons t ts ih =>
    rw [List.cons_append, layout, layout, ih, totalSize, List.cons_append, Nat.add_assoc]

end Token

/-! ## Leaves of trees -/

namespace Tree

theorem forestLeaves_append (ts us : List Tree) :
    forestLeaves (ts ++ us) = forestLeaves ts ++ forestLeaves us := by
  induction ts with
  | nil => rfl
  | cons t ts ih => rw [List.cons_append, forestLeaves, forestLeaves, ih, List.append_assoc]

@[simp] theorem forestLeaves_map_leaf (ts : List Token) : forestLeaves (ts.map .leaf) = ts := by
  induction ts with
  | nil => rfl
  | cons t ts ih => rw [List.map_cons, forestLeaves, leaves, ih, List.singleton_append]

mutual

theorem size_eq (t : Tree) : t.size = Token.totalSize t.leaves := by
  cases t with
  | leaf t => rw [size, leaves, Token.totalSize, Token.totalSize, Nat.add_zero]
  | node k children => rw [size, leaves, forestSize_eq children]

theorem forestSize_eq (ts : List Tree) : forestSize ts = Token.totalSize (forestLeaves ts) := by
  cases ts with
  | nil => rfl
  | cons t ts =>
    rw [forestSize, forestLeaves, Token.totalSize_append, size_eq t, forestSize_eq ts]

end

end Tree

/-! ## Where tokens stand -/

namespace Cursor

/-- Kind, span and text of an element. -/
def triple (c : Cursor) : ElementKind × Span × String := (c.tree.kind, c.span, c.text)

theorem triple_leaf (t : Token) (start : Nat) (above : List Frame) :
    triple ⟨.leaf t, start, above⟩ = (.token t.kind, ⟨start, start + t.size⟩, t.text) := by
  simp [triple, Tree.kind, span, text, Tree.text, Tree.size, Tree.leaves]

mutual

/-- The tokens of a tree are its leaves, laid out from where the tree begins. -/
theorem map_triple_tokensOf (t : Tree) (start : Nat) (above : List Frame) :
    (tokensOf t start above).map triple =
      (Token.layout start t.leaves).map fun p => (.token p.2.kind, p.1, p.2.text) := by
  cases t with
  | leaf t => rw [tokensOf, List.map_singleton, triple_leaf, Tree.leaves]; rfl
  | node k children => rw [tokensOf, Tree.leaves, map_triple_tokensOfForest]

theorem map_triple_tokensOfForest (k : NodeKind) (parentStart : Nat) (above : List Frame)
    (before : List Tree) (offset : Nat) (ts : List Tree) :
    (tokensOfForest k parentStart above before offset ts).map triple =
      (Token.layout offset (Tree.forestLeaves ts)).map
        fun p => (.token p.2.kind, p.1, p.2.text) := by
  cases ts with
  | nil => rfl
  | cons t ts =>
    rw [tokensOfForest, List.map_append, Tree.forestLeaves, Token.layout_append, List.map_append,
      map_triple_tokensOf t, map_triple_tokensOfForest k parentStart above (t :: before)
        (offset + t.size) ts, Tree.size_eq]

end

end Cursor

namespace Tree

open Token

/-- The parts of a sequence of trees take their tokens one after the other. -/
theorem weaveForest_append (ts us : List Tree) (more : List Token) :
    weaveForest (ts ++ us) more =
      ((weaveForest ts more).1 ++ (weaveForest us (weaveForest ts more).2).1,
        (weaveForest us (weaveForest ts more).2).2) := by
  induction ts generalizing more with
  | nil => rfl
  | cons t ts ih => simp only [List.cons_append, weaveForest, ih, List.append_assoc]

mutual

/-- A tree takes the tokens up to its last leaf out of a sequence that begins with its first. -/
theorem leaves_weave (t : Tree) {ts more : List Token} (h : significant ts = t.leaves ++ more)
    (hts : ts.dropWhile isTrivia = ts) :
    forestLeaves (weave t ts).1 ++ (weave t ts).2 = ts ∧ significant (weave t ts).2 = more := by
  cases t with
  | leaf t =>
    obtain ⟨us, rfl, hus⟩ := eq_cons_of_significant h hts
    exact ⟨rfl, hus⟩
  | node k children =>
    obtain ⟨htext, hmore⟩ := leaves_weaveForest children h
    refine ⟨?_, hmore⟩
    rw [weave]
    simpa [forestLeaves, leaves] using htext

/-- So does a sequence of trees, and it takes the trivia before its first leaf too. -/
theorem leaves_weaveForest (trees : List Tree) {ts more : List Token}
    (h : significant ts = forestLeaves trees ++ more) :
    forestLeaves (weaveForest trees ts).1 ++ (weaveForest trees ts).2 = ts ∧
      significant (weaveForest trees ts).2 = more := by
  cases trees with
  | nil => exact ⟨rfl, h⟩
  | cons t rest =>
    rw [forestLeaves, List.append_assoc, ← significant_dropWhile] at h
    obtain ⟨htree, hrest⟩ := leaves_weave t h (dropWhile_dropWhile ts)
    obtain ⟨hforest, hmore⟩ := leaves_weaveForest rest hrest
    rw [weaveForest]
    dsimp only
    refine ⟨?_, hmore⟩
    rw [forestLeaves_append, forestLeaves_append, List.append_assoc, hforest, List.append_assoc,
      htree, leadingTrivia, forestLeaves_map_leaf, List.takeWhile_append_dropWhile]

end

/-- A root whose leaves were the significant tokens of a sequence has all its tokens for leaves. -/
theorem leaves_rootWithTrivia {trees : List Tree} {ts : List Token}
    (h : forestLeaves trees = significant ts) : (rootWithTrivia trees ts).leaves = ts := by
  obtain ⟨htext, hmore⟩ := leaves_weaveForest trees (h.symm.trans (List.append_nil _).symm)
  have htrivia : ∀ t ∈ (weaveForest trees ts).2, t.isTrivia = true := by
    intro t ht
    simpa using List.filter_eq_nil_iff.mp hmore t ht
  have hrest : (weaveForest trees ts).2.takeWhile isTrivia = (weaveForest trees ts).2 := by
    have hall := @List.takeWhile_append_of_pos _ _ _ [] htrivia
    simpa using hall
  rw [rootWithTrivia, leaves, forestLeaves_append, leadingTrivia, forestLeaves_map_leaf, hrest,
    htext]

end Tree

end SwiftOutline
