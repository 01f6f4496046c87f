/-
  SwiftOutline.Proofs.Tree.WithoutTrivia

  Trees without their trivia, and problems by the number of the token that they
  concern. Without its trivia, the tree of a text is what the parser built.
-/
import SwiftOutline.Proofs.Tree.Lossless

namespace SwiftOutline

/-! ## Trees without trivia -/

namespace Tree

/-- Whether a tree is a leaf of trivia. -/
def isTriviaLeaf : Tree → Bool
  | .leaf t => t.isTrivia
  | .node _ _ => false

@[simp] theorem isTriviaLeaf_leaf (t : Token) : isTriviaLeaf (.leaf t) = t.isTrivia := rfl

@[simp] theorem isTriviaLeaf_node (k : NodeKind) (children : List Tree) :
    isTriviaLeaf (.node k children) = false := rfl

mutual

/-- A tree without the trivia inside it. -/
def withoutTrivia : Tree → Tree
  | .leaf t => .leaf t
  | .node k children => .node k (forestWithoutTrivia children)

/-- A sequence of trees without the trivia among them and inside them. -/
def forestWithoutTrivia : List Tree → List Tree
  | [] => []
  | t :: rest =>
    if t.isTriviaLeaf then forestWithoutTrivia rest
    else withoutTrivia t :: forestWithoutTrivia rest

end

theorem forestWithoutTrivia_eq (ts : List Tree) :
    forestWithoutTrivia ts = (ts.filter fun t => !t.isTriviaLeaf).map withoutTrivia := by
  induction ts with
  | nil => rfl
  | cons t ts ih =>
    cases ht : t.isTriviaLeaf with
    | true => rw [forestWithoutTrivia, if_pos ht, List.filter_cons_of_neg (by simp [ht]), ih]
    | false =>
      rw [forestWithoutTrivia, if_neg (by simp [ht]), List.filter_cons_of_pos (by simp [ht]),
        List.map_cons, ih]

theorem forestWithoutTrivia_append (ts us : List Tree) :
    forestWithoutTrivia (ts ++ us) = forestWithoutTrivia ts ++ forestWithoutTrivia us := by
  rw [forestWithoutTrivia_eq, forestWithoutTrivia_eq, forestWithoutTrivia_eq, List.filter_append,
    List.map_append]

theorem forestWithoutTrivia_leadingTrivia (ts : List Token) :
    forestWithoutTrivia (leadingTrivia ts) = [] := by
  unfold leadingTrivia
  induction ts with
  | nil => rfl
  | cons t ts ih =>
    cases ht : t.isTrivia with
    | true =>
      rw [List.takeWhile_cons_of_pos ht, List.map_cons, forestWithoutTrivia, isTriviaLeaf_leaf,
        if_pos ht, ih]
    | false =>
      rw [List.takeWhile_cons_of_neg (by simp [ht]), List.map_nil, forestWithoutTrivia]

open Token

mutual

/-- Taking the trivia away undoes putting them in. -/
theorem withoutTrivia_weave (t : Tree) {ts more : List Token}
    (h : significant ts = t.leaves ++ more) (hts : ts.dropWhile isTrivia = ts) :
    forestWithoutTrivia (weave t ts).1 = [t] := by
  cases t with
  | leaf t =>
    have ht : t.isTrivia = false := by
      have hmem : t ∈ significant ts := by rw [h]; exact List.mem_cons_self
      simpa using (List.mem_filter.mp hmem).2
    obtain ⟨us, rfl, -⟩ := eq_cons_of_significant h hts
    rw [weave, forestWithoutTrivia, isTriviaLeaf_leaf]
    exact if_neg (by simpa using ht)
  | node k children =>
    rw [weave]
    dsimp only
    rw [forestWithoutTrivia, isTriviaLeaf_node, if_neg (by decide), withoutTrivia,
      withoutTrivia_weaveForest children h, forestWithoutTrivia]

theorem withoutTrivia_weaveForest (trees : List Tree) {ts more : List Token}
    (h : significant ts = forestLeaves trees ++ more) :
    forestWithoutTrivia (weaveForest trees ts).1 = trees := by
  cases trees with
  | nil => rfl
  | cons t rest =>
    rw [forestLeaves, List.append_assoc, ← significant_dropWhile] at h
    have htree := withoutTrivia_weave t h (dropWhile_dropWhile ts)
    have hforest := withoutTrivia_weaveForest rest (leaves_weave t h (dropWhile_dropWhile ts)).2
    rw [weaveForest]
    dsimp only
    rw [forestWithoutTrivia_append, forestWithoutTrivia_append, forestWithoutTrivia_leadingTrivia,
      htree, hforest, List.nil_append, List.singleton_append]

end

theorem withoutTrivia_rootWithTrivia {trees : List Tree} {ts : List Token}
    (h : forestLeaves trees = significant ts) :
    (rootWithTrivia trees ts).withoutTrivia = .node .sourceFile trees := by
  rw [rootWithTrivia]
  dsimp only
  rw [withoutTrivia, forestWithoutTrivia_append, forestWithoutTrivia_leadingTrivia,
    List.append_nil, withoutTrivia_weaveForest trees (h.symm.trans (List.append_nil _).symm)]

end Tree

/-- Without its trivia, the tree of a text is what the parser built. -/
theorem withoutTrivia_parse (source : String) :
    (parse source).tree.withoutTrivia =
      .node .sourceFile (finalState (lex source)).built.reverse :=
  Tree.withoutTrivia_rootWithTrivia
    (forestLeaves_finalState fun _ ht => (proper_of_mem_lex ht).kind_ne_eof)

/-! ## Places of problems -/

/-- Where the significant token with the number `i` stands, counted from 0; the end of the text if
    there is none. -/
def Token.placeOf (ts : List Token) (i : Nat) : Span :=
  (significantSpans ts).getD i ⟨totalSize ts, totalSize ts⟩

theorem Token.length_significantSpans (ts : List Token) :
    (significantSpans ts).length = (significant ts).length := by
  have hlayout : ∀ start, ((layout start ts).filter fun p => !p.2.isTrivia).length =
      (significant ts).length := by
    induction ts with
    | nil => intro start; rfl
    | cons t ts ih =>
      intro start
      cases ht : t.isTrivia <;> simp [layout, significant, ht] <;> exact ih _
  rw [significantSpans, List.length_map]
  exact hlayout 0

/-- The number of the token that a report concerns. -/
def Report.tokenIndex (ts : List Token) (r : Report) : Nat :=
  (Token.significant ts).length - r.remaining

theorem Report.locateAll_eq (ts : List Token) (reports : List Report) :
    locateAll ts reports =
      reports.map fun r => ⟨r.problem, Token.placeOf ts (r.tokenIndex ts)⟩ := by
  unfold locateAll
  refine List.map_congr_left fun r _ => ?_
  rw [locate, Token.length_significantSpans, Token.placeOf, tokenIndex]
  split
  · next h =>
    rw [h, Nat.sub_zero, ← Token.length_significantSpans]
    simp [List.getD]
  · rfl

theorem diagnostics_parse (source : String) :
    (parse source).diagnostics = (finalState (lex source)).reports.reverse.map fun r =>
      ⟨r.problem, Token.placeOf (lex source) (r.tokenIndex (lex source))⟩ := by
  rw [← Report.locateAll_eq, parse, parseTokens]

/-- Where no problem was found, none was reported. -/
theorem reports_of_ok {source : String} (h : (parse source).ok = true) :
    (finalState (lex source)).reports = [] := by
  rw [Parse.ok, List.isEmpty_iff, diagnostics_parse, List.map_eq_nil_iff] at h
  exact List.reverse_eq_nil_iff.mp h

end SwiftOutline
