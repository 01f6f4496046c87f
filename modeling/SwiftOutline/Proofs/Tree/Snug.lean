/-
  SwiftOutline.Proofs.Tree.Snug

  Trees whose trivia all stand between two elements of a node. From the tokens of
  such a tree, and from the tree without its trivia, weaving brings back the tree.
-/
import SwiftOutline.Proofs.Tree.WithoutTrivia

namespace SwiftOutline

namespace Tree

variable {t : Tree} {ts us : List Tree} {b : Token} {more : List Token}

/-! ## Snug trees -/

mutual

/-- Every node of a tree has tokens, and none of them begins or ends with trivia. -/
inductive Snug : Tree → Prop where
  | leaf {u : Token} (h : u.isTrivia = false) : Snug (.leaf u)
  | node {k : NodeKind} {t : Tree} {ts : List Tree} (first : Snug t) (rest : SnugForest ts) :
      Snug (.node k (t :: ts))

/-- A sequence of such trees, with trivia before some of them. -/
inductive SnugForest : List Tree → Prop where
  | nil : SnugForest []
  | cons {t : Tree} {ts : List Tree} (first : Snug t) (rest : SnugForest ts) :
      SnugForest (t :: ts)
  | trivia {b : Token} {t : Tree} {ts : List Tree} (blank : b.isTrivia = true)
      (rest : SnugForest (t :: ts)) : SnugForest (.leaf b :: t :: ts)

end

theorem SnugForest.append (hts : SnugForest ts) (hus : SnugForest us) : SnugForest (ts ++ us) := by
  induction ts with
  | nil => exact hus
  | cons t ts ih =>
    cases hts with
    | cons first rest => exact .cons first (ih rest)
    | trivia blank rest => exact .trivia blank (ih rest)

theorem Snug.isTriviaLeaf_eq (h : t.Snug) : t.isTriviaLeaf = false := by
  cases h with
  | leaf h => exact h
  | node _ _ => rfl

/-- A node of such a sequence, if that begins with no trivia. -/
theorem SnugForest.node {k : NodeKind} (h : SnugForest (t :: ts)) (ht : t.isTriviaLeaf = false) :
    Snug (.node k (t :: ts)) := by
  cases h with
  | cons first rest => exact .node first rest
  | trivia blank _ => exact absurd (ht.symm.trans blank) Bool.false_ne_true

/-- The first token of a snug tree is no trivia. -/
theorem Snug.exists_first (t : Tree) (h : t.Snug) :
    ∃ u us, t.leaves = u :: us ∧ u.isTrivia = false := by
  match t, h with
  | .leaf u, .leaf h => exact ⟨u, [], rfl, h⟩
  | .node k (t :: ts), .node first _ =>
    obtain ⟨u, us, hleaves, hu⟩ := exists_first t first
    exact ⟨u, us ++ forestLeaves ts, by rw [leaves, forestLeaves, hleaves, List.cons_append], hu⟩

mutual

/-- The last token of a snug tree is no trivia. -/
theorem Snug.exists_last (t : Tree) (h : t.Snug) :
    ∃ (us : List Token) (u : Token), t.leaves = us ++ [u] ∧ u.isTrivia = false := by
  match t, h with
  | .leaf u, .leaf h => exact ⟨[], u, rfl, h⟩
  | .node k (t :: ts), .node first rest =>
    exact SnugForest.exists_last (t :: ts) (.cons first rest) (List.cons_ne_nil t ts)

theorem SnugForest.exists_last (ts : List Tree) (h : SnugForest ts) (hne : ts ≠ []) :
    ∃ (us : List Token) (u : Token), forestLeaves ts = us ++ [u] ∧ u.isTrivia = false := by
  match ts, h with
  | [], .nil => exact absurd rfl hne
  | [t], .cons first _ =>
    obtain ⟨us, u, hleaves, hu⟩ := Snug.exists_last t first
    exact ⟨us, u, by rw [forestLeaves, forestLeaves, List.append_nil, hleaves], hu⟩
  | t :: t' :: ts, .cons _ rest =>
    obtain ⟨us, u, hleaves, hu⟩ :=
      SnugForest.exists_last (t' :: ts) rest (List.cons_ne_nil t' ts)
    exact ⟨t.leaves ++ us, u, by rw [forestLeaves, hleaves, List.append_assoc], hu⟩
  | .leaf b :: t' :: ts, .trivia _ rest =>
    obtain ⟨us, u, hleaves, hu⟩ :=
      SnugForest.exists_last (t' :: ts) rest (List.cons_ne_nil t' ts)
    exact ⟨b :: us, u, by rw [forestLeaves, hleaves, leaves, List.singleton_append,
      List.cons_append], hu⟩

end

/-- A sequence that ends with a tree does not vanish with its trivia. -/
theorem SnugForest.withoutTrivia_ne_nil (h : SnugForest (t :: ts)) :
    forestWithoutTrivia (t :: ts) ≠ [] := by
  induction ts generalizing t with
  | nil =>
    cases h with
    | cons first _ => simp [forestWithoutTrivia, first.isTriviaLeaf_eq]
  | cons u us ih =>
    cases h with
    | cons first _ => simp [forestWithoutTrivia, first.isTriviaLeaf_eq]
    | trivia blank rest =>
      rw [forestWithoutTrivia, isTriviaLeaf_leaf, if_pos blank]
      exact ih rest

/-! ## Weaving -/

/-- Trivia before a tree of a sequence become leaves. -/
theorem weaveForest_trivia (hb : b.isTrivia = true) (hts : ts ≠ []) :
    weaveForest ts (b :: more) = (.leaf b :: (weaveForest ts more).1, (weaveForest ts more).2) := by
  cases ts with
  | nil => exact absurd rfl hts
  | cons t ts =>
    simp only [weaveForest, leadingTrivia, List.dropWhile_cons_of_pos hb,
      List.takeWhile_cons_of_pos hb, List.map_cons, List.cons_append]

/-- Without trivia before it, a sequence begins with its first tree. -/
theorem weaveForest_cons {u : Token} {rest : List Token} (hmore : more = u :: rest)
    (hu : u.isTrivia = false) :
    weaveForest (t :: ts) more =
      ((weave t more).1 ++ (weaveForest ts (weave t more).2).1,
        (weaveForest ts (weave t more).2).2) := by
  subst hmore
  simp only [weaveForest, leadingTrivia, List.dropWhile_cons_of_neg (p := Token.isTrivia) (a := u)
    (by simp [hu]), List.takeWhile_cons_of_neg (p := Token.isTrivia) (a := u) (by simp [hu]),
    List.map_nil, List.nil_append]

mutual

/-- A snug tree is woven from its tokens. -/
theorem Snug.weave_eq (t : Tree) (h : t.Snug) (more : List Token) :
    weave t.withoutTrivia (t.leaves ++ more) = ([t], more) := by
  match t, h with
  | .leaf u, .leaf _ => rfl
  | .node k (t :: ts), .node first rest =>
    rw [withoutTrivia, weave, leaves, SnugForest.weaveForest_eq (t :: ts) (.cons first rest) more]

theorem SnugForest.weaveForest_eq (ts : List Tree) (h : SnugForest ts) (more : List Token) :
    weaveForest (forestWithoutTrivia ts) (forestLeaves ts ++ more) = (ts, more) := by
  match ts, h with
  | [], .nil => rfl
  | t :: ts, .cons first rest =>
    obtain ⟨u, us, hleaves, hu⟩ := first.exists_first
    have htokens : forestLeaves (t :: ts) ++ more = t.leaves ++ (forestLeaves ts ++ more) := by
      rw [forestLeaves, List.append_assoc]
    rw [forestWithoutTrivia, if_neg (by simp [first.isTriviaLeaf_eq]), htokens,
      weaveForest_cons (by rw [hleaves, List.cons_append]) hu, Snug.weave_eq t first,
      SnugForest.weaveForest_eq ts rest more]
    rfl
  | .leaf b :: t :: ts, .trivia blank rest =>
    rw [forestWithoutTrivia, isTriviaLeaf_leaf, if_pos blank, forestLeaves, leaves,
      List.singleton_append, List.cons_append, weaveForest_trivia blank rest.withoutTrivia_ne_nil,
      SnugForest.weaveForest_eq (t :: ts) rest more]

end

/-- So is the root of a file. -/
theorem SnugForest.rootWithTrivia_eq (h : SnugForest ts) :
    rootWithTrivia (forestWithoutTrivia ts) (forestLeaves ts) = .node .sourceFile ts := by
  have hweave := h.weaveForest_eq ts []
  rw [List.append_nil] at hweave
  rw [rootWithTrivia, hweave]
  simp [leadingTrivia]

end Tree

end SwiftOutline
