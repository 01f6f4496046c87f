/-
  SwiftOutline.Proofs.Tree.TriviaPlacement

  Where trivia stand in a tree. They are woven in between the elements of a
  node, never at either end of one, so only the root begins or ends with trivia.
-/
import SwiftOutline.Proofs.Tree.Descent
import SwiftOutline.Proofs.Tree.WithoutTrivia

namespace SwiftOutline

/-! ## Tidy trees -/

/-- Whether neither a tree nor any node in it begins or ends with trivia. A node without tokens may
    come first in another one, so it is the first token that counts, not the first child. -/
inductive Tree.Tidy : Tree → Prop where
  | leaf {t : Token} : Tidy (.leaf t)
  | node {k : NodeKind} {children : List Tree}
      (first : (Tree.forestLeaves children).head?.all (fun t => !t.isTrivia) = true)
      (last : children.getLast?.all (fun t => !t.isTriviaLeaf) = true)
      (inside : ∀ t ∈ children, Tidy t) : Tidy (.node k children)

namespace Tree

open Token

theorem Tidy.of_mem_children {t u : Tree} (h : t.Tidy) (hu : u ∈ t.children) : u.Tidy := by
  cases h with
  | leaf => exact absurd hu List.not_mem_nil
  | node _ _ inside => exact inside u hu

/-- The first child of a tidy node is no trivia either. -/
theorem Tidy.head_children {t : Tree} (h : t.Tidy) :
    t.children.head?.all (fun u => !u.isTriviaLeaf) = true := by
  cases h with
  | leaf => rfl
  | @node k children first last inside =>
    cases children with
    | nil => rfl
    | cons u us =>
      cases u with
      | leaf t => exact first
      | node k' children' => rfl

/-! ## Weaving -/

theorem head_isTrivia_of_dropWhile {ts : List Token} (h : ts.dropWhile isTrivia = ts) :
    ts.head?.all (fun t => !t.isTrivia) = true := by
  cases ts with
  | nil => rfl
  | cons t ts =>
    cases ht : t.isTrivia with
    | false => simp [ht]
    | true =>
      have hlength := (List.dropWhile_suffix (l := ts) isTrivia).length_le
      rw [List.dropWhile_cons_of_pos ht] at h
      rw [h, List.length_cons] at hlength
      omega

mutual

/-- What becomes of a tree is one tidy tree, and no trivia. -/
theorem tidy_weave (t : Tree) {ts more : List Token} (h : significant ts = t.leaves ++ more)
    (hts : ts.dropWhile isTrivia = ts) :
    ∃ u, (weave t ts).1 = [u] ∧ u.isTriviaLeaf = false ∧ u.Tidy := by
  cases t with
  | leaf t =>
    have ht : t.isTrivia = false := by
      have hmem : t ∈ significant ts := by rw [h]; exact List.mem_cons_self
      simpa using (List.mem_filter.mp hmem).2
    obtain ⟨us, rfl, -⟩ := eq_cons_of_significant h hts
    exact ⟨.leaf t, rfl, ht, .leaf⟩
  | node k children =>
    obtain ⟨hinside, hlast⟩ := tidy_weaveForest children h
    have hleaves := (leaves_weaveForest children h).1
    refine ⟨.node k (weaveForest children ts).1, by rw [weave], rfl, .node ?_ hlast hinside⟩
    -- the tokens of the node are the first of the sequence, which does not begin with trivia
    have hhead := head_isTrivia_of_dropWhile hts
    rw [← hleaves, List.head?_append] at hhead
    cases hfirst : (forestLeaves (weaveForest children ts).1).head? with
    | none => rfl
    | some u =>
      rw [hfirst] at hhead
      exact hhead

theorem tidy_weaveForest (trees : List Tree) {ts more : List Token}
    (h : significant ts = forestLeaves trees ++ more) :
    (∀ u ∈ (weaveForest trees ts).1, u.Tidy) ∧
      (weaveForest trees ts).1.getLast?.all (fun u => !u.isTriviaLeaf) = true := by
  cases trees with
  | nil => exact ⟨fun u hu => absurd hu List.not_mem_nil, rfl⟩
  | cons t rest =>
    rw [forestLeaves, List.append_assoc, ← significant_dropWhile] at h
    obtain ⟨u, hu, htrivia, htidy⟩ := tidy_weave t h (dropWhile_dropWhile ts)
    obtain ⟨hinside, hlast⟩ := tidy_weaveForest rest (leaves_weave t h (dropWhile_dropWhile ts)).2
    rw [weaveForest]
    dsimp only
    rw [hu]
    constructor
    · intro w hw
      rcases List.mem_append.mp hw with hw | hw
      · rcases List.mem_append.mp hw with hw | hw
        · obtain ⟨t', -, rfl⟩ := List.mem_map.mp hw
          exact .leaf
        · rw [List.mem_singleton.mp hw]
          exact htidy
      · exact hinside w hw
    · rw [List.getLast?_append]
      cases hrest : (weaveForest rest (weave t (ts.dropWhile isTrivia)).2).1.getLast? with
      | none => simp [htrivia]
      | some w =>
        rw [hrest] at hlast
        exact hlast

end

/-! ## Weaving again -/

/-- What follows a front part, which may be empty, can be exchanged for other tokens that begin with
    no trivia. -/
theorem dropWhile_append_of {ts us vs : List Token}
    (h : (ts ++ us).dropWhile isTrivia = ts ++ us)
    (hvs : us.dropWhile isTrivia = us → vs.dropWhile isTrivia = vs) :
    (ts ++ vs).dropWhile isTrivia = ts ++ vs := by
  cases ts with
  | nil => exact hvs h
  | cons t ts =>
    have hhead := head_isTrivia_of_dropWhile h
    rw [List.cons_append, List.dropWhile_cons_of_neg (by simpa using hhead)]

theorem takeWhile_of_dropWhile {ts : List Token} (h : ts.dropWhile isTrivia = ts) :
    ts.takeWhile isTrivia = [] := by
  have hlength := congrArg List.length (List.takeWhile_append_dropWhile (p := isTrivia) (l := ts))
  rw [h, List.length_append] at hlength
  exact List.eq_nil_of_length_eq_zero (by omega)

theorem forestLeaves_leadingTrivia (ts : List Token) :
    forestLeaves (leadingTrivia ts) = ts.takeWhile isTrivia := forestLeaves_map_leaf _

mutual

/-- A tree is woven again from its own tokens, whatever comes behind, if that does not begin with
    trivia where what came behind at first did not. -/
theorem weave_again (t : Tree) {ts more rest : List Token} (h : significant ts = t.leaves ++ more)
    (hts : ts.dropWhile isTrivia = ts)
    (hrest : (weave t ts).2.dropWhile isTrivia = (weave t ts).2 → rest.dropWhile isTrivia = rest) :
    weave t (forestLeaves (weave t ts).1 ++ rest) = ((weave t ts).1, rest) := by
  cases t with
  | leaf t =>
    obtain ⟨us, rfl, -⟩ := eq_cons_of_significant h hts
    rfl
  | node k children =>
    have hforest := weaveForest_again children h hrest
    have hleaves : forestLeaves (weave (.node k children) ts).1 =
        forestLeaves (weaveForest children ts).1 := by
      simp only [weave, forestLeaves, leaves, List.append_nil]
    rw [hleaves, weave, hforest, weave]

theorem weaveForest_again (trees : List Tree) {ts more rest : List Token}
    (h : significant ts = forestLeaves trees ++ more)
    (hrest : (weaveForest trees ts).2.dropWhile isTrivia = (weaveForest trees ts).2 →
      rest.dropWhile isTrivia = rest) :
    weaveForest trees (forestLeaves (weaveForest trees ts).1 ++ rest) =
      ((weaveForest trees ts).1, rest) := by
  cases trees with
  | nil => rfl
  | cons t trees =>
    rw [forestLeaves, List.append_assoc, ← significant_dropWhile] at h
    obtain ⟨htree, hmore⟩ := leaves_weave t h (dropWhile_dropWhile ts)
    obtain ⟨hforest, -⟩ := leaves_weaveForest trees hmore
    rw [weaveForest] at hrest
    dsimp only at hrest
    -- what follows the first tree begins with trivia only if it did so at first
    have hbehind : (weave t (ts.dropWhile isTrivia)).2.dropWhile isTrivia =
          (weave t (ts.dropWhile isTrivia)).2 →
        (forestLeaves (weaveForest trees (weave t (ts.dropWhile isTrivia)).2).1 ++ rest).dropWhile
            isTrivia =
          forestLeaves (weaveForest trees (weave t (ts.dropWhile isTrivia)).2).1 ++ rest := by
      intro hdrop
      rw [← hforest] at hdrop
      exact dropWhile_append_of hdrop hrest
    have hfirst := weave_again t h (dropWhile_dropWhile ts) hbehind
    have hothers := weaveForest_again trees hmore hrest
    have hdrop := dropWhile_dropWhile ts
    rw [← htree] at hdrop
    have hkept := dropWhile_append_of hdrop hbehind
    have htrivia : ∀ u ∈ ts.takeWhile isTrivia, u.isTrivia = true :=
      List.all_eq_true.mp List.all_takeWhile
    -- the trivia before the first tree, its tokens, and those of the others
    have hwoven : (weaveForest (t :: trees) ts).1 =
        leadingTrivia ts ++ (weave t (ts.dropWhile isTrivia)).1 ++
          (weaveForest trees (weave t (ts.dropWhile isTrivia)).2).1 := by
      rw [weaveForest]
    have htokens : forestLeaves (weaveForest (t :: trees) ts).1 ++ rest =
        ts.takeWhile isTrivia ++ (forestLeaves (weave t (ts.dropWhile isTrivia)).1 ++
          (forestLeaves (weaveForest trees (weave t (ts.dropWhile isTrivia)).2).1 ++ rest)) := by
      rw [hwoven, forestLeaves_append, forestLeaves_append, forestLeaves_leadingTrivia,
        List.append_assoc, List.append_assoc]
    rw [htokens, hwoven, weaveForest, List.dropWhile_append_of_pos htrivia, hkept, hfirst]
    dsimp only
    rw [hothers, leadingTrivia, List.takeWhile_append_of_pos htrivia, takeWhile_of_dropWhile hkept,
      List.append_nil]
    rfl

end

/-- What a sequence of trees becomes is trivia, and what each tree becomes. -/
theorem exists_weave_of_mem (trees : List Tree) {ts more : List Token} {u : Tree}
    (h : significant ts = forestLeaves trees ++ more) (hu : u ∈ (weaveForest trees ts).1)
    (htrivia : u.isTriviaLeaf = false) :
    ∃ t us behind, significant us = t.leaves ++ behind ∧ us.dropWhile isTrivia = us ∧
      (weave t us).1 = [u] := by
  induction trees generalizing ts with
  | nil => exact absurd hu List.not_mem_nil
  | cons t trees ih =>
    rw [forestLeaves, List.append_assoc, ← significant_dropWhile] at h
    obtain ⟨w, hw, -, -⟩ := tidy_weave t h (dropWhile_dropWhile ts)
    rw [weaveForest] at hu
    dsimp only at hu
    rcases List.mem_append.mp hu with hu | hu
    · rcases List.mem_append.mp hu with hu | hu
      · obtain ⟨b, hb, rfl⟩ := List.mem_map.mp hu
        have hblank : b.isTrivia = true := List.all_eq_true.mp List.all_takeWhile b hb
        exact absurd (hblank.symm.trans htrivia) (by decide)
      · rw [hw, List.mem_singleton] at hu
        exact ⟨t, _, _, h, dropWhile_dropWhile ts, hu ▸ hw⟩
    · exact ih (leaves_weave t h (dropWhile_dropWhile ts)).2 hu

/-- The leaves of a tidy tree that is no trivia begin with none. -/
theorem Tidy.dropWhile_leaves {t : Tree} (h : t.Tidy) (htrivia : t.isTriviaLeaf = false) :
    t.leaves.dropWhile isTrivia = t.leaves := by
  have hfirst : t.leaves.head?.all (fun u => !u.isTrivia) = true := by
    cases h with
    | leaf => simpa [leaves] using htrivia
    | node first _ _ => rwa [leaves]
  cases hleaves : t.leaves with
  | nil => rfl
  | cons u us =>
    rw [hleaves] at hfirst
    exact List.dropWhile_cons_of_neg (by simpa using hfirst)

end Tree

/-- All that stands in the tree of a text is tidy; the tree itself need not be. -/
theorem tidy_of_mem_children_parse (source : String) :
    ∀ t ∈ (parse source).tree.children, t.Tidy := by
  have hleaves : Token.significant (lex source) =
      Tree.forestLeaves (finalState (lex source)).built.reverse ++ [] := by
    rw [List.append_nil, forestLeaves_finalState fun _ ht => (proper_of_mem_lex ht).kind_ne_eof]
  rw [parse, parseTokens, Tree.rootWithTrivia]
  dsimp only [Tree.children]
  intro t ht
  rcases List.mem_append.mp ht with ht | ht
  · exact (Tree.tidy_weaveForest _ hleaves).1 t ht
  · obtain ⟨u, -, rfl⟩ := List.mem_map.mp ht
    exact .leaf

/-- What stands in the tree of a text, trivia apart, is a tree on its own: with the trivia among its
    own tokens, the tree without trivia is the tree again. -/
theorem rootWithTrivia_of_mem_children_parse {source : String} {t : Tree}
    (ht : t ∈ (parse source).tree.children) (htrivia : t.isTriviaLeaf = false) :
    Tree.rootWithTrivia [t.withoutTrivia] t.leaves = .node .sourceFile [t] := by
  have hleaves : Token.significant (lex source) =
      Tree.forestLeaves (finalState (lex source)).built.reverse ++ [] := by
    rw [List.append_nil, forestLeaves_finalState fun _ ht => (proper_of_mem_lex ht).kind_ne_eof]
  have hwoven : t ∈ (Tree.weaveForest (finalState (lex source)).built.reverse (lex source)).1 := by
    rw [parse, parseTokens, Tree.rootWithTrivia] at ht
    rcases List.mem_append.mp ht with ht | ht
    · exact ht
    · obtain ⟨b, hb, rfl⟩ := List.mem_map.mp ht
      have hblank : b.isTrivia = true := List.all_eq_true.mp List.all_takeWhile b hb
      exact absurd (hblank.symm.trans htrivia) (by decide)
  obtain ⟨raw, us, behind, hus, hdrop, hweave⟩ := Tree.exists_weave_of_mem _ hleaves hwoven htrivia
  have hraw : t.withoutTrivia = raw := by
    have hwithout := Tree.withoutTrivia_weave raw hus hdrop
    rw [hweave, Tree.forestWithoutTrivia, if_neg (by simp [htrivia])] at hwithout
    exact (List.cons.inj hwithout).1
  have hagain : Tree.weave raw (Tree.forestLeaves (Tree.weave raw us).1 ++ []) =
      ((Tree.weave raw us).1, []) := Tree.weave_again raw hus hdrop fun _ => rfl
  rw [hweave, List.append_nil, Tree.forestLeaves, Tree.forestLeaves, List.append_nil] at hagain
  have hfirst := (tidy_of_mem_children_parse source t ht).dropWhile_leaves htrivia
  simp only [Tree.rootWithTrivia, Tree.weaveForest, Tree.leadingTrivia, hraw, hfirst, hagain,
    Tree.takeWhile_of_dropWhile hfirst]
  rfl

theorem Tree.Tidy.of_mem_nodes {t : Tree} {c : Cursor} (h : ∀ u ∈ t.children, u.Tidy)
    (hc : c ∈ (Cursor.ofTree t).nodes) (habove : c.above ≠ []) : c.tree.Tidy :=
  Cursor.of_mem_nodes_below (P := fun c => c.tree.Tidy)
    (fun _ hc _ he => hc.of_mem_children (Cursor.tree_mem_children he))
    (fun e he => h e.tree (Cursor.tree_mem_children he)) hc habove

/-! ## Places of trivia -/

/-- An element between the first and the last of a list that are unlike it. -/
theorem exists_around {α : Type} {p : α → Bool} {l : List α} {a : α} (ha : a ∈ l) (hp : p a = true)
    (hhead : l.head?.all (fun x => !p x) = true) (hlast : l.getLast?.all (fun x => !p x) = true) :
    ∃ x y, [x, a, y].Sublist l ∧ p x = false ∧ p y = false := by
  obtain ⟨before, after, rfl⟩ := List.append_of_mem ha
  cases before with
  | nil => simp [hp] at hhead
  | cons x before =>
    cases hafter : after.getLast? with
    | none =>
      rw [List.getLast?_append, List.getLast?_cons, hafter] at hlast
      simp [hp] at hlast
    | some y =>
      rw [List.getLast?_append, List.getLast?_cons, hafter] at hlast
      refine ⟨x, y, ?_, by simpa using hhead, by simpa using hlast⟩
      have hy : [y].Sublist after := List.singleton_sublist.mpr (List.mem_of_getLast? hafter)
      exact ((hy.cons_cons a).trans (List.sublist_append_right before _)).cons_cons x

/-- In the tree of a text no node but the root begins or ends with trivia: neither its first nor
    its last child is whitespace or a comment. So trivia in such a node stand between two children
    of it that are none. -/
theorem trivia_between_elements {source : String} {c : Cursor}
    (hc : c ∈ (Cursor.ofTree (parse source).tree).nodes) (habove : c.above ≠ []) :
    c.elements.head?.all (fun e => !e.tree.isTriviaLeaf) = true ∧
    c.elements.getLast?.all (fun e => !e.tree.isTriviaLeaf) = true ∧
    ∀ e ∈ c.elements, e.tree.isTriviaLeaf = true →
      ∃ a b, [a, e, b].Sublist c.elements ∧
        a.tree.isTriviaLeaf = false ∧ b.tree.isTriviaLeaf = false := by
  have htidy := Tree.Tidy.of_mem_nodes (tidy_of_mem_children_parse source) hc habove
  have hhead : c.elements.head?.all (fun e => !e.tree.isTriviaLeaf) = true := by
    have h := htidy.head_children
    rwa [← Cursor.map_tree_elements, List.head?_map, Option.all_map] at h
  have hlast : c.elements.getLast?.all (fun e => !e.tree.isTriviaLeaf) = true := by
    have h : c.tree.children.getLast?.all (fun u => !u.isTriviaLeaf) = true := by
      cases hk : c.tree with
      | leaf t => rfl
      | node k children =>
        rw [hk] at htidy
        cases htidy with
        | node _ last _ => exact last
    rwa [← Cursor.map_tree_elements, List.getLast?_map, Option.all_map] at h
  refine ⟨hhead, hlast, fun e he htrivia => ?_⟩
  exact exists_around (p := fun e : Cursor => e.tree.isTriviaLeaf) he htrivia hhead hlast

/-- The blank behind a `let` stands inside the declaration, between two of its children. -/
theorem trivia_between_let_and_name :
    ∃ c ∈ (Cursor.ofTree (parse " let a = 1 ").tree).nodes, c.above ≠ [] ∧
      ∃ e ∈ c.elements, e.tree.isTriviaLeaf = true ∧
        c.elements.head?.all (fun e => !e.tree.isTriviaLeaf) = true ∧
        c.elements.getLast?.all (fun e => !e.tree.isTriviaLeaf) = true ∧
        ∃ a b, [a, e, b].Sublist c.elements ∧
          a.tree.isTriviaLeaf = false ∧ b.tree.isTriviaLeaf = false := by
  have hfound : ((Cursor.ofTree (parse " let a = 1 ").tree).nodes.any fun c =>
      !c.above.isEmpty && c.elements.any fun e => e.tree.isTriviaLeaf) = true := by
    decide +kernel
  obtain ⟨c, hc, hcond⟩ := List.any_eq_true.mp hfound
  rw [Bool.and_eq_true] at hcond
  obtain ⟨e, he, htrivia⟩ := List.any_eq_true.mp hcond.2
  have habove : c.above ≠ [] := by simpa using hcond.1
  obtain ⟨hhead, hlast, hbetween⟩ := trivia_between_elements hc habove
  exact ⟨c, hc, habove, e, he, htrivia, hhead, hlast, hbetween e he htrivia⟩

end SwiftOutline
