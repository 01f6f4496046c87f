/-
  SwiftOutline.Proofs.Tree.Filled

  Which nodes in the tree of a text have tokens. Trivia only add to what the
  parser has built, so below the root every node that introduces declarations has
  some, and so has every node of a text without problems, the arguments of
  attributes apart.
-/
import SwiftOutline.Proofs.Filled.Item
import SwiftOutline.Proofs.Outline.Search
import SwiftOutline.Proofs.Tree.Recovery

namespace SwiftOutline

open Token (significant)

/-! ## Trees -/

namespace Tree

variable {matters : NodeKind → Prop} {t u : Tree}

/-- What is known of a tree without its trivia is known of its children. -/
theorem Filled.of_mem_children (h : t.withoutTrivia.Filled matters) (hu : u ∈ t.children) :
    u.withoutTrivia.Filled matters := by
  cases t with
  | leaf b => exact absurd hu List.not_mem_nil
  | node k children =>
    cases h with
    | node _ inside =>
      cases u with
      | leaf b => exact .leaf
      | node k' children' => exact inside _ (mem_forestWithoutTrivia.mpr ⟨_, hu, rfl, rfl⟩)

theorem Filled.leaves_ne_nil {k : NodeKind} (h : t.Filled matters) (hk : t.nodeKind? = some k)
    (hmatters : matters k) : t.leaves ≠ [] := by
  cases h with
  | leaf => cases hk
  | node tokens _ => exact tokens (Option.some.inj hk ▸ hmatters)

theorem Filled.significant_leaves_ne_nil {k : NodeKind} (h : t.withoutTrivia.Filled matters)
    (hk : t.nodeKind? = some k) (hmatters : matters k) : significant t.leaves ≠ [] := by
  obtain ⟨children, rfl⟩ := eq_node_of_nodeKind? hk
  rw [← leaves_withoutTrivia _ rfl]
  exact h.leaves_ne_nil hk hmatters

theorem Filled.of_mem_nodes {c : Cursor} (h : ∀ u ∈ t.children, u.withoutTrivia.Filled matters)
    (hc : c ∈ (Cursor.ofTree t).nodes) (habove : c.above ≠ []) :
    c.tree.withoutTrivia.Filled matters :=
  Cursor.of_mem_nodes_below (P := fun c => c.tree.withoutTrivia.Filled matters)
    (fun _ hc _ he => hc.of_mem_children (Cursor.tree_mem_children he))
    (fun e he => h e.tree (Cursor.tree_mem_children he)) hc habove

end Tree

namespace Cursor

variable {matters : NodeKind → Prop} {c : Cursor}

theorem exists_mem_elements {u : Tree} (h : u ∈ c.tree.children) :
    ∃ e ∈ c.elements, e.tree = u := by
  rwa [← map_tree_elements, List.mem_map] at h

theorem exists_mem_elements_ofTree {t u : Tree} (h : u ∈ t.children) :
    ∃ e ∈ (ofTree t).elements, e.tree = u :=
  exists_mem_elements h

/-- A tree is filled if the nodes listed in it are. -/
theorem filled_of_forall_mem_nodes (h : ∀ x ∈ c.nodes, ∀ k, x.tree.nodeKind? = some k →
    matters k → x.tree.leaves ≠ []) : c.tree.Filled matters := by
  induction c using induction_elements with
  | h c ih =>
    cases hc : c.tree with
    | leaf t => exact .leaf
    | node k children =>
      have hk : c.tree.nodeKind? = some k := by rw [hc]; rfl
      refine .node (fun hmatters => ?_) fun t ht => ?_
      · have hleaves := h c (mem_nodes_self hk) k hk hmatters
        rwa [hc, Tree.leaves] at hleaves
      · obtain ⟨e, he, rfl⟩ := exists_mem_elements (show t ∈ c.tree.children from hc ▸ ht)
        exact ih e he fun x hx => h x (mem_nodes_of_mem_elements he hx)

end Cursor

/-! ## Texts -/

theorem filled_finalState (ts : List Token) : (finalState ts).Filled :=
  Grammar.filled_parseLexemes _ _

/-- Below the root of the tree of a text, every node has the tokens that it needs. -/
theorem filled_of_mem_children_parse (source : String) :
    ∀ t ∈ (parse source).tree.children,
      t.withoutTrivia.Filled (finalState (lex source)).Minds := by
  intro t ht
  cases t with
  | leaf b => exact .leaf
  | node k children =>
    refine filled_finalState (lex source) _ (List.mem_reverse.mp ?_)
    have hbuilt := withoutTrivia_parse source
    cases hroot : (parse source).tree with
    | leaf u => rw [hroot] at ht; exact absurd ht List.not_mem_nil
    | node root trees =>
      rw [hroot] at ht hbuilt
      rw [← (Tree.node.inj hbuilt).2]
      exact Tree.mem_forestWithoutTrivia.mpr ⟨_, ht, rfl, rfl⟩

namespace Cursor

variable {source : String} {c : Cursor}

theorem filled_of_mem_nodes (hc : c ∈ (ofTree (parse source).tree).nodes) (habove : c.above ≠ []) :
    c.tree.withoutTrivia.Filled (finalState (lex source)).Minds :=
  .of_mem_nodes (filled_of_mem_children_parse source) hc habove

/-- A node that introduces declarations has tokens. -/
theorem leaves_ne_nil_of_introduces (hc : c ∈ (ofTree (parse source).tree).nodes)
    (h : c.introduces?.isSome = true) : c.above ≠ [] ∧ c.tree.leaves ≠ [] := by
  obtain ⟨K, hK⟩ := Option.isSome_iff_exists.mp h
  obtain ⟨k, hk, hof⟩ := Option.bind_eq_some_iff.mp hK
  have hdeclared : k.isDeclared = true := by rw [NodeKind.isDeclared, hof]; rfl
  have hne : k ≠ .sourceFile := by
    rintro rfl
    exact nomatch hof
  have habove := above_ne_nil_of_nodeKind? hc hk hne
  refine ⟨habove, fun hleaves => ?_⟩
  have htokens := (filled_of_mem_nodes hc habove).significant_leaves_ne_nil hk (.inl hdeclared)
  exact htokens (by rw [hleaves]; rfl)

/-- A node of a text without problems has tokens that are no trivia, if it is not the root or an
    argument of an attribute. -/
theorem significant_leaves_ne_nil_of_ok {k : NodeKind} (hok : (parse source).ok = true)
    (hc : c ∈ (ofTree (parse source).tree).nodes) (habove : c.above ≠ [])
    (hk : c.tree.nodeKind? = some k) (hne : k ≠ .attributeArgument) :
    significant c.tree.leaves ≠ [] :=
  (filled_of_mem_nodes hc habove).significant_leaves_ne_nil hk (.inr ⟨reports_of_ok hok, hne⟩)

theorem leaves_ne_nil_of_ok {k : NodeKind} (hok : (parse source).ok = true)
    (hc : c ∈ (ofTree (parse source).tree).nodes) (habove : c.above ≠ [])
    (hk : c.tree.nodeKind? = some k) (hne : k ≠ .attributeArgument) : c.tree.leaves ≠ [] := by
  intro hleaves
  exact significant_leaves_ne_nil_of_ok hok hc habove hk hne (by rw [hleaves]; rfl)

end Cursor

end SwiftOutline
