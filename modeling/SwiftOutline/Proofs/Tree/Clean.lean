/-
  SwiftOutline.Proofs.Tree.Clean

  Places with nothing `unexpected` about them. Both ways to look at a tree show
  the same there: all that one of them would pass over is missing.
-/
import SwiftOutline.Proofs.Tree.Descent

namespace SwiftOutline

/-- Whether no node of an element and none around it is `unexpected`. -/
structure Cursor.Clean (c : Cursor) : Prop where
  inside : ∀ x ∈ c.nodes, x.isKind .unexpected = false
  around : ∀ f ∈ c.above, f.kind ≠ .unexpected

namespace Cursor

variable {c e x : Cursor} {m n : ViewMode} {k : NodeKind}

/-! ## What is clean -/

theorem Clean.kind_ne (h : c.Clean) (hk : c.tree.nodeKind? = some k) : k ≠ .unexpected := by
  have hnode := h.inside c (mem_nodes_self hk)
  rw [isKind, hk] at hnode
  simpa using hnode

theorem Clean.of_mem_elements (h : c.Clean) (he : e ∈ c.elements) : e.Clean := by
  refine ⟨fun x hx => h.inside x (mem_nodes_of_mem_elements he hx), ?_⟩
  obtain ⟨k, ts, t, us, htree, rfl⟩ := mem_elements.mp he
  intro f hf
  rcases List.mem_cons.mp hf with rfl | hf
  · -- the innermost frame has the kind of the parent
    exact h.kind_ne (by rw [htree, Tree.nodeKind?])
  · exact h.around f hf

theorem Clean.of_mem_nodes (h : c.Clean) (hx : x ∈ c.nodes) : x.Clean :=
  forall_mem_nodes (fun _ hc _ he => hc.of_mem_elements he) h x hx

theorem Clean.of_mem_children (h : c.Clean) (he : e ∈ c.children) : e.Clean :=
  h.of_mem_elements (List.mem_filter.mp he).1

theorem Clean.of_mem_childrenIn (h : c.Clean) (he : e ∈ c.childrenIn m) : e.Clean :=
  h.of_mem_children (List.mem_filter.mp he).1

theorem Clean.of_mem_childrenOf (h : c.Clean) (he : e ∈ c.childrenOf m k) : e.Clean :=
  h.of_mem_childrenIn (List.mem_filter.mp he).1

theorem Clean.of_child? (h : c.Clean) (he : c.child? k = some e) : e.Clean :=
  h.of_mem_elements (List.mem_of_find?_eq_some he)

theorem Clean.of_typeIn? (h : c.Clean) (he : c.typeIn? m = some e) : e.Clean :=
  h.of_mem_childrenIn (List.mem_of_find?_eq_some he)

/-! ## What is shown -/

/-- Nodes of a kind that is shown are found among all children. -/
theorem childrenOf_eq (hshows : m.shows k = true) (c : Cursor) :
    c.childrenOf m k = c.elements.filter fun e => e.isKind k := by
  rw [childrenOf, childrenIn, children, List.filter_filter, List.filter_filter]
  refine List.filter_congr fun e _ => ?_
  cases he : e.tree.nodeKind? with
  | none => simp [isKind, he]
  | some k' =>
    rw [isKind, visibleIn, he, Option.all_some, Option.isSome_some, Bool.and_true]
    cases heq : k' == k with
    | false =>
      have hne : k' ≠ k := by simpa using heq
      simp [hne]
    | true => rw [beq_iff_eq.mp heq, hshows, Bool.and_true]

/-- Types are always shown. -/
theorem typeIn?_eq (m : ViewMode) (c : Cursor) : c.typeIn? m = c.typeChild? := by
  rw [typeIn?, childrenIn, children, List.find?_filter, List.find?_filter, typeChild?]
  congr 1
  funext e
  rw [isType, visibleIn]
  cases hk : e.tree.nodeKind? with
  | none => rfl
  | some k =>
    have hshows : k.isType = true → m.shows k = true := by
      intro htype
      have hne : k ≠ .unexpected := by
        rintro rfl
        exact absurd htype (by decide)
      rw [ViewMode.shows, bne_iff_ne.mpr hne, Bool.or_true]
    simpa using hshows

/-- What is around an element is around its children. -/
theorem surroundedIn_of_mem_elements (he : e ∈ c.elements)
    (hk : c.tree.nodeKind? ≠ some .unexpected) (hc : c.surroundedIn m = true) :
    e.surroundedIn m = true := by
  obtain ⟨k, ts, t, us, htree, rfl⟩ := mem_elements.mp he
  have hne : k ≠ .unexpected := by
    rintro rfl
    exact hk (by rw [htree, Tree.nodeKind?])
  have hshows : m.shows k = true := by
    rw [ViewMode.shows, bne_iff_ne.mpr hne, Bool.or_true]
  show (_ :: c.above).all _ = true
  rw [List.all_cons, hshows, Bool.true_and]
  exact hc

theorem Clean.visibleIn (h : c.Clean) (m : ViewMode) : c.visibleIn m = true := by
  cases hk : c.tree.nodeKind? with
  | none => simp [Cursor.visibleIn, hk]
  | some k => simp [Cursor.visibleIn, hk, ViewMode.shows, h.kind_ne hk]

theorem Clean.childrenIn_eq (h : c.Clean) (m : ViewMode) : c.childrenIn m = c.children :=
  List.filter_eq_self.mpr fun _ he => (h.of_mem_children he).visibleIn m

theorem Clean.childrenIn_congr (h : c.Clean) : c.childrenIn m = c.childrenIn n := by
  rw [h.childrenIn_eq m, h.childrenIn_eq n]

theorem Clean.childrenOf_congr (h : c.Clean) : c.childrenOf m k = c.childrenOf n k := by
  rw [childrenOf, childrenOf, h.childrenIn_congr]

theorem Clean.typeIn?_congr (h : c.Clean) : c.typeIn? m = c.typeIn? n := by
  rw [typeIn?, typeIn?, h.childrenIn_congr]

/-! ## Reading what is shown -/

section Reading

variable {β : Type} {f g : Cursor → β}

theorem Clean.map_child?_congr (h : c.Clean) (hfg : ∀ e : Cursor, e.Clean → f e = g e) :
    (c.child? k).map f = (c.child? k).map g :=
  Option.map_congr fun e he => hfg e (h.of_child? he)

theorem Clean.map_childrenOf_congr (h : c.Clean) (hfg : ∀ e : Cursor, e.Clean → f e = g e) :
    (c.childrenOf m k).map f = (c.childrenOf n k).map g := by
  rw [h.childrenOf_congr (n := n)]
  exact List.map_congr_left fun e he => hfg e (h.of_mem_childrenOf he)

theorem Clean.filterMap_childrenOf_congr {f g : Cursor → Option β} (h : c.Clean)
    (hfg : ∀ e : Cursor, e.Clean → f e = g e) :
    (c.childrenOf m k).filterMap f = (c.childrenOf n k).filterMap g := by
  rw [h.childrenOf_congr (n := n)]
  exact List.filterMap_congr fun e he => hfg e (h.of_mem_childrenOf he)

theorem Clean.flatMap_childrenOf_congr {f g : Cursor → List β} (h : c.Clean)
    (hfg : ∀ e : Cursor, e.Clean → f e = g e) :
    (c.childrenOf m k).flatMap f = (c.childrenOf n k).flatMap g := by
  rw [h.childrenOf_congr (n := n)]
  exact List.flatMap_congr fun e he => hfg e (h.of_mem_childrenOf he)

end Reading

/-! ## Tokens -/

theorem tokensOfForest_eq {start : Nat} {above : List Frame} {before : List Tree} {offset : Nat}
    {rest : List Tree} :
    tokensOfForest k start above before offset rest =
      (childrenFrom k start above before offset rest).flatMap tokens := by
  induction rest generalizing before offset with
  | nil => rfl
  | cons t rest ih => rw [tokensOfForest, childrenFrom, List.flatMap_cons, ih, tokens]

theorem tokens_of_node (h : c.tree.nodeKind? = some k) : c.tokens = c.elements.flatMap tokens := by
  obtain ⟨tree, start, above⟩ := c
  cases tree with
  | leaf t => exact absurd h (by simp [Tree.nodeKind?])
  | node k children => rw [tokens, tokensOf, tokensOfForest_eq, elements]

theorem tokens_of_leaf (h : c.tree.nodeKind? = none) : c.tokens = [c] := by
  obtain ⟨tree, start, above⟩ := c
  cases tree with
  | leaf t => rfl
  | node k children => exact absurd h (by simp [Tree.nodeKind?])

theorem Clean.of_mem_tokens (h : c.Clean) (hx : x ∈ c.tokens) : x.Clean := by
  induction c using induction_elements with
  | h c ih =>
    cases hk : c.tree.nodeKind? with
    | none =>
      rw [tokens_of_leaf hk] at hx
      rw [List.mem_singleton.mp hx]
      exact h
    | some k =>
      rw [tokens_of_node hk] at hx
      obtain ⟨e, he, hx⟩ := List.mem_flatMap.mp hx
      exact ih e he (h.of_mem_elements he) hx

theorem Clean.surroundedIn (h : c.Clean) (m : ViewMode) : c.surroundedIn m = true := by
  refine List.all_eq_true.mpr fun f hf => ?_
  simp [ViewMode.shows, h.around f hf]

theorem Clean.tokensIn_congr (h : c.Clean) : c.tokensIn m = c.tokensIn n := by
  refine List.filterMap_congr fun t ht => ?_
  have htoken := h.of_mem_tokens ht
  rw [htoken.surroundedIn m, htoken.surroundedIn n]

/-! ## Searching -/

/-- Searches that differ only in what they do with `unexpected` nodes take the same nodes. -/
theorem Clean.gather_congr {visit visit' : NodeKind → Visit}
    (hvisit : ∀ k, k ≠ .unexpected → visit k = visit' k) (h : c.Clean) :
    c.gather visit = c.gather visit' := by
  induction c using induction_elements with
  | h c ih =>
    cases hk : c.tree.nodeKind? with
    | none => rw [gather_of_leaf hk, gather_of_leaf hk]
    | some k =>
      have hbelow : c.gatherBelow visit = c.gatherBelow visit' := by
        rw [gatherBelow_eq, gatherBelow_eq]
        exact List.flatMap_congr fun e he => ih e he (h.of_mem_elements he)
      rw [gather_of_node hk, gather_of_node hk, hvisit k (h.kind_ne hk), hbelow]

theorem Clean.gatherBelow_congr {visit visit' : NodeKind → Visit}
    (hvisit : ∀ k, k ≠ .unexpected → visit k = visit' k) (h : c.Clean) :
    c.gatherBelow visit = c.gatherBelow visit' := by
  rw [gatherBelow_eq, gatherBelow_eq]
  exact List.flatMap_congr fun e he => (h.of_mem_elements he).gather_congr hvisit

theorem Clean.of_mem_gatherBelow {visit : NodeKind → Visit} (h : c.Clean)
    (hx : x ∈ c.gatherBelow visit) : x.Clean := by
  rw [gatherBelow_eq] at hx
  obtain ⟨e, he, hx⟩ := List.mem_flatMap.mp hx
  exact (h.of_mem_elements he).of_mem_nodes (mem_nodes_of_mem_gather hx)

end Cursor

end SwiftOutline
