/-
  SwiftOutline.Proofs.Tree.Descent

  How the places in a tree hang together. Whatever stands below a cursor is
  reached from child to child, and its ancestors lead back the same way, so that
  no node is met twice when all nodes are listed.
-/
import Mathlib.Data.List.Nodup
import SwiftOutline.Tree.ViewMode
import SwiftOutline.TypeShape.Classify

namespace SwiftOutline

/-! ## Levels -/

namespace Tree

theorem height_le_forestHeight {t : Tree} {ts : List Tree} (h : t ∈ ts) :
    t.height ≤ forestHeight ts := by
  induction ts with
  | nil => exact absurd h List.not_mem_nil
  | cons u us ih =>
    rw [forestHeight]
    rcases List.mem_cons.mp h with rfl | h
    · exact Nat.le_max_left _ _
    · exact Nat.le_trans (ih h) (Nat.le_max_right _ _)

theorem height_lt_of_mem_children {t u : Tree} (h : u ∈ t.children) : u.height < t.height := by
  cases t with
  | leaf _ => exact absurd h List.not_mem_nil
  | node k children =>
    rw [height]
    exact Nat.lt_succ_of_le (height_le_forestHeight h)

end Tree

namespace Cursor

variable {c e x : Cursor}

theorem nodeKind?_of_isKind {k : NodeKind} (h : c.isKind k = true) : c.tree.nodeKind? = some k :=
  eq_of_beq h

/-! ## Children -/

theorem mem_childrenFrom {k : NodeKind} {start : Nat} {above : List Frame} {before : List Tree}
    {offset : Nat} {rest : List Tree} :
    e ∈ childrenFrom k start above before offset rest ↔
      ∃ ts t us, rest = ts ++ t :: us ∧
        e = ⟨t, offset + Tree.forestSize ts, ⟨k, start, ts.reverse ++ before, us⟩ :: above⟩ := by
  induction rest generalizing before offset with
  | nil => simp [childrenFrom]
  | cons r rest ih =>
    rw [childrenFrom, List.mem_cons, ih]
    constructor
    · rintro (rfl | ⟨ts, t, us, rfl, rfl⟩)
      · exact ⟨[], r, rest, rfl, by simp [Tree.forestSize]⟩
      · exact ⟨r :: ts, t, us, rfl, by simp [Tree.forestSize, Nat.add_assoc]⟩
    · rintro ⟨ts, t, us, hrest, rfl⟩
      cases ts with
      | nil =>
        obtain ⟨rfl, rfl⟩ := List.cons.inj hrest
        exact Or.inl (by simp [Tree.forestSize])
      | cons t' ts =>
        obtain ⟨rfl, rfl⟩ := List.cons.inj hrest
        exact Or.inr ⟨ts, t, us, rfl, by simp [Tree.forestSize, Nat.add_assoc]⟩

/-- A child stands behind its earlier siblings, and its frame holds all the others. -/
theorem mem_elements : e ∈ c.elements ↔
    ∃ k ts t us, c.tree = .node k (ts ++ t :: us) ∧
      e = ⟨t, c.start + Tree.forestSize ts, ⟨k, c.start, ts.reverse, us⟩ :: c.above⟩ := by
  obtain ⟨tree, start, above⟩ := c
  cases tree with
  | leaf t => simp [elements]
  | node k children =>
    rw [elements, mem_childrenFrom]
    constructor
    · rintro ⟨ts, t, us, rfl, rfl⟩
      exact ⟨k, ts, t, us, rfl, by simp⟩
    · rintro ⟨k, ts, t, us, htree, rfl⟩
      obtain ⟨rfl, rfl⟩ := Tree.node.inj htree
      exact ⟨ts, t, us, rfl, by simp⟩

theorem map_tree_childrenFrom {k : NodeKind} {start : Nat} {above : List Frame}
    {before : List Tree} {offset : Nat} {rest : List Tree} :
    (childrenFrom k start above before offset rest).map tree = rest := by
  induction rest generalizing before offset with
  | nil => rfl
  | cons t rest ih => rw [childrenFrom, List.map_cons, ih]

/-- The children of a cursor stand at the children of its tree. -/
theorem map_tree_elements (c : Cursor) : c.elements.map tree = c.tree.children := by
  obtain ⟨tree, start, above⟩ := c
  cases tree with
  | leaf t => rfl
  | node k children => exact map_tree_childrenFrom

theorem tree_mem_children (h : e ∈ c.elements) : e.tree ∈ c.tree.children := by
  rw [← map_tree_elements]
  exact List.mem_map_of_mem h

theorem length_above_of_mem_elements (h : e ∈ c.elements) :
    e.above.length = c.above.length + 1 := by
  obtain ⟨k, ts, t, us, -, rfl⟩ := mem_elements.mp h
  rfl

/-- Only a node has children. -/
theorem elements_of_leaf (h : c.tree.nodeKind? = none) : c.elements = [] := by
  rw [List.eq_nil_iff_forall_not_mem]
  intro e he
  obtain ⟨k, ts, t, us, htree, -⟩ := mem_elements.mp he
  rw [htree] at h
  exact absurd h (by simp [Tree.nodeKind?])

theorem childrenFrom_nodup {k : NodeKind} {start : Nat} {above : List Frame} {before : List Tree}
    {offset : Nat} {rest : List Tree} :
    (childrenFrom k start above before offset rest).Nodup := by
  induction rest generalizing before offset with
  | nil => exact List.nodup_nil
  | cons t rest ih =>
    refine List.nodup_cons.mpr ⟨fun hmem => ?_, ih⟩
    -- a later sibling has more elements before it
    obtain ⟨ts, t', us, -, heq⟩ := mem_childrenFrom.mp hmem
    simp only [Cursor.mk.injEq, List.cons.injEq, Frame.mk.injEq] at heq
    have hlength := congrArg List.length heq.2.2.1.2.2.1
    simp only [List.length_append, List.length_reverse, List.length_cons] at hlength
    omega

theorem elements_nodup (c : Cursor) : c.elements.Nodup := by
  obtain ⟨tree, start, above⟩ := c
  cases tree with
  | leaf t => exact List.nodup_nil
  | node k children => exact childrenFrom_nodup

/-- What holds of a cursor if it holds of its children holds of every cursor. -/
theorem induction_elements {P : Cursor → Prop} (h : ∀ c, (∀ e ∈ c.elements, P e) → P c)
    (c : Cursor) : P c := by
  induction hn : c.tree.height using Nat.strongRecOn generalizing c with
  | ind n ih =>
    subst hn
    exact h c fun e he => ih _ (Tree.height_lt_of_mem_children (tree_mem_children he)) e rfl

/-! ## Paths -/

/-- The element, its parent and so on, up to the root. -/
def path (c : Cursor) : List Cursor := c :: c.ancestors

theorem length_ancestorsOf (t : Tree) (above : List Frame) :
    (ancestorsOf t above).length = above.length := by
  induction above generalizing t with
  | nil => rfl
  | cons f above ih => rw [ancestorsOf, List.length_cons, List.length_cons, ih]

theorem length_ancestors (c : Cursor) : c.ancestors.length = c.above.length :=
  length_ancestorsOf _ _

theorem ancestors_of_mem_elements (h : e ∈ c.elements) : e.ancestors = c.path := by
  obtain ⟨k, ts, t, us, htree, rfl⟩ := mem_elements.mp h
  obtain ⟨tree, start, above⟩ := c
  subst htree
  simp only [ancestors, ancestorsOf, path, Frame.parent, List.reverse_reverse]

theorem length_path (c : Cursor) : c.path.length = c.above.length + 1 := by
  rw [path, List.length_cons, length_ancestors]

theorem path_of_mem_elements (h : e ∈ c.elements) : e.path = e :: c.path := by
  rw [path, ancestors_of_mem_elements h]

theorem map_depth_ancestorsOf (t : Tree) (above : List Frame) :
    (ancestorsOf t above).map (fun a => a.above.length) = (List.range above.length).reverse := by
  induction above generalizing t with
  | nil => rfl
  | cons f above ih =>
    rw [ancestorsOf, List.map_cons, ih, List.length_cons, List.range_succ, List.reverse_append]
    rfl

/-- A path leads through one element of each depth. -/
theorem map_depth_path (c : Cursor) :
    c.path.map (fun a => a.above.length) = (List.range (c.above.length + 1)).reverse := by
  rw [path, List.map_cons, ancestors, map_depth_ancestorsOf, List.range_succ, List.reverse_append]
  rfl

theorem eq_of_mem_path {a b : Cursor} (ha : a ∈ c.path) (hb : b ∈ c.path)
    (hdepth : a.above.length = b.above.length) : a = b := by
  refine List.inj_on_of_nodup_map (f := fun a : Cursor => a.above.length) ?_ ha hb hdepth
  rw [map_depth_path]
  exact List.nodup_reverse.mpr List.nodup_range

/-! ## Nodes -/

theorem nodes_of_leaf (h : c.tree.nodeKind? = none) : c.nodes = [] := by
  obtain ⟨tree, start, above⟩ := c
  cases tree with
  | leaf t => rfl
  | node k children => exact absurd h (by simp [Tree.nodeKind?])

theorem nodesOfForest_eq {k : NodeKind} {start : Nat} {above : List Frame} {before : List Tree}
    {offset : Nat} {rest : List Tree} :
    nodesOfForest k start above before offset rest =
      (childrenFrom k start above before offset rest).flatMap nodes := by
  induction rest generalizing before offset with
  | nil => rfl
  | cons t rest ih => rw [nodesOfForest, childrenFrom, List.flatMap_cons, ih, nodes]

/-- The nodes of a node are the node itself and those of its children. -/
theorem nodes_of_node {k : NodeKind} (h : c.tree.nodeKind? = some k) :
    c.nodes = c :: c.elements.flatMap nodes := by
  obtain ⟨tree, start, above⟩ := c
  cases tree with
  | leaf t => exact absurd h (by simp [Tree.nodeKind?])
  | node k children => rw [nodes, nodesOf, nodesOfForest_eq, elements]

/-- A node of a cursor is the cursor itself or a node of one of its children. -/
theorem eq_or_exists_of_mem_nodes (h : x ∈ c.nodes) :
    x = c ∨ ∃ e ∈ c.elements, x ∈ e.nodes := by
  cases hk : c.tree.nodeKind? with
  | none =>
    rw [nodes_of_leaf hk] at h
    exact absurd h List.not_mem_nil
  | some k =>
    rw [nodes_of_node hk] at h
    exact (List.mem_cons.mp h).imp_right List.mem_flatMap.mp

/-- What a cursor passes on to its children, it passes on to all nodes below it. -/
theorem forall_mem_nodes {P : Cursor → Prop} (h : ∀ c, P c → ∀ e ∈ c.elements, P e)
    (hc : P c) : ∀ x ∈ c.nodes, P x := by
  induction c using induction_elements with
  | h c ih =>
    intro x hx
    rcases eq_or_exists_of_mem_nodes hx with rfl | ⟨e, he, hx⟩
    · exact hc
    · exact ih e he (h c hc e he) x hx

/-- What holds of the children of a root, and of the children of what it holds of, holds of all
    nodes below the root. -/
theorem of_mem_nodes_below {P : Cursor → Prop} {t : Tree} (h : ∀ c, P c → ∀ e ∈ c.elements, P e)
    (hroot : ∀ e ∈ (ofTree t).elements, P e) (hx : x ∈ (ofTree t).nodes) (habove : x.above ≠ []) :
    P x := by
  rcases eq_or_exists_of_mem_nodes hx with rfl | ⟨e, he, hx⟩
  · exact absurd rfl habove
  · exact forall_mem_nodes h (hroot e he) x hx

theorem height_le_of_mem_nodes (h : x ∈ c.nodes) : x.tree.height ≤ c.tree.height := by
  refine forall_mem_nodes (P := fun x => x.tree.height ≤ c.tree.height) ?_ (Nat.le_refl _) x h
  intro d hd e he
  have hlt := Tree.height_lt_of_mem_children (tree_mem_children he)
  omega

/-- The way up from a node leads through the cursor that it is below. -/
theorem path_suffix_of_mem_nodes (h : x ∈ c.nodes) : c.path <:+ x.path := by
  induction c using induction_elements with
  | h c ih =>
    rcases eq_or_exists_of_mem_nodes h with rfl | ⟨e, he, hx⟩
    · exact List.suffix_refl _
    · have hsuffix := ih e he hx
      rw [path_of_mem_elements he] at hsuffix
      exact (List.suffix_cons e c.path).trans hsuffix

theorem mem_path_of_mem_nodes (h : x ∈ c.nodes) : c ∈ x.path :=
  (path_suffix_of_mem_nodes h).subset List.mem_cons_self

/-- A node is at least as deep as the cursor that it is below. -/
theorem length_above_le_of_mem_nodes (h : x ∈ c.nodes) : c.above.length ≤ x.above.length := by
  have hle := (path_suffix_of_mem_nodes h).length_le
  rw [length_path, length_path] at hle
  omega

/-- Of two cursors at one depth, a node is below one only. -/
theorem eq_of_mem_nodes {d : Cursor} (hc : x ∈ c.nodes) (hd : x ∈ d.nodes)
    (hdepth : c.above.length = d.above.length) : c = d := by
  exact eq_of_mem_path (mem_path_of_mem_nodes hc) (mem_path_of_mem_nodes hd) hdepth

/-- No node is listed twice. -/
theorem nodes_nodup (c : Cursor) : c.nodes.Nodup := by
  induction c using induction_elements with
  | h c ih =>
    cases hk : c.tree.nodeKind? with
    | none =>
      rw [nodes_of_leaf hk]
      exact List.nodup_nil
    | some k =>
      rw [nodes_of_node hk]
      refine List.nodup_cons.mpr ⟨fun hmem => ?_, List.nodup_flatMap.mpr ⟨ih, ?_⟩⟩
      · -- what is below a child is deeper than its parent
        obtain ⟨e, he, hc⟩ := List.mem_flatMap.mp hmem
        have hdeep := length_above_le_of_mem_nodes hc
        rw [length_above_of_mem_elements he] at hdeep
        omega
      · refine (elements_nodup c).pairwise_of_forall_ne fun e he d hd hne => ?_
        intro x hxe hxd
        refine hne (eq_of_mem_nodes hxe hxd ?_)
        rw [length_above_of_mem_elements he, length_above_of_mem_elements hd]

/-- The nodes of a child are nodes of its parent. -/
theorem mem_nodes_of_mem_elements (he : e ∈ c.elements) (hx : x ∈ e.nodes) : x ∈ c.nodes := by
  cases hk : c.tree.nodeKind? with
  | none =>
    rw [elements_of_leaf hk] at he
    exact absurd he List.not_mem_nil
  | some k =>
    rw [nodes_of_node hk]
    exact List.mem_cons_of_mem _ (List.mem_flatMap.mpr ⟨e, he, hx⟩)

theorem mem_nodes_self {k : NodeKind} (h : c.tree.nodeKind? = some k) : c ∈ c.nodes := by
  rw [nodes_of_node h]
  exact List.mem_cons_self

theorem mem_nodes_trans {y : Cursor} (hx : x ∈ c.nodes) (hy : y ∈ x.nodes) : y ∈ c.nodes := by
  induction c using induction_elements with
  | h c ih =>
    rcases eq_or_exists_of_mem_nodes hx with rfl | ⟨e, he, hx⟩
    · exact hy
    · exact mem_nodes_of_mem_elements he (ih e he hx)

/-! ## Ancestors below a root -/

/-- The parent of an element, its parent and so on, up to `root`, when the element is below it. -/
def ancestorsIn (c root : Cursor) : List Cursor :=
  c.ancestors.take (c.above.length - root.above.length)

@[simp] theorem ancestorsIn_self (c : Cursor) : c.ancestorsIn c = [] := by
  rw [ancestorsIn, Nat.sub_self, List.take_zero]

/-- One level further up there is one more ancestor. -/
theorem ancestorsIn_of_mem_elements (he : e ∈ c.elements) (hx : x ∈ e.nodes) :
    x.ancestorsIn c = x.ancestorsIn e ++ [c] := by
  obtain ⟨inner, hpath⟩ := path_suffix_of_mem_nodes hx
  rw [path_of_mem_elements he] at hpath
  have hdepth := length_above_of_mem_elements he
  have hlength := congrArg List.length hpath
  rw [List.length_append, List.length_cons, length_path, length_path] at hlength
  have hlevels : x.above.length - c.above.length = x.above.length - e.above.length + 1 := by omega
  -- on the way up from `x`, the parent of `e` comes behind `inner` and `e`
  have hparent : x.ancestors[x.above.length - e.above.length]? = some c := by
    have hnext : x.path[x.above.length - e.above.length + 1]? = some c := by
      have hinner : x.above.length - e.above.length = inner.length := by omega
      rw [← hpath, hinner, List.getElem?_append_right (Nat.le_succ _)]
      simp [path]
    simpa [path] using hnext
  rw [ancestorsIn, ancestorsIn, hlevels, List.take_add_one, hparent, Option.toList_some]

theorem mem_ancestors_of_mem_elements (he : e ∈ c.elements) (hx : x ∈ e.nodes) :
    c ∈ x.ancestors := by
  have hmem : c ∈ x.ancestorsIn c := by
    rw [ancestorsIn_of_mem_elements he hx]
    exact List.mem_append_right _ List.mem_cons_self
  exact List.mem_of_mem_take hmem

/-! ## Searching -/

variable {visit : NodeKind → Visit}

theorem gatherFromForest_eq {k : NodeKind} {start : Nat} {above : List Frame}
    {before : List Tree} {offset : Nat} {rest : List Tree} :
    gatherFromForest visit k start above before offset rest =
      (childrenFrom k start above before offset rest).flatMap (gather visit) := by
  induction rest generalizing before offset with
  | nil => rfl
  | cons t rest ih => rw [gatherFromForest, childrenFrom, List.flatMap_cons, ih, gather]

/-- A search below an element searches its children, from left to right. -/
theorem gatherBelow_eq (visit : NodeKind → Visit) (c : Cursor) :
    c.gatherBelow visit = c.elements.flatMap (gather visit) := by
  obtain ⟨tree, start, above⟩ := c
  cases tree with
  | leaf t => rfl
  | node k children => exact gatherFromForest_eq

theorem gather_of_leaf (h : c.tree.nodeKind? = none) : c.gather visit = [] := by
  obtain ⟨tree, start, above⟩ := c
  cases tree with
  | leaf t => rfl
  | node k children => exact absurd h (by simp [Tree.nodeKind?])

/-- A search at a node does what the node's kind asks for. -/
theorem gather_of_node {k : NodeKind} (h : c.tree.nodeKind? = some k) :
    c.gather visit =
      match visit k with
      | .take => [c]
      | .enter => c.gatherBelow visit
      | .skip => [] := by
  obtain ⟨tree, start, above⟩ := c
  cases tree with
  | leaf t => exact absurd h (by simp [Tree.nodeKind?])
  | node k' children =>
    obtain rfl : k' = k := by simpa [Tree.nodeKind?] using h
    rfl

/-- What a search takes are nodes. -/
theorem mem_nodes_of_mem_gather (h : x ∈ c.gather visit) : x ∈ c.nodes := by
  induction c using induction_elements with
  | h c ih =>
    cases hk : c.tree.nodeKind? with
    | none =>
      rw [gather_of_leaf hk] at h
      exact absurd h List.not_mem_nil
    | some k =>
      rw [gather_of_node hk] at h
      split at h
      · rw [List.mem_singleton.mp h]
        exact mem_nodes_self hk
      · rw [gatherBelow_eq] at h
        obtain ⟨e, he, hx⟩ := List.mem_flatMap.mp h
        exact mem_nodes_of_mem_elements he (ih e he hx)
      · exact absurd h List.not_mem_nil

theorem height_lt_of_mem_gatherBelow (h : x ∈ c.gatherBelow visit) :
    x.tree.height < c.tree.height := by
  rw [gatherBelow_eq] at h
  obtain ⟨e, he, hx⟩ := List.mem_flatMap.mp h
  exact Nat.lt_of_le_of_lt (height_le_of_mem_nodes (mem_nodes_of_mem_gather hx))
    (Tree.height_lt_of_mem_children (tree_mem_children he))

/-- Whether a search takes the node when it meets it. -/
def isTaken (visit : NodeKind → Visit) (c : Cursor) : Bool :=
  c.tree.nodeKind?.any fun k => visit k == .take

/-- Whether a search looks into the node when it meets it. -/
def isEntered (visit : NodeKind → Visit) (c : Cursor) : Bool :=
  c.tree.nodeKind?.any fun k => visit k == .enter

theorem gather_of_isTaken (h : c.isTaken visit = true) : c.gather visit = [c] := by
  cases hk : c.tree.nodeKind? with
  | none => rw [isTaken, hk] at h; exact nomatch h
  | some k =>
    rw [isTaken, hk, Option.any_some, beq_iff_eq] at h
    rw [gather_of_node hk, h]

theorem gather_of_isEntered (h : c.isEntered visit = true) :
    c.gather visit = c.gatherBelow visit := by
  cases hk : c.tree.nodeKind? with
  | none => rw [isEntered, hk] at h; exact nomatch h
  | some k =>
    rw [isEntered, hk, Option.any_some, beq_iff_eq] at h
    rw [gather_of_node hk, h]

theorem gather_of_passed (htaken : c.isTaken visit = false) (hentered : c.isEntered visit = false) :
    c.gather visit = [] := by
  cases hk : c.tree.nodeKind? with
  | none => exact gather_of_leaf hk
  | some k =>
    rw [isTaken, hk, Option.any_some, beq_eq_false_iff_ne] at htaken
    rw [isEntered, hk, Option.any_some, beq_eq_false_iff_ne] at hentered
    rw [gather_of_node hk]
    split
    · exact absurd ‹_› htaken
    · exact absurd ‹_› hentered
    · rfl

/-- What is not entered hides all that is below it. -/
theorem filter_nodes_of_not_isEntered {p : Cursor → Bool} (h : c.isEntered visit = false)
    (he : e ∈ c.elements) :
    (e.nodes.filter fun x => p x && (x.ancestorsIn c).all (isEntered visit)) = [] := by
  refine List.filter_eq_nil_iff.mpr fun x hx => ?_
  rw [ancestorsIn_of_mem_elements he hx, List.all_append, List.all_cons, h]
  simp

/-- What is entered hides nothing. -/
theorem filter_nodes_of_isEntered {p : Cursor → Bool} (h : c.isEntered visit = true)
    (he : e ∈ c.elements) :
    (e.nodes.filter fun x => p x && (x.ancestorsIn c).all (isEntered visit)) =
      e.nodes.filter fun x => p x && (x.ancestorsIn e).all (isEntered visit) := by
  refine List.filter_congr fun x hx => ?_
  rw [ancestorsIn_of_mem_elements he hx, List.all_append, List.all_cons, h]
  simp

/-- A search takes, in preorder, the nodes that it wants and whose ancestors it enters. -/
theorem gather_eq_filter (visit : NodeKind → Visit) (c : Cursor) :
    c.gather visit =
      c.nodes.filter fun x => x.isTaken visit && (x.ancestorsIn c).all (isEntered visit) := by
  induction c using induction_elements with
  | h c ih =>
    cases hk : c.tree.nodeKind? with
    | none => rw [gather_of_leaf hk, nodes_of_leaf hk, List.filter_nil]
    | some k =>
      rw [nodes_of_node hk, List.filter_cons, ancestorsIn_self, List.filter_flatMap]
      cases hentered : c.isEntered visit with
      | true =>
        have htaken : c.isTaken visit = false := by
          rw [isEntered, hk, Option.any_some, beq_iff_eq] at hentered
          rw [isTaken, hk, Option.any_some, hentered]
          rfl
        rw [gather_of_isEntered hentered, gatherBelow_eq, htaken]
        exact List.flatMap_congr fun e he => by
          rw [ih e he, filter_nodes_of_isEntered hentered he]
      | false =>
        have hbelow := List.flatMap_eq_nil_iff.mpr fun e he =>
          filter_nodes_of_not_isEntered (p := isTaken visit) hentered he
        cases htaken : c.isTaken visit with
        | true => simp [gather_of_isTaken htaken, hbelow]
        | false => simp [gather_of_passed htaken hentered, hbelow]

end Cursor

end SwiftOutline
