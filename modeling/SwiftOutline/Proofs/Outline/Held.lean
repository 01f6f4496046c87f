/-
  SwiftOutline.Proofs.Outline.Held

  What an outline records altogether. A node is recorded if all declarations
  around it hold it in a part that they search, and then it is recorded once;
  of a `let` or `var` every binding is, and there is always one.
-/
import SwiftOutline.Proofs.Outline.Expansion
import SwiftOutline.Proofs.Tree.Recovery

namespace SwiftOutline

variable {m : ViewMode} {c e root x : Cursor}

/-! ## What is held -/

namespace Cursor

/-- Whether the declaration of `a` finds what stands at `x`: it is below a part that is searched. -/
def Holds (m : ViewMode) (a x : Cursor) : Prop := ∃ b ∈ a.entries m, b ∈ x.ancestors

/-- Whether a node below `root` introduces declarations that are found from there. -/
structure Held (m : ViewMode) (root x : Cursor) : Prop where
  introduces : x.introduces?.isSome = true
  visible : ∀ a ∈ x :: x.ancestorsIn root, a.visibleIn m = true
  held : ∀ a ∈ x.ancestorsIn root, a.introduces?.isSome = true → a.Holds m x
  noPart : ∀ a ∈ x.ancestorsIn root, a.isPart = false

/-- Seen from one level further up, a node is held under the conditions on that level. -/
theorem held_iff_of_mem_elements (he : e ∈ c.elements) (hx : x ∈ e.nodes) :
    Held m c x ↔ Held m e x ∧ c.visibleIn m = true ∧ c.isPart = false ∧
      (c.introduces?.isSome = true → c.Holds m x) := by
  have hup := ancestorsIn_of_mem_elements he hx
  constructor
  · rintro ⟨hintro, hvisible, hheld, hpart⟩
    rw [hup] at hvisible hheld hpart
    -- the new level is the outermost one
    have hc : c ∈ x.ancestorsIn e ++ [c] := List.mem_append_right _ List.mem_cons_self
    refine ⟨⟨hintro, ?_, ?_, ?_⟩, hvisible c (List.mem_cons_of_mem _ hc), hpart c hc, hheld c hc⟩
    · exact fun a ha => hvisible a (List.mem_append_left [c] ha)
    · exact fun a ha => hheld a (List.mem_append_left _ ha)
    · exact fun a ha => hpart a (List.mem_append_left _ ha)
  · rintro ⟨⟨hintro, hvisible, hheld, hpart⟩, hcvisible, hcpart, hcheld⟩
    refine ⟨hintro, ?_, ?_, ?_⟩
    all_goals rw [hup]
    · intro a ha
      rcases List.mem_append.mp (List.cons_append ▸ ha) with ha | ha
      · exact hvisible a ha
      · rw [List.mem_singleton.mp ha]
        exact hcvisible
    · intro a ha
      rcases List.mem_append.mp ha with ha | ha
      · exact hheld a ha
      · rw [List.mem_singleton.mp ha]
        exact hcheld
    · intro a ha
      rcases List.mem_append.mp ha with ha | ha
      · exact hpart a ha
      · rw [List.mem_singleton.mp ha]
        exact hcpart

theorem held_self_iff : Held m c c ↔ c.introduces?.isSome = true ∧ c.visibleIn m = true := by
  constructor
  · exact fun h => ⟨h.introduces, h.visible c List.mem_cons_self⟩
  · rintro ⟨hintro, hvisible⟩
    refine ⟨hintro, ?_, ?_, ?_⟩
    all_goals simp [hvisible]

theorem introduces?_of_isPart (h : c.isPart = true) : c.introduces? = none := by
  unfold isPart isKind at h
  rw [Bool.or_eq_true, beq_iff_eq, beq_iff_eq] at h
  rcases h with h | h <;> rw [introduces?, h] <;> rfl

theorem nodeKind?_of_child? {k : NodeKind} (h : c.child? k = some e) :
    e.tree.nodeKind? = some k := by
  have hkind := List.find?_some h
  exact nodeKind?_of_isKind hkind

/-- Kinds of the parts that are searched. -/
theorem isKind_of_mem_entries {b : Cursor} (hb : b ∈ c.entries m) (hne : b ≠ c) :
    ∃ k ∈ [NodeKind.memberBlock, .codeBlock, .accessorBlock, .ifConfigClause],
      b.tree.nodeKind? = some k := by
  have hchild : ∀ {k}, b ∈ (c.child? k).toList → b.tree.nodeKind? = some k :=
    fun hb => nodeKind?_of_child? (Option.mem_toList.mp hb)
  unfold entries at hb
  split at hb
  all_goals first
    | exact ⟨_, by decide, hchild hb⟩
    | exact absurd (List.mem_singleton.mp hb) hne
    | exact absurd hb List.not_mem_nil
    | skip
  -- only conditional compilation has several parts
  exact ⟨_, by decide, nodeKind?_of_isKind (List.mem_filter.mp hb).2⟩

/-- The parts that are searched are visible and neither introduce declarations nor are parts of
    one. -/
theorem plain_of_mem_entries {b : Cursor} (hb : b ∈ c.entries m) (hne : b ≠ c) :
    b.visibleIn m = true ∧ b.isPart = false ∧ b.introduces? = none := by
  obtain ⟨k, hmem, hk⟩ := isKind_of_mem_entries hb hne
  have hplain : ∀ k ∈ [NodeKind.memberBlock, .codeBlock, .accessorBlock, .ifConfigClause],
      m.shows k = true ∧ (k == .associatedTypeDecl || k == .enumCaseDecl) = false ∧
        DeclarationKind.ofNode? k = none := by
    cases m <;> decide
  obtain ⟨hshows, hpart, hnone⟩ := hplain k hmem
  refine ⟨?_, ?_, ?_⟩
  · rw [visibleIn, hk]
    exact hshows
  · rw [isPart, isKind, isKind, hk]
    exact hpart
  · rw [introduces?, hk]
    exact hnone

/-! ### Searches -/

open Classical in
/-- The nodes below `root` that are held, in preorder. -/
noncomputable def heldIn (m : ViewMode) (root : Cursor) : List Cursor :=
  root.nodes.filter fun x => Held m root x

open Classical in
theorem mem_heldIn : x ∈ heldIn m root ↔ x ∈ root.nodes ∧ Held m root x := by
  rw [heldIn, List.mem_filter, decide_eq_true_eq]

theorem heldIn_of_leaf (h : c.tree.nodeKind? = none) : heldIn m c = [] := by
  rw [heldIn, nodes_of_leaf h, List.filter_nil]

open Classical in
/-- A node that does not count itself holds what its children do. -/
theorem heldIn_of_passed {k : NodeKind} (hk : c.tree.nodeKind? = some k)
    (hself : ¬ Held m c c)
    (hbelow : ∀ e ∈ c.elements, ∀ x ∈ e.nodes, Held m c x ↔ Held m e x) :
    heldIn m c = c.elements.flatMap (heldIn m) := by
  rw [heldIn, nodes_of_node hk, List.filter_cons_of_neg (by simpa using hself),
    List.filter_flatMap]
  refine List.flatMap_congr fun e he => List.filter_congr fun x hx => ?_
  exact decide_eq_decide.mpr (hbelow e he x hx)

end Cursor

namespace Outline

open Cursor Declaration

theorem introduces?_of_mem_gather (h : x ∈ c.gather (visitDeclarations m)) :
    x.introduces?.isSome = true := by
  rw [gather_visitDeclarations] at h
  exact (Bool.and_eq_true _ _ ▸ (List.mem_filter.mp h).2).1

theorem introduces?_of_mem_gatherBelow (h : x ∈ c.gatherBelow (visitDeclarations m)) :
    x.introduces?.isSome = true := by
  rw [gatherBelow_eq] at h
  obtain ⟨e, -, hx⟩ := List.mem_flatMap.mp h
  exact introduces?_of_mem_gather hx

theorem allRecords_ofCursor_eq (m : ViewMode) (c : Cursor) :
    (allRecords (ofCursor m c)).Perm
      ((c.gather (visitDeclarations m)).flatMap fun x => allRecords (read m x)) :=
  allRecords_ofNodes fun _ => introduces?_of_mem_gather

/-- A search below a node finds what searches at its children do. -/
theorem allRecords_belowWith (m : ViewMode) (c : Cursor) :
    (allRecords (belowWith (read m) m c)).Perm
      (c.elements.flatMap fun e => allRecords (ofCursor m e)) := by
  refine (allRecords_ofNodes fun _ => introduces?_of_mem_gatherBelow).trans ?_
  rw [gatherBelow_eq, List.flatMap_assoc]
  exact List.Perm.flatMap_left _ fun e _ => (allRecords_ofCursor_eq m e).symm

/-- What is hidden, or a part of an enumeration or protocol, holds nothing. -/
theorem allRecords_ofCursor_of_skipped {k : NodeKind} (hk : c.tree.nodeKind? = some k)
    (h : ¬ (c.visibleIn m = true ∧ c.isPart = false)) :
    allRecords (ofCursor m c) = [] ∧ heldIn m c = [] := by
  have hself : ¬ (c.introduces?.isSome = true ∧ c.visibleIn m = true) := by
    rintro ⟨hintro, hvisible⟩
    cases hpart : c.isPart with
    | true =>
      rw [introduces?_of_isPart hpart] at hintro
      exact absurd hintro (by simp)
    | false => exact h ⟨hvisible, hpart⟩
  constructor
  · have htaken : c.isTaken (visitDeclarations m) = false := by
      rw [isTaken_visitDeclarations, Bool.eq_false_iff]
      exact fun hall => hself (Bool.and_eq_true_iff.mp hall)
    have hentered : c.isEntered (visitDeclarations m) = false := by
      rw [isEntered_visitDeclarations m hk, Bool.eq_false_iff]
      intro hall
      simp only [Bool.and_eq_true, Bool.not_eq_true'] at hall
      exact h ⟨hall.1, hall.2.2⟩
    rw [ofCursor, gather_of_passed htaken hentered]
    rfl
  · refine List.eq_nil_iff_forall_not_mem.mpr fun x hx => ?_
    obtain ⟨hx, hheld⟩ := mem_heldIn.mp hx
    rcases eq_or_exists_of_mem_nodes hx with rfl | ⟨e, he, hx⟩
    · exact hself (held_self_iff.mp hheld)
    · obtain ⟨-, hvisible, hpart, -⟩ := (held_iff_of_mem_elements he hx).mp hheld
      exact h ⟨hvisible, hpart⟩

open Classical in
/-- Of a list without repetitions, the part that is mapped to something is what counts. -/
theorem flatMap_ite_mem {α β : Type} {l l' : List α} (h : l'.Sublist l)
    (hnodup : l.Nodup) (f : α → List β) :
    (l.flatMap fun a => if a ∈ l' then f a else []) = l'.flatMap f := by
  induction h with
  | slnil => rfl
  | @cons l₁ l₂ a h ih =>
    obtain ⟨ha, hnodup⟩ := List.nodup_cons.mp hnodup
    rw [List.flatMap_cons, if_neg (fun hmem => ha (h.subset hmem)), ih hnodup, List.nil_append]
  | @cons_cons l₁ l₂ a h ih =>
    obtain ⟨ha, hnodup⟩ := List.nodup_cons.mp hnodup
    have hrest : (l₂.flatMap fun b => if b ∈ a :: l₁ then f b else []) =
        l₂.flatMap fun b => if b ∈ l₁ then f b else [] := by
      refine List.flatMap_congr fun b hb => if_congr ?_ rfl rfl
      have hne : b ≠ a := fun heq => ha (heq ▸ hb)
      simp [hne]
    rw [List.flatMap_cons, if_pos List.mem_cons_self, hrest, ih hnodup, List.flatMap_cons]

open Classical in
/-- A part that is searched passes on what its children hold; the rest of the node passes on
    nothing. -/
theorem filter_nodes_of_introduces (hself : c.visibleIn m = true ∧ c.isPart = false)
    (hintro : c.introduces?.isSome = true) (hentries : (c.entries m).Sublist c.elements)
    (he : e ∈ c.elements) :
    (e.nodes.filter fun x => Held m c x) =
      if e ∈ c.entries m then e.elements.flatMap (heldIn m) else [] := by
  have hdepth := length_above_of_mem_elements he
  split
  · next hentry =>
    have hne : e ≠ c := by
      rintro rfl
      omega
    obtain ⟨hvisible, hpart, hnone⟩ := plain_of_mem_entries hentry hne
    obtain ⟨k, -, hk⟩ := isKind_of_mem_entries hentry hne
    have hnotself : ¬ Held m e e := by
      rw [held_self_iff, hnone]
      simp
    have hbelow : ∀ e' ∈ e.elements, ∀ x ∈ e'.nodes, Held m e x ↔ Held m e' x := by
      intro e' he' x hx
      rw [held_iff_of_mem_elements he' hx]
      simp [hvisible, hpart, hnone]
    rw [← heldIn_of_passed hk hnotself hbelow]
    refine List.filter_congr fun x hx => decide_eq_decide.mpr ?_
    rw [held_iff_of_mem_elements he hx]
    refine ⟨And.left, fun hheld => ⟨hheld, hself.1, hself.2, fun _ => ⟨e, hentry, ?_⟩⟩⟩
    rcases eq_or_exists_of_mem_nodes hx with rfl | ⟨e', he', hx⟩
    · exact absurd hheld hnotself
    · exact mem_ancestors_of_mem_elements he' hx
  · next hentry =>
    refine List.filter_eq_nil_iff.mpr fun x hx => ?_
    rw [decide_eq_true_eq, held_iff_of_mem_elements he hx]
    rintro ⟨-, -, -, hholds⟩
    obtain ⟨b, hb, hbx⟩ := hholds hintro
    -- a part around the node is at the depth of `e`, so it is `e`
    have hbe : b = e := by
      refine eq_of_mem_path (List.mem_cons_of_mem _ hbx) (mem_path_of_mem_nodes hx) ?_
      rw [length_above_of_mem_elements (hentries.subset hb), hdepth]
    exact hentry (hbe ▸ hb)

open Classical in
/-- A node that introduces declarations holds what stands below the parts that are searched. -/
theorem heldIn_of_introduces {k : NodeKind} (hk : c.tree.nodeKind? = some k)
    (hself : c.visibleIn m = true ∧ c.isPart = false) (hintro : c.introduces?.isSome = true) :
    heldIn m c = c :: (c.entries m).flatMap fun b => b.elements.flatMap (heldIn m) := by
  have hheld : Held m c c := held_self_iff.mpr ⟨hintro, hself.1⟩
  rw [heldIn, nodes_of_node hk, List.filter_cons_of_pos (by simpa using hheld),
    List.filter_flatMap]
  congr 1
  rcases entries_eq_self_or_sublist m c with hentries | hentries
  · -- the node is searched as a whole, so it holds whatever its children do
    rw [hentries, List.flatMap_singleton]
    refine List.flatMap_congr fun e he => List.filter_congr fun x hx => decide_eq_decide.mpr ?_
    rw [held_iff_of_mem_elements he hx]
    refine ⟨And.left, fun hheld => ⟨hheld, hself.1, hself.2, fun _ => ⟨c, ?_, ?_⟩⟩⟩
    · rw [hentries]
      exact List.mem_cons_self
    · exact mem_ancestors_of_mem_elements he hx
  · rw [← flatMap_ite_mem hentries (elements_nodup c)]
    exact List.flatMap_congr fun e he => filter_nodes_of_introduces hself hintro hentries he

/-- A node that is neither skipped nor introduces anything passes on what is below it. -/
theorem allRecords_ofCursor_of_passed {k : NodeKind} (hk : c.tree.nodeKind? = some k)
    (hself : c.visibleIn m = true ∧ c.isPart = false) (hK : c.introduces? = none)
    (hbelow : (allRecords (belowWith (read m) m c)).Perm
      ((c.elements.flatMap (heldIn m)).flatMap (records m))) :
    (allRecords (ofCursor m c)).Perm ((heldIn m c).flatMap (records m)) := by
  have hentered : c.isEntered (visitDeclarations m) = true := by
    rw [isEntered_visitDeclarations m hk, hself.1, hself.2, hK]
    rfl
  have hnotself : ¬ Held m c c := by
    rw [held_self_iff, hK]
    simp
  have hheld : ∀ e ∈ c.elements, ∀ x ∈ e.nodes, Held m c x ↔ Held m e x := by
    intro e he x hx
    rw [held_iff_of_mem_elements he hx]
    simp [hself, hK]
  rw [heldIn_of_passed hk hnotself hheld, ofCursor, gather_of_isEntered hentered]
  exact hbelow

/-- A node that introduces declarations is recorded itself, before what is below its parts. -/
theorem allRecords_ofCursor_of_introduces {k : NodeKind} {K : DeclarationKind}
    (hk : c.tree.nodeKind? = some k) (hself : c.visibleIn m = true ∧ c.isPart = false)
    (hK : c.introduces? = some K)
    (hbelow : ∀ b ∈ c.entries m, (allRecords (belowWith (read m) m b)).Perm
      ((b.elements.flatMap (heldIn m)).flatMap (records m))) :
    (allRecords (ofCursor m c)).Perm ((heldIn m c).flatMap (records m)) := by
  have htaken : c.isTaken (visitDeclarations m) = true := by
    rw [isTaken_visitDeclarations, hself.1, hK]
    rfl
  refine (allRecords_ofCursor_eq m c).trans ?_
  rw [gather_of_isTaken htaken, List.flatMap_singleton, read_eq_readWith, allRecords_readWith hK,
    heldIn_of_introduces hk hself (by rw [hK]; rfl), List.flatMap_cons, List.flatMap_assoc]
  exact List.Perm.append_left _ (List.Perm.flatMap_left _ hbelow)

/-- All that an outline records, in nested declarations too, are the nodes that are held, each
    of them once. -/
theorem allRecords_ofCursor (m : ViewMode) (c : Cursor) :
    (allRecords (ofCursor m c)).Perm ((heldIn m c).flatMap (records m)) := by
  induction hn : c.tree.height using Nat.strongRecOn generalizing c with
  | ind n ih =>
    subst hn
    have hlt : ∀ e ∈ c.elements, e.tree.height < c.tree.height :=
      fun e he => Tree.height_lt_of_mem_children (tree_mem_children he)
    -- a search below a node finds what the children of the node hold
    have hsearch : ∀ b : Cursor, (∀ e ∈ b.elements, e.tree.height < c.tree.height) →
        (allRecords (belowWith (read m) m b)).Perm
          ((b.elements.flatMap (heldIn m)).flatMap (records m)) := by
      intro b hb
      rw [List.flatMap_assoc]
      refine (allRecords_belowWith m b).trans ?_
      exact List.Perm.flatMap_left _ fun e he => ih _ (hb e he) e rfl
    have hentry : ∀ b ∈ c.entries m, ∀ e ∈ b.elements, e.tree.height < c.tree.height := by
      intro b hb e he
      rcases entries_eq_self_or_sublist m c with hentries | hentries
      · rw [hentries, List.mem_singleton] at hb
        exact hlt e (hb ▸ he)
      · exact Nat.lt_trans (Tree.height_lt_of_mem_children (tree_mem_children he))
          (hlt b (hentries.subset hb))
    cases hk : c.tree.nodeKind? with
    | none =>
      rw [heldIn_of_leaf hk, ofCursor, gather_of_leaf hk]
      exact .refl _
    | some k =>
      by_cases hself : c.visibleIn m = true ∧ c.isPart = false
      · cases hK : c.introduces? with
        | none => exact allRecords_ofCursor_of_passed hk hself hK (hsearch c hlt)
        | some K =>
          exact allRecords_ofCursor_of_introduces hk hself hK fun b hb => hsearch b (hentry b hb)
      · obtain ⟨hrecords, hheld⟩ := allRecords_ofCursor_of_skipped hk hself
        rw [hrecords, hheld]
        exact .refl _

end Outline

/-! ## Bindings -/

namespace Cursor

theorem complete_of_mem_elements (h : c.tree.Complete) (he : e ∈ c.elements) :
    e.tree.Complete := by
  obtain ⟨k, ts, t, us, htree, rfl⟩ := mem_elements.mp he
  rw [htree] at h
  cases h with
  | node _ inside => exact inside t (List.mem_append_right _ List.mem_cons_self)

/-- The part that a node has to have is one of its children. -/
theorem exists_part {k p : NodeKind} (h : c.tree.Complete) (hk : c.tree.nodeKind? = some k)
    (hp : k.part? = some p) : ∃ e ∈ c.elements, e.tree.nodeKind? = some p := by
  have hhas : Tree.Has p c.tree.children := by
    cases hc : c.tree with
    | leaf t => rw [hc] at hk; exact nomatch hk
    | node k' children =>
      rw [hc] at h hk
      obtain rfl : k' = k := Option.some.inj hk
      cases h with
      | node part _ => exact part p hp
  obtain ⟨t, ht, hkind⟩ := hhas
  rw [← map_tree_elements] at ht
  obtain ⟨e, he, rfl⟩ := List.mem_map.mp ht
  exact ⟨e, he, hkind⟩

/-- A `let` or `var` has a binding, and it is visible. -/
theorem bindingsIn_ne_nil (m : ViewMode) (h : c.tree.Complete)
    (hc : c.tree.nodeKind? = some .variableDecl) : c.bindingsIn m ≠ [] := by
  obtain ⟨list, hlist, hkind⟩ := exists_part h hc rfl
  cases hfound : c.child? .patternBindingList with
  | none =>
    have hnone := List.find?_eq_none.mp hfound list hlist
    simp [isKind, hkind] at hnone
  | some list' =>
    have hcomplete := complete_of_mem_elements h (List.mem_of_find?_eq_some hfound)
    obtain ⟨b, hb, hbinding⟩ := exists_part hcomplete (nodeKind?_of_child? hfound) rfl
    have hvisible : b.visibleIn m = true := by
      rw [visibleIn, hbinding]
      cases m <;> rfl
    have hmem : b ∈ list'.childrenOf m .patternBinding := by
      simp [childrenOf, childrenIn, children, hb, hvisible, isKind, hbinding]
    rw [bindingsIn, hfound, Option.map_some, Option.getD_some]
    exact List.ne_nil_of_mem hmem

/-- Of each node that introduces declarations, one at least is recorded. -/
theorem records_ne_nil (m : ViewMode) (h : c.tree.Complete)
    (hintro : c.introduces?.isSome = true) : c.records m ≠ [] := by
  unfold records
  split
  · next hnone =>
    rw [hnone] at hintro
    exact nomatch hintro
  · next hbinding =>
    have hkind := Declaration.isKind_variableDecl hbinding
    have hlist := bindingsIn_ne_nil m h (nodeKind?_of_isKind hkind)
    simpa using hlist
  · exact List.cons_ne_nil _ _

end Cursor

/-! ## Outlines of the nodes of a text -/

/-- Whether the outline of a node loses nothing and lists nothing twice. -/
structure Outline.Exact (m : ViewMode) (root : Cursor) : Prop where
  /-- For each kind, in preorder, the declarations are those of the visible nodes of that kind that
      stand below no other node that introduces declarations, and in no part of an enumeration or
      protocol. -/
  outermost : ∀ K, ((ofCursor m root).sequence K).map Declaration.record =
    (root.nodes.filter fun c => c.introduces? == some K && c.isOutermost m root).flatMap
      (Cursor.records m)
  /-- Of each node that introduces declarations there is at least one to record. -/
  records_ne_nil : ∀ c ∈ root.nodes, c.introduces?.isSome = true → c.records m ≠ []
  /-- With all that are nested in them, the declarations are those of the nodes that are held. -/
  nested : (Declaration.allRecords (ofCursor m root)).Perm
    ((Cursor.heldIn m root).flatMap (Cursor.records m))
  /-- A node is held if it is visible, stands in no part of an enumeration or protocol, and every
      declaration around it searches a part that it is below. -/
  held : ∀ c, c ∈ Cursor.heldIn m root ↔ c ∈ root.nodes ∧ Cursor.Held m root c
  /-- No node is held twice. -/
  nodup : (Cursor.heldIn m root).Nodup

/-- The outline of every node in the tree of a text is exact, however the tree is looked at. -/
theorem outline_exact {source : String} {root : Cursor} (m : ViewMode)
    (hroot : root ∈ (Cursor.ofTree (parse source).tree).nodes) : Outline.Exact m root := by
  have hcomplete : ∀ c ∈ root.nodes, c.tree.Complete := by
    have pass : ∀ c : Cursor, c.tree.Complete → ∀ e ∈ c.elements, e.tree.Complete :=
      fun c hc e he => Cursor.complete_of_mem_elements hc he
    have hroot' := Cursor.forall_mem_nodes pass (complete_parse source) root hroot
    exact Cursor.forall_mem_nodes pass hroot'
  refine ⟨fun K => ?_, fun c hc => Cursor.records_ne_nil m (hcomplete c hc),
    Outline.allRecords_ofCursor m root, fun c => Cursor.mem_heldIn, ?_⟩
  · rw [Outline.sequence_ofCursor, List.map_flatMap]
    refine List.flatMap_congr fun c hc => ?_
    have hcond := (List.mem_filter.mp hc).2
    rw [Bool.and_eq_true, beq_iff_eq] at hcond
    exact Declaration.map_record_read hcond.1
  · exact (Cursor.nodes_nodup root).filter _

/-- The members of a type are a node whose outline has two variables. -/
theorem outline_exact_members :
    ∃ root ∈ (Cursor.ofTree (parse "struct S { var a, b: Int }").tree).nodes,
      root.isKind .memberBlock = true ∧
      ((Outline.ofCursor .fixedUp root).sequence .binding).length = 2 ∧
      Outline.Exact .fixedUp root := by
  have hfound : ((Cursor.ofTree (parse "struct S { var a, b: Int }").tree).nodes.any fun c =>
      c.isKind .memberBlock &&
        ((Outline.ofCursor .fixedUp c).sequence .binding).length == 2) = true := by
    decide +kernel
  obtain ⟨root, hroot, hcond⟩ := List.any_eq_true.mp hfound
  rw [Bool.and_eq_true, beq_iff_eq] at hcond
  exact ⟨root, hroot, hcond.1, hcond.2, outline_exact .fixedUp hroot⟩

end SwiftOutline
