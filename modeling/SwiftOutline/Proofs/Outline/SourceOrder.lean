/-
  SwiftOutline.Proofs.Outline.SourceOrder

  The declarations of an outline in the order of the text. An outline groups them
  by kind, and sorting them by their spans brings back the order in which the
  search met their nodes: these have tokens and stand apart, so each ends before
  the next begins, and the variables of one node, which share its span, keep their
  order because the sorting is stable.
-/
import Mathlib.Data.List.Flatten
import SwiftOutline.Outline.Access
import SwiftOutline.Proofs.Outline.Held
import SwiftOutline.Proofs.Tree.Filled
import SwiftOutline.Proofs.Tree.Trimmed

namespace SwiftOutline

/-! ## Sorting blocks -/

section Blocks

variable {α ι : Type} {le : α → α → Bool} {is : List ι} {block : ι → List α} {l : List α}

theorem sublist_flatMap_of_mem {i : ι} (block : ι → List α) (hi : i ∈ is) :
    (block i).Sublist (is.flatMap block) := by
  rw [List.flatMap_def]
  exact List.sublist_flatten_of_mem (List.mem_map_of_mem hi)

/-- A list in which the elements with a property come first. -/
theorem eq_filter_append_filter {p : α → Bool}
    (h : l.Pairwise fun a b => p b = true → p a = true) :
    l = l.filter p ++ l.filter fun a => !p a := by
  induction l with
  | nil => rfl
  | cons a l ih =>
    obtain ⟨ha, hl⟩ := List.pairwise_cons.mp h
    cases hp : p a with
    | true =>
      rw [List.filter_cons_of_pos hp, List.filter_cons_of_neg (by simp [hp]), List.cons_append,
        ← ih hl]
    | false =>
      -- then none of the others has it
      have hnone : ∀ b ∈ l, p b = false := by
        intro b hb
        cases hpb : p b with
        | false => rfl
        | true => exact (ha b hb hpb).symm.trans hp
      rw [List.filter_eq_nil_iff.mpr (by simpa [hp] using hnone), List.nil_append,
        List.filter_eq_self.mpr (by simpa [hp] using hnone)]

open Classical in
/-- A sorted list that holds blocks in their order is made of them, if each block comes strictly
    before the next. -/
theorem eq_flatMap_of_pairwise (hrefl : ∀ a, le a a = true)
    (hsorted : l.Pairwise fun a b => le a b = true) (hperm : l.Perm (is.flatMap block))
    (hblocks : ∀ i ∈ is, (block i).Sublist l)
    (hapart : is.Pairwise fun i j => ∀ a ∈ block i, ∀ b ∈ block j, le b a = false) :
    l = is.flatMap block := by
  induction is generalizing l with
  | nil => exact List.perm_nil.mp hperm
  | cons i is ih =>
    rw [List.flatMap_cons] at hperm ⊢
    obtain ⟨hi, his⟩ := List.pairwise_cons.mp hapart
    have hrest : ∀ b ∈ is.flatMap block, ∀ a ∈ block i, le b a = false := by
      intro b hb a ha
      obtain ⟨j, hj, hb⟩ := List.mem_flatMap.mp hb
      exact hi j hj a ha b hb
    have hout : ∀ b ∈ is.flatMap block, b ∉ block i := by
      intro b hb hbi
      exact Bool.false_ne_true ((hrest b hb b hbi).symm.trans (hrefl b))
    -- the first block comes first, since nothing else may stand before an element of it
    have hsplit := eq_filter_append_filter (p := fun a => decide (a ∈ block i)) (l := l) <|
      hsorted.imp_of_mem fun {a b} ha _ hab hb => by
        rw [decide_eq_true_eq] at hb ⊢
        rcases List.mem_append.mp (hperm.mem_iff.mp ha) with ha | ha
        · exact ha
        · exact absurd (hab.symm.trans (hrest a ha b hb)) Bool.noConfusion
    have hin : ∀ a ∈ block i, decide (a ∈ block i) = true := fun a ha => decide_eq_true ha
    have hnotin : ∀ b ∈ is.flatMap block, decide (b ∈ block i) = false :=
      fun b hb => decide_eq_false (hout b hb)
    have hfirst : l.filter (fun a => decide (a ∈ block i)) = block i := by
      have hsub := (hblocks i List.mem_cons_self).filter fun a => decide (a ∈ block i)
      have hfilter := hperm.filter fun a => decide (a ∈ block i)
      have hnil : (is.flatMap block).filter (fun a => decide (a ∈ block i)) = [] :=
        List.filter_eq_nil_iff.mpr fun b hb => by simp only [hnotin b hb, Bool.false_eq_true,
          not_false_iff]
      rw [List.filter_append, hnil, List.append_nil] at hfilter
      rw [List.filter_eq_self.mpr hin] at hsub hfilter
      exact (hsub.eq_of_length hfilter.length_eq.symm).symm
    have hlast : l.filter (fun a => !decide (a ∈ block i)) = is.flatMap block := by
      have hself : ∀ bs : List α, (∀ b ∈ bs, b ∈ is.flatMap block) →
          bs.filter (fun a => !decide (a ∈ block i)) = bs :=
        fun bs hbs => List.filter_eq_self.mpr fun b hb => by rw [hnotin b (hbs b hb)]; rfl
      refine ih (hsorted.sublist List.filter_sublist) ?_ (fun j hj => ?_) his
      · have hfilter := hperm.filter fun a => !decide (a ∈ block i)
        have hnil : (block i).filter (fun a => !decide (a ∈ block i)) = [] :=
          List.filter_eq_nil_iff.mpr fun a ha => by simp only [hin a ha, Bool.not_true,
            Bool.false_eq_true, not_false_iff]
        rwa [List.filter_append, hnil, List.nil_append, hself _ fun _ hb => hb] at hfilter
      · have hsub := (hblocks j (List.mem_cons_of_mem _ hj)).filter fun a => !decide (a ∈ block i)
        rwa [hself _ fun b hb => List.mem_flatMap.mpr ⟨j, hj, hb⟩] at hsub
    rw [hsplit, hfirst, hlast]

end Blocks

/-! ## Where nodes stand -/

namespace Cursor

variable {m : ViewMode} {c e x : Cursor} {visit : NodeKind → Visit}

/-- The first element ends before the second begins. -/
def EndsBefore (c d : Cursor) : Prop := c.start + c.tree.size ≤ d.start

theorem endsBefore_childrenFrom {k : NodeKind} {start : Nat} {above : List Frame}
    {before : List Tree} {offset : Nat} {rest : List Tree} :
    (childrenFrom k start above before offset rest).Pairwise EndsBefore := by
  induction rest generalizing before offset with
  | nil => exact .nil
  | cons t rest ih =>
    refine List.pairwise_cons.mpr ⟨fun e he => ?_, ih⟩
    obtain ⟨ts, u, us, -, rfl⟩ := mem_childrenFrom.mp he
    exact Nat.le_add_right _ _

theorem endsBefore_elements (c : Cursor) : c.elements.Pairwise EndsBefore := by
  obtain ⟨tree, start, above⟩ := c
  cases tree with
  | leaf t => exact .nil
  | node k children => exact endsBefore_childrenFrom

/-- What stands in an element stands within its span. -/
theorem within_of_mem_nodes (h : x ∈ c.nodes) :
    c.start ≤ x.start ∧ x.start + x.tree.size ≤ c.start + c.tree.size := by
  refine forall_mem_nodes
    (P := fun x => c.start ≤ x.start ∧ x.start + x.tree.size ≤ c.start + c.tree.size)
    (fun d hd e he => ?_) ⟨Nat.le_refl _, Nat.le_refl _⟩ x h
  obtain ⟨k, ts, t, us, htree, rfl⟩ := mem_elements.mp he
  have hsize : d.tree.size = Tree.forestSize ts + t.size + Tree.forestSize us := by
    rw [htree, Tree.size, Tree.forestSize_eq, Tree.forestLeaves_append, Token.totalSize_append,
      Tree.forestLeaves, Token.totalSize_append, ← Tree.size_eq, ← Tree.forestSize_eq,
      ← Tree.forestSize_eq, Nat.add_assoc]
  dsimp only
  omega

/-- The nodes that a search takes stand apart, in the order of the text. -/
theorem endsBefore_gather (visit : NodeKind → Visit) (c : Cursor) :
    (c.gather visit).Pairwise EndsBefore ∧ (c.gatherBelow visit).Pairwise EndsBefore := by
  induction c using induction_elements with
  | h c ih =>
    have hbelow : (c.gatherBelow visit).Pairwise EndsBefore := by
      rw [gatherBelow_eq, List.pairwise_flatMap]
      refine ⟨fun e he => (ih e he).1, (endsBefore_elements c).imp fun {d e} hde x hx y hy => ?_⟩
      have hxd := within_of_mem_nodes (mem_nodes_of_mem_gather hx)
      have hye := within_of_mem_nodes (mem_nodes_of_mem_gather hy)
      exact Nat.le_trans hxd.2 (Nat.le_trans hde hye.1)
    refine ⟨?_, hbelow⟩
    cases hk : c.tree.nodeKind? with
    | none =>
      rw [gather_of_leaf hk]
      exact .nil
    | some k =>
      rw [gather_of_node hk]
      split
      · exact List.pairwise_singleton _ _
      · exact hbelow
      · exact .nil

theorem mem_nodes_of_mem_gatherBelow (h : x ∈ c.gatherBelow visit) : x ∈ c.nodes := by
  rw [gatherBelow_eq] at h
  obtain ⟨e, he, hx⟩ := List.mem_flatMap.mp h
  exact mem_nodes_of_mem_elements he (mem_nodes_of_mem_gather hx)

theorem sublist_gatherBelow (visit : NodeKind → Visit) (c : Cursor) :
    (c.gatherBelow visit).Sublist c.nodes := by
  cases hk : c.tree.nodeKind? with
  | none =>
    rw [gatherBelow_eq, elements_of_leaf hk]
    exact List.nil_sublist _
  | some k =>
    rw [gatherBelow_eq, nodes_of_node hk]
    refine (List.Sublist.flatMap_right _ fun e _ => ?_).cons c
    rw [gather_eq_filter]
    exact List.filter_sublist

/-- The parts that are searched are nodes at or below the node. -/
theorem mem_nodes_of_mem_entries {b : Cursor} {k : NodeKind} (hc : c.tree.nodeKind? = some k)
    (hb : b ∈ c.entries m) : b ∈ c.nodes := by
  by_cases hbc : b = c
  · rw [hbc]
    exact mem_nodes_self hc
  · obtain ⟨kb, -, hkb⟩ := isKind_of_mem_entries hb hbc
    rcases entries_eq_self_or_sublist m c with h | h
    · rw [h] at hb
      exact absurd (List.mem_singleton.mp hb) hbc
    · exact mem_nodes_of_mem_elements (h.subset hb) (mem_nodes_self hkb)

/-- A node that introduces declarations has some text. -/
theorem size_pos_of_introduces {source : String} (hc : c ∈ (ofTree (parse source).tree).nodes)
    (h : c.introduces?.isSome = true) : 0 < c.tree.size := by
  obtain ⟨-, hne⟩ := leaves_ne_nil_of_introduces hc h
  obtain ⟨u, us, hleaves⟩ := List.exists_cons_of_ne_nil hne
  obtain ⟨front, hfront, -⟩ := (Within.root.of_mem_nodes hc).exists_leaves
  have hu : u ∈ lex source := by
    rw [← leaves_parse, hfront, hleaves]
    simp
  have hpos := Token.size_pos (proper_of_mem_lex hu).text_ne
  rw [Tree.size_eq, hleaves, Token.totalSize]
  omega

end Cursor

/-! ## What is read of a node -/

namespace Declaration

variable {m : ViewMode} {c : Cursor} {K : DeclarationKind} {d : Declaration}

/-- A declaration is kept with the node that it was read from. -/
theorem place_of_mem_read (hK : c.introduces? = some K) (hd : d ∈ read m c) : d.place = c := by
  have hrecord : d.record ∈ c.records m := by
    rw [← map_record_read hK]
    exact List.mem_map_of_mem hd
  rw [show d.place = d.record.place from rfl]
  unfold Cursor.records at hrecord
  split at hrecord
  · exact absurd hrecord List.not_mem_nil
  · obtain ⟨b, -, hb⟩ := List.mem_map.mp hrecord
    rw [← hb]
  · rw [List.mem_singleton.mp hrecord]

/-- The declarations of a node of a text have the span of the node. -/
theorem span_of_mem_read {source : String}
    (hc : c ∈ (Cursor.ofTree (parse source).tree).nodes) (hK : c.introduces? = some K)
    (hd : d ∈ read m c) : d.span = c.span := by
  have habove := (Cursor.leaves_ne_nil_of_introduces hc (Option.isSome_of_eq_some hK)).1
  rw [span, place_of_mem_read hK hd, Cursor.trimmedSpan_of_mem_nodes hc habove]

end Declaration

/-! ## Sorted outlines -/

namespace Outline

variable {m : ViewMode} {source : String} {nodes : List Cursor} {a b c : Declaration}

theorem precedes_iff : precedes a b = true ↔
    a.span.start < b.span.start ∨ a.span.start = b.span.start ∧ a.span.stop ≤ b.span.stop := by
  simp [precedes]

theorem precedes_refl (a : Declaration) : precedes a a = true :=
  precedes_iff.mpr (.inr ⟨rfl, Nat.le_refl _⟩)

theorem precedes_trans (a b c : Declaration) (hab : precedes a b = true)
    (hbc : precedes b c = true) : precedes a c = true := by
  rw [precedes_iff] at *
  omega

theorem precedes_total (a b : Declaration) : (precedes a b || precedes b a) = true := by
  rw [Bool.or_eq_true, precedes_iff, precedes_iff]
  omega

/-- What is read of a node is a part of the outline, in its order. -/
theorem sublist_ofNodes {read : Cursor → List Declaration} {x : Cursor} (hx : x ∈ nodes)
    (hintro : x.introduces?.isSome = true) : (read x).Sublist (ofNodes read nodes) := by
  obtain ⟨K, hK⟩ := Option.isSome_iff_exists.mp hintro
  have hall : K ∈ DeclarationKind.all := by cases K <;> decide
  have hgroup : x ∈ nodes.filter fun c => c.tree.nodeKind?.bind DeclarationKind.ofNode? == some K :=
    List.mem_filter.mpr ⟨hx, beq_iff_eq.mpr hK⟩
  exact (sublist_flatMap_of_mem read hgroup).trans
    (sublist_flatMap_of_mem (fun k => (nodes.filter fun c =>
      c.tree.nodeKind?.bind DeclarationKind.ofNode? == some k).flatMap read) hall)

/-- An outline has the declarations of its nodes. -/
theorem perm_ofNodes {read : Cursor → List Declaration}
    (h : ∀ x ∈ nodes, x.introduces?.isSome = true) :
    (ofNodes read nodes).Perm (nodes.flatMap read) := by
  have hgroups := (groups_perm h).flatMap_right read
  rwa [List.flatMap_assoc] at hgroups

/-- The outline of nodes of a text that stand apart, in the order of the text. -/
theorem inSourceOrder_ofNodes (hnodes : ∀ x ∈ nodes,
      x ∈ (Cursor.ofTree (parse source).tree).nodes ∧ x.introduces?.isSome = true)
    (hapart : nodes.Pairwise Cursor.EndsBefore) :
    (ofNodes (Declaration.read m) nodes).inSourceOrder = nodes.flatMap (Declaration.read m) := by
  have hspan : ∀ x ∈ nodes, ∀ d ∈ Declaration.read m x, d.span = x.span := by
    intro x hx d hd
    obtain ⟨hmem, hintro⟩ := hnodes x hx
    obtain ⟨K, hK⟩ := Option.isSome_iff_exists.mp hintro
    exact Declaration.span_of_mem_read hmem hK hd
  have hperm : (ofNodes (Declaration.read m) nodes).Perm (nodes.flatMap (Declaration.read m)) :=
    perm_ofNodes fun x hx => (hnodes x hx).2
  refine eq_flatMap_of_pairwise precedes_refl
    (List.pairwise_mergeSort precedes_trans precedes_total _)
    ((List.mergeSort_perm _ _).trans hperm) (fun x hx => ?_) ?_
  · -- the declarations of one node share its span, so sorting keeps their order
    refine List.sublist_mergeSort precedes_trans precedes_total ?_
      (sublist_ofNodes hx (hnodes x hx).2)
    refine List.pairwise_iff_forall_sublist.mpr fun {a b} hab => precedes_iff.mpr (.inr ?_)
    rw [hspan x hx a (hab.subset (by simp)), hspan x hx b (hab.subset (by simp))]
    exact ⟨rfl, Nat.le_refl _⟩
  · -- nodes that stand apart start at different places, since each has some text
    refine hapart.imp_of_mem fun {x y} hx hy hxy a ha b hb => ?_
    have hpos := Cursor.size_pos_of_introduces (hnodes x hx).1 (hnodes x hx).2
    rw [← Bool.not_eq_true, precedes_iff, hspan x hx a ha, hspan y hy b hb]
    have hends : x.start + x.tree.size ≤ y.start := hxy
    simp only [Cursor.span]
    omega

theorem exists_of_mem_ofNodes {read : Cursor → List Declaration} (h : a ∈ ofNodes read nodes) :
    ∃ x ∈ nodes, a ∈ read x := by
  obtain ⟨k, -, h⟩ := List.mem_flatMap.mp h
  obtain ⟨x, hx, h⟩ := List.mem_flatMap.mp h
  exact ⟨x, (List.mem_filter.mp hx).1, h⟩

end Outline

/-! ## Nested outlines -/

/-- The outlines nested directly in a declaration with these details: one for each branch of a
    conditional compilation, at most one otherwise. -/
def Details.outlines : Details → List Outline
  | nominal _ _ _ ds | function _ _ _ ds | initializer _ _ _ ds | deinitializer _ ds
  | subscript _ _ _ ds | switch _ ds => [ds]
  | conditional branches => branches.map Branch.declarations
  | binding _ | typeAlias _ _ _ | moduleImport _ _ | operator _ _ | precedenceGroup _ => []

theorem Details.flatten_outlines (d : Details) : d.outlines.flatten = d.nested := by
  cases d
  case conditional branches => exact (List.flatMap_def ..).symm
  all_goals first | rfl | exact List.append_nil _

section Nested

variable {m : ViewMode} {c root : Cursor} {K : DeclarationKind} {d : Declaration} {o : Outline}

open Declaration

theorem Outline.insideWith_cases (read : Cursor → List Declaration) (m : ViewMode)
    (part : Option Cursor) : insideWith read m part = [] ∨
      ∃ b ∈ part.toList, insideWith read m part = belowWith read m b := by
  cases part with
  | none => exact .inl rfl
  | some b => exact .inr ⟨b, List.mem_singleton_self b, rfl⟩

/-- An outline nested in a declaration is that of a part of its node, or empty if that has none. -/
theorem Declaration.outlines_of_mem_read (hK : c.introduces? = some K) (hd : d ∈ read m c)
    (ho : o ∈ d.details.outlines) : o = [] ∨ ∃ b ∈ c.entries m, o = Outline.below m b := by
  by_cases hne : K = .binding
  · subst hne
    have hread : read m c = variablesOf m c := by
      rw [read_eq_readWith, readWith, isKind_variableDecl hK]
      rfl
    rw [hread] at hd
    unfold variablesOf at hd
    split at hd
    · obtain ⟨p, -, rfl⟩ := List.mem_map.mp hd
      exact absurd ho List.not_mem_nil
    · exact absurd hd List.not_mem_nil
  · obtain ⟨details, hdetails, -, -⟩ := exists_details (m := m) (f := read m) hK hne
    have hread : read m c = [.mk (Header.ofCursor m c) c details] := by
      rw [read_eq_readWith, readWith, isKind_variableDecl hK, if_neg (by simpa using hne), hdetails]
      rfl
    rw [hread, List.mem_singleton] at hd
    subst hd
    change o ∈ details.outlines at ho
    have hentries := Cursor.entries.eq_1 m c
    rw [hK] at hentries
    obtain ⟨k, hk, hof⟩ := Option.bind_eq_some_iff.mp hK
    unfold DeclarationKind.ofNode? at hof
    split at hof <;> cases hof
    all_goals
      rw [hentries]
      simp only [Details.ofCursor?, NominalForm.ofCursor?, hk] at hdetails
      cases hdetails
      first
      | exact absurd ho List.not_mem_nil
      | rw [List.mem_singleton.mp ho]; exact Outline.insideWith_cases (read m) m _
      | rw [List.mem_singleton.mp ho]; exact .inr ⟨c, List.mem_singleton_self c, rfl⟩
      | skip
    -- only conditional compilation has several parts
    rw [Details.outlines, List.map_map] at ho
    obtain ⟨b, hb, rfl⟩ := List.mem_map.mp ho
    exact .inr ⟨b, hb, rfl⟩

/-- A declaration at any depth is read from a node of the text. -/
theorem Declaration.exists_of_at? {source : String} {path : List Nat} {e : Declaration}
    (hc : c ∈ (Cursor.ofTree (parse source).tree).nodes) (hintro : c.introduces?.isSome = true)
    (hd : d ∈ read m c) (h : d.at? path = some e) :
    ∃ x ∈ (Cursor.ofTree (parse source).tree).nodes,
      x.introduces?.isSome = true ∧ e ∈ read m x := by
  induction path generalizing c d with
  | nil => exact ⟨c, hc, hintro, Option.some.inj h ▸ hd⟩
  | cons i path ih =>
    obtain ⟨K, hK⟩ := Option.isSome_iff_exists.mp hintro
    obtain ⟨k, hk, -⟩ := Option.bind_eq_some_iff.mp hK
    obtain ⟨d', hd', h⟩ := Option.bind_eq_some_iff.mp h
    have hnested := List.mem_of_getElem? hd'
    rw [← Details.flatten_outlines] at hnested
    obtain ⟨o, ho, hd'⟩ := List.mem_flatten.mp hnested
    rcases outlines_of_mem_read hK hd ho with rfl | ⟨b, hb, rfl⟩
    · exact absurd hd' List.not_mem_nil
    · obtain ⟨x, hx, hd'⟩ := Outline.exists_of_mem_ofNodes hd'
      have hbelow := Cursor.mem_nodes_trans (Cursor.mem_nodes_trans hc
        (Cursor.mem_nodes_of_mem_entries hk hb)) (Cursor.mem_nodes_of_mem_gatherBelow hx)
      exact ih hbelow (Outline.introduces?_of_mem_gatherBelow hx) hd' h

/-- So is one that an outline of the text reaches. -/
theorem Outline.exists_of_at? {source : String} {path : List Nat}
    (hroot : root ∈ (Cursor.ofTree (parse source).tree).nodes)
    (h : (ofCursor m root).at? path = some d) :
    ∃ x ∈ (Cursor.ofTree (parse source).tree).nodes,
      x.introduces?.isSome = true ∧ d ∈ read m x := by
  cases path with
  | nil => exact nomatch h
  | cons i path =>
    obtain ⟨e, he, h⟩ := Option.bind_eq_some_iff.mp h
    obtain ⟨x, hx, he⟩ := exists_of_mem_ofNodes (List.mem_of_getElem? he)
    exact Declaration.exists_of_at?
      (Cursor.mem_nodes_trans hroot (Cursor.mem_nodes_of_mem_gather hx))
      (introduces?_of_mem_gather hx) he h

end Nested

/-! ## The walk -/

/-- Whether an outline, sorted by the spans of its declarations, has them in the order in which the
    search at `root` met their nodes. -/
structure Outline.Follows (m : ViewMode) (root : Cursor) (met : List Cursor) (o : Outline) :
    Prop where
  /-- The nodes are met in preorder, none of them twice. -/
  preorder : met.Sublist root.nodes
  /-- The sorted declarations are those of the outline. -/
  perm : o.inSourceOrder.Perm o
  /-- Node by node, they are what is read of the nodes. -/
  read : o.inSourceOrder = met.flatMap (Declaration.read m)
  /-- There is one for each node, or one for each binding of a `let` or `var`, in order. -/
  records : o.inSourceOrder.map Declaration.record = met.flatMap (Cursor.records m)

namespace Outline

variable {m : ViewMode} {source : String} {root : Cursor} {met : List Cursor}

theorem follows_ofNodes (hroot : root ∈ (Cursor.ofTree (parse source).tree).nodes)
    (hmet : met.Sublist root.nodes) (hintro : ∀ x ∈ met, x.introduces?.isSome = true)
    (hapart : met.Pairwise Cursor.EndsBefore) :
    (ofNodes (Declaration.read m) met).Follows m root met := by
  have hnodes : ∀ x ∈ met,
      x ∈ (Cursor.ofTree (parse source).tree).nodes ∧ x.introduces?.isSome = true :=
    fun x hx => ⟨Cursor.mem_nodes_trans hroot (hmet.subset hx), hintro x hx⟩
  have hread := inSourceOrder_ofNodes (m := m) hnodes hapart
  refine ⟨hmet, List.mergeSort_perm _ _, hread, ?_⟩
  rw [hread, List.map_flatMap]
  refine List.flatMap_congr fun x hx => ?_
  obtain ⟨K, hK⟩ := Option.isSome_iff_exists.mp (hintro x hx)
  exact Declaration.map_record_read hK

theorem follows_ofCursor (m : ViewMode)
    (hroot : root ∈ (Cursor.ofTree (parse source).tree).nodes) :
    (ofCursor m root).Follows m root (root.gather (visitDeclarations m)) := by
  refine follows_ofNodes hroot ?_ (fun _ => introduces?_of_mem_gather)
    (Cursor.endsBefore_gather _ _).1
  rw [Cursor.gather_visitDeclarations]
  exact List.filter_sublist

theorem follows_below (m : ViewMode) (hroot : root ∈ (Cursor.ofTree (parse source).tree).nodes) :
    (below m root).Follows m root (root.gatherBelow (visitDeclarations m)) :=
  follows_ofNodes hroot (Cursor.sublist_gatherBelow _ _) (fun _ => introduces?_of_mem_gatherBelow)
    (Cursor.endsBefore_gather _ _).2

end Outline

/-- Sorting the declarations of an outline by their spans gives the order in which the search met
    their nodes, also if declarations are malformed. This goes for what is found at and below any
    node of a text, and for all outlines that are nested in what is found. -/
theorem inSourceOrder_follows_walk {source : String} {root : Cursor} (m : ViewMode)
    (hroot : root ∈ (Cursor.ofTree (parse source).tree).nodes) :
    (Outline.ofCursor m root).Follows m root (root.gather (visitDeclarations m)) ∧
    (Outline.below m root).Follows m root (root.gatherBelow (visitDeclarations m)) ∧
    (root.gather (visitDeclarations m) =
      root.nodes.filter fun c => c.introduces?.isSome && c.isOutermost m root) ∧
    ∀ path d, (Outline.ofCursor m root).at? path = some d → ∀ o ∈ d.details.outlines,
      o = [] ∨ ∃ part ∈ (Cursor.ofTree (parse source).tree).nodes,
        o.Follows m part (part.gatherBelow (visitDeclarations m)) := by
  refine ⟨Outline.follows_ofCursor m hroot, Outline.follows_below m hroot,
    Cursor.gather_visitDeclarations m root, fun path d hd o ho => ?_⟩
  obtain ⟨y, hy, hintro, hd⟩ := Outline.exists_of_at? hroot hd
  obtain ⟨K, hK⟩ := Option.isSome_iff_exists.mp hintro
  obtain ⟨k, hk, -⟩ := Option.bind_eq_some_iff.mp hK
  refine (Declaration.outlines_of_mem_read hK hd ho).imp_right ?_
  rintro ⟨b, hb, rfl⟩
  have hmem := Cursor.mem_nodes_trans hy (Cursor.mem_nodes_of_mem_entries hk hb)
  exact ⟨b, hmem, Outline.follows_below m hmem⟩

/-- The outline of a faulty text has the class first and the variables behind it; in the order of
    the text the variables come first, one for each binding. -/
theorem inSourceOrder_follows_walk_faulty :
    ∃ root ∈ (Cursor.ofTree (parse "var b = 1, c: Int\nclass \x7b\nfunc (").tree).nodes,
      root.isKind .sourceFile = true ∧
      (Outline.ofCursor .fixedUp root).map (fun d => d.header.name) = ["class", "b", "c"] ∧
      (Outline.ofCursor .fixedUp root).inSourceOrder.map (fun d => d.header.name) =
        ["b", "c", "class"] := by
  have hfound : ((Cursor.ofTree (parse "var b = 1, c: Int\nclass \x7b\nfunc (").tree).nodes.any
      fun c => c.isKind .sourceFile &&
        ((Outline.ofCursor .fixedUp c).map (fun d => d.header.name) == ["class", "b", "c"] &&
          ((c.gather (visitDeclarations .fixedUp)).flatMap (Declaration.read .fixedUp)).map
            (fun d => d.header.name) == ["b", "c", "class"])) = true := by
    decide +kernel
  obtain ⟨root, hroot, hcond⟩ := List.any_eq_true.mp hfound
  rw [Bool.and_eq_true, Bool.and_eq_true, beq_iff_eq, beq_iff_eq] at hcond
  refine ⟨root, hroot, hcond.1, hcond.2.1, ?_⟩
  rw [(inSourceOrder_follows_walk .fixedUp hroot).1.read]
  exact hcond.2.2

end SwiftOutline
