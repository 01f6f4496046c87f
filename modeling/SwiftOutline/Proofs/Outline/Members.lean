/-
  SwiftOutline.Proofs.Outline.Members

  How the items of an enumeration or protocol are reported. Two searches share
  them: that for cases or associated types looks through conditional compilation,
  that for declarations takes each `#if` block as a whole and leaves what stands
  in it to its branches. Together they report each item once.
-/
import SwiftOutline.Proofs.Outline.SourceOrder
import SwiftOutline.Proofs.Parser.Members

namespace SwiftOutline

variable {m : ViewMode} {source : String}

/-! ## Items -/

namespace Cursor

variable {c e x b : Cursor} {k : NodeKind}

/-- Whether a node is a block of conditional compilation or one of its branches. -/
def isConditional (c : Cursor) : Bool := c.isKind .ifConfigDecl || c.isKind .ifConfigClause

/-- Whether a node counts as an item: branches and their conditions do not. -/
def isItem (c : Cursor) : Bool := !(c.isKind .ifConfigClause || c.isKind .ifConfigCondition)

/-- The items at and below an element, in the order of the text: nothing but conditional
    compilation stands around them. -/
def itemsAt (c : Cursor) : List Cursor :=
  c.nodes.filter fun x => x.isItem && (x.ancestorsIn c).all isConditional

/-- The items below an element. -/
def itemsBelow (c : Cursor) : List Cursor := c.elements.flatMap itemsAt

/-- The items of the block of members of a declaration, those in conditional compilation
    included. -/
def memberItems (c : Cursor) : List Cursor :=
  ((c.child? .memberBlock).map itemsBelow).getD []

theorem itemsAt_of_leaf (h : c.tree.nodeKind? = none) : c.itemsAt = [] := by
  rw [itemsAt, nodes_of_leaf h, List.filter_nil]

/-- Conditional compilation has the items of what it is made of. -/
theorem itemsAt_of_isConditional (h : c.isConditional = true) :
    c.itemsAt = (if c.isItem then [c] else []) ++ c.itemsBelow := by
  obtain ⟨k, hk⟩ : ∃ k, c.tree.nodeKind? = some k := by
    simp only [isConditional, Bool.or_eq_true] at h
    exact h.elim (fun h => ⟨_, nodeKind?_of_isKind h⟩) fun h => ⟨_, nodeKind?_of_isKind h⟩
  rw [itemsAt, nodes_of_node hk, List.filter_cons, ancestorsIn_self, List.filter_flatMap]
  have hbelow : c.elements.flatMap (fun e => e.nodes.filter fun x =>
      x.isItem && (x.ancestorsIn c).all isConditional) = c.itemsBelow := by
    refine List.flatMap_congr fun e he => List.filter_congr fun x hx => ?_
    rw [ancestorsIn_of_mem_elements he hx, List.all_append, List.all_cons, h]
    simp
  rw [hbelow]
  cases c.isItem <;> simp

/-- Any other item has none inside. -/
theorem itemsAt_of_not_isConditional (hk : c.tree.nodeKind? = some k)
    (h : c.isConditional = false) : c.itemsAt = if c.isItem then [c] else [] := by
  rw [itemsAt, nodes_of_node hk, List.filter_cons, ancestorsIn_self, List.filter_flatMap]
  have hbelow : c.elements.flatMap (fun e => e.nodes.filter fun x =>
      x.isItem && (x.ancestorsIn c).all isConditional) = [] := by
    refine List.flatMap_eq_nil_iff.mpr fun e he => List.filter_eq_nil_iff.mpr fun x hx => ?_
    rw [ancestorsIn_of_mem_elements he hx, List.all_append, List.all_cons, h]
    simp
  rw [hbelow]
  cases c.isItem <;> simp

theorem sublist_itemsBelow (c : Cursor) : c.itemsBelow.Sublist c.nodes := by
  cases hk : c.tree.nodeKind? with
  | none =>
    rw [itemsBelow, elements_of_leaf hk]
    exact List.nil_sublist _
  | some k =>
    rw [nodes_of_node hk]
    refine (List.Sublist.flatMap_right _ fun e _ => ?_).cons c
    exact List.filter_sublist

/-- Items are nodes below the declaration, in the order of the text. -/
theorem sublist_memberItems (c : Cursor) : c.memberItems.Sublist c.nodes := by
  rw [memberItems]
  cases hb : c.child? .memberBlock with
  | none => exact List.nil_sublist _
  | some b =>
    have hmem := List.mem_of_find?_eq_some hb
    cases hk : c.tree.nodeKind? with
    | none =>
      rw [elements_of_leaf hk] at hmem
      exact absurd hmem List.not_mem_nil
    | some k =>
      rw [nodes_of_node hk]
      exact ((sublist_itemsBelow b).trans (sublist_flatMap_of_mem nodes hmem)).cons c

/-! ### The search for members of one kind -/

theorem visitMembers_take (hshows : m.shows k = true) (k' : NodeKind) :
    (visitMembers m k k' == .take) = (k' == k) := by
  unfold visitMembers
  cases hk : k' == k with
  | true =>
    rw [beq_iff_eq.mp hk, hshows]
    rfl
  | false =>
    simp only [Bool.false_eq_true, if_false]
    split
    · rfl
    · split <;> rfl

theorem visitMembers_enter (hk : k ≠ .ifConfigDecl) (hk' : k ≠ .ifConfigClause) (k' : NodeKind) :
    (visitMembers m k k' == .enter) = (k' == .ifConfigDecl || k' == .ifConfigClause) := by
  by_cases hcond : k' = .ifConfigDecl ∨ k' = .ifConfigClause
  · have hshows : m.shows k' = true := by rcases hcond with rfl | rfl <;> cases m <;> rfl
    have hne : (k' == k) = false := by
      rcases hcond with rfl | rfl
      · simpa using hk.symm
      · simpa using hk'.symm
    have hcond' : (k' == .ifConfigDecl || k' == .ifConfigClause) = true := by simpa using hcond
    rw [visitMembers, hshows, hne, hcond']
    rfl
  · have hcond' : (k' == .ifConfigDecl || k' == .ifConfigClause) = false := by
      simpa [not_or] using hcond
    rw [visitMembers, hcond']
    cases m.shows k' <;> cases k' == k <;> rfl

/-- The search for members of one kind finds all items of that kind. -/
theorem gather_visitMembers (hshows : m.shows k = true) (hk : k ≠ .ifConfigDecl)
    (hk' : k ≠ .ifConfigClause) (hk'' : k ≠ .ifConfigCondition) (c : Cursor) :
    c.gather (visitMembers m k) = c.itemsAt.filter fun x => x.isKind k := by
  rw [gather_eq_filter, itemsAt, List.filter_filter]
  refine List.filter_congr fun x _ => ?_
  have htaken : x.isTaken (visitMembers m k) = (x.isKind k && x.isItem) := by
    cases hx : x.tree.nodeKind? with
    | none => simp [isTaken, isKind, hx]
    | some k' =>
      rw [isTaken, hx, Option.any_some, visitMembers_take hshows, isItem, isKind, isKind, isKind,
        hx]
      cases heq : k' == k with
      | false =>
        have hne : k' ≠ k := by simpa using heq
        simp [hne]
      | true =>
        rw [beq_iff_eq.mp heq]
        simp [hk', hk'']
  have hentered : (x.ancestorsIn c).all (isEntered (visitMembers m k)) =
      (x.ancestorsIn c).all isConditional := by
    rw [Bool.eq_iff_iff, List.all_eq_true, List.all_eq_true]
    refine forall₂_congr fun a ha => ?_
    obtain ⟨k', ha'⟩ := exists_nodeKind_of_mem_ancestorsIn ha
    rw [isEntered, ha', Option.any_some, visitMembers_enter hk hk', isConditional, isKind, isKind,
      ha']
    rfl
  rw [htaken, hentered, Bool.and_assoc]

theorem membersOf_eq (hshows : m.shows k = true) (hk : k ≠ .ifConfigDecl)
    (hk' : k ≠ .ifConfigClause) (hk'' : k ≠ .ifConfigCondition) (c : Cursor) :
    membersOf m k c = c.memberItems.filter fun x => x.isKind k := by
  rw [membersOf, memberItems]
  cases c.child? .memberBlock with
  | none => rfl
  | some b =>
    simp only [Option.map_some, Option.getD_some, gatherBelow_eq, itemsBelow, List.filter_flatMap]
    exact List.flatMap_congr fun e _ => gather_visitMembers hshows hk hk' hk'' e

end Cursor

/-! ## Declarations of branches -/

/-- The branches of a declaration, if it is conditional compilation. -/
def Declaration.branches (d : Declaration) : List Branch :=
  match d.details with
  | .conditional branches => branches
  | _ => []

theorem Declaration.sizeOf_lt_of_mem_branches {d : Declaration} {b : Branch}
    (h : b ∈ d.branches) : sizeOf b < sizeOf d := by
  obtain ⟨header, place, details⟩ := d
  cases details with
  | conditional bs =>
    have hlt := List.sizeOf_lt_of_mem (show b ∈ bs from h)
    simp only [mk.sizeOf_spec, Details.conditional.sizeOf_spec]
    omega
  | _ => exact absurd h List.not_mem_nil

/-- All declarations of an outline in the order of the text, each block of conditional compilation
    followed by what its branches declare. -/
def Outline.throughBranches (o : Outline) : List Declaration :=
  o.inSourceOrder.attach.flatMap fun d =>
    d.1 :: d.1.branches.attach.flatMap fun b => throughBranches b.1.declarations
termination_by sizeOf o
decreasing_by
  have hd : d.1 ∈ o := (List.mergeSort_perm o precedes).subset d.2
  have hlt := List.sizeOf_lt_of_mem hd
  have hlt' := Declaration.sizeOf_lt_of_mem_branches b.2
  have hdecl : sizeOf b.1.declarations < sizeOf b.1 := by
    obtain ⟨⟨keyword, condition, ds⟩, hb⟩ := b
    simp only [Branch.declarations, Branch.mk.sizeOf_spec]
    omega
  omega

theorem Outline.throughBranches_eq (o : Outline) : o.throughBranches =
    o.inSourceOrder.flatMap fun d =>
      d :: d.branches.flatMap fun b => throughBranches b.declarations := by
  rw [throughBranches]
  simp only [List.flatMap_subtype, List.unattach_attach]

theorem Outline.throughBranches_nil : throughBranches [] = [] := by
  rw [throughBranches_eq, inSourceOrder, List.mergeSort_nil, List.flatMap_nil]

/-- Only conditional compilation has branches. -/
theorem Declaration.branches_of_kind_ne {d : Declaration} (h : d.kind ≠ .conditional) :
    d.branches = [] := by
  obtain ⟨header, place, details⟩ := d
  cases details with
  | conditional bs => exact absurd rfl h
  | _ => rfl

theorem Declaration.read_of_ifConfigDecl {c : Cursor} (h : c.tree.nodeKind? = some .ifConfigDecl) :
    ∃ d, read m c = [d] ∧ d.branches.map Branch.declarations =
      (c.childrenOf m .ifConfigClause).map (Outline.below m) := by
  have hvariable : c.isKind .variableDecl = false := by rw [Cursor.isKind, h]; rfl
  rw [read_eq_readWith, readWith, hvariable, if_neg (by decide)]
  simp only [Details.ofCursor?, NominalForm.ofCursor?, h]
  refine ⟨_, rfl, ?_⟩
  rw [branches, details, List.map_map]
  rfl

/-! ## Lists of members -/

/-- Whether a node is a block of members, or a branch in one, and made of what has its place
    there. -/
def Cursor.ListsMembers (b : Cursor) : Prop :=
  ∃ k, b.tree.nodeKind? = some k ∧ k.listsMembers = true ∧ ∀ t ∈ b.tree.children, t.ListedIn k

theorem List.flatMap_filter_of_nil {α β : Type} {p : α → Bool} {f : α → List β} {l : List α}
    (h : ∀ a ∈ l, p a = false → f a = []) : (l.filter p).flatMap f = l.flatMap f := by
  induction l with
  | nil => rfl
  | cons a l ih =>
    have hl := ih fun b hb => h b (List.mem_cons_of_mem _ hb)
    cases hp : p a with
    | true => rw [List.filter_cons_of_pos hp, List.flatMap_cons, List.flatMap_cons, hl]
    | false =>
      rw [List.filter_cons_of_neg (by simp [hp]), List.flatMap_cons, h a List.mem_cons_self hp, hl]
      rfl

namespace Cursor

variable {b c e : Cursor}

/-- An element of a list of members is a token, an item, or the condition of the branch. -/
theorem ListsMembers.cases (h : b.ListsMembers) (hclean : b.Clean) (he : e ∈ b.elements) :
    e.tree.nodeKind? = none ∨
      (∃ k, e.tree.nodeKind? = some k ∧ k.isMember = true ∧ k ≠ .unexpected) ∨
      (e.tree.nodeKind? = some .ifConfigDecl ∧ ∀ t ∈ e.tree.children, t.ListedIn .ifConfigDecl) ∨
      (e.tree.nodeKind? = some .ifConfigCondition ∧ ∀ t ∈ e.tree.children, t.nodeKind? = none) := by
  obtain ⟨k, -, hlists, hchildren⟩ := h
  have hlisted := hchildren _ (tree_mem_children he)
  have hkind : ∀ k, e.tree.nodeKind? = some k → k ≠ .unexpected :=
    fun k hk => (hclean.of_mem_elements he).kind_ne hk
  generalize e.tree = t at hlisted hkind
  cases hlisted with
  | leaf => exact .inl rfl
  | member _ member => exact .inr (.inl ⟨_, rfl, member, hkind _ rfl⟩)
  | block _ branches => exact .inr (.inr (.inl ⟨rfl, branches⟩))
  | branch _ => exact absurd hlists (by decide)
  | condition tokens => exact .inr (.inr (.inr ⟨rfl, tokens⟩))

/-- An element of conditional compilation among members is a token or lists members. -/
theorem listsMembers_of_branch (h : ∀ t ∈ c.tree.children, t.ListedIn .ifConfigDecl)
    (he : e ∈ c.elements) : e.tree.nodeKind? = none ∨
      e.tree.nodeKind? = some .ifConfigClause ∧ e.ListsMembers := by
  have hlisted := h _ (tree_mem_children he)
  rw [ListsMembers]
  generalize e.tree = t at hlisted ⊢
  cases hlisted with
  | leaf => exact .inl rfl
  | member lists _ => exact absurd lists (by decide)
  | block lists _ => exact absurd lists (by decide)
  | branch items => exact .inr ⟨rfl, _, rfl, rfl, items⟩

theorem introduces?_of_isMember {k : NodeKind} (h : c.tree.nodeKind? = some k)
    (hmember : k.isMember = true) (hk : k ≠ .unexpected) :
    c.introduces?.isSome = !c.isPart := by
  rw [introduces?, isPart, isKind, isKind, h, Option.bind_some]
  revert hmember hk
  cases k <;> decide

end Cursor

section Walk

open Cursor Declaration

variable {b e : Cursor} {k : NodeKind}

/-- A declaration that is no conditional compilation is reported as it is. -/
theorem flatMap_branches_of_ne {ds : List Declaration} (h : ∀ d ∈ ds, d.kind ≠ .conditional) :
    (ds.flatMap fun d => d :: d.branches.flatMap fun b => Outline.throughBranches b.declarations) =
      ds := by
  have hself : ∀ d ∈ ds, (d :: d.branches.flatMap fun b =>
      Outline.throughBranches b.declarations) = [d] := by
    intro d hd
    rw [branches_of_kind_ne (h d hd), List.flatMap_nil]
  rw [List.flatMap_congr hself]
  exact List.flatMap_singleton' ds

theorem itemsAt_of_isMember (hk : e.tree.nodeKind? = some k) (hmember : k.isMember = true) :
    e.itemsAt = [e] := by
  have hcond : e.isConditional = false := by
    rw [isConditional, isKind, isKind, hk]
    revert hmember
    cases k <;> decide
  have hitem : e.isItem = true := by
    rw [isItem, isKind, isKind, hk]
    revert hmember
    cases k <;> decide
  rw [itemsAt_of_not_isConditional hk hcond, hitem, if_pos rfl]

theorem itemsAt_of_ifConfigDecl (hk : e.tree.nodeKind? = some .ifConfigDecl) :
    e.itemsAt = e :: e.itemsBelow := by
  rw [itemsAt_of_isConditional (by rw [isConditional, isKind, hk]; rfl), isItem, isKind, isKind, hk]
  rfl

theorem itemsAt_of_ifConfigClause (hk : e.tree.nodeKind? = some .ifConfigClause) :
    e.itemsAt = e.itemsBelow := by
  rw [itemsAt_of_isConditional (by rw [isConditional, isKind, isKind, hk]; rfl), isItem, isKind,
    hk]
  rfl

/-- An item that is no conditional compilation is found if it introduces declarations. -/
theorem gather_of_isMember (hclean : e.Clean) (hk : e.tree.nodeKind? = some k)
    (hmember : k.isMember = true) :
    e.gather (visitDeclarations m) = [e].filter fun x => x.introduces?.isSome := by
  have hintro := introduces?_of_isMember hk hmember (hclean.kind_ne hk)
  cases hpart : e.isPart with
  | true =>
    rw [hpart] at hintro
    rw [gather_of_passed (by rw [isTaken_visitDeclarations, hintro]; rfl)
      (by rw [isEntered_visitDeclarations m hk, hpart]; simp)]
    simp [hintro]
  | false =>
    rw [hpart] at hintro
    rw [gather_of_isTaken (by rw [isTaken_visitDeclarations, hintro, hclean.visibleIn]; rfl)]
    simp [hintro]

/-- The condition of a branch has no items, and no declarations are found in it. -/
theorem nil_of_ifConfigCondition (hclean : e.Clean)
    (hk : e.tree.nodeKind? = some .ifConfigCondition)
    (htokens : ∀ t ∈ e.tree.children, t.nodeKind? = none) :
    e.gather (visitDeclarations m) = [] ∧ e.itemsAt = [] := by
  have hnone : e.introduces? = none := by rw [introduces?, hk]; rfl
  constructor
  · have hentered : e.isEntered (visitDeclarations m) = true := by
      rw [isEntered_visitDeclarations m hk, hclean.visibleIn, hnone, isPart, isKind, isKind, hk]
      rfl
    rw [gather_of_isEntered hentered, gatherBelow_eq, List.flatMap_eq_nil_iff]
    exact fun x hx => gather_of_leaf (htokens _ (tree_mem_children hx))
  · rw [itemsAt_of_not_isConditional hk (by rw [isConditional, isKind, isKind, hk]; rfl), isItem,
      isKind, isKind, hk]
    rfl

/-- What the branches of a block of conditional compilation declare, if the items of each branch
    are found there. -/
theorem flatMap_branches_of_ifConfigDecl {d : Declaration}
    (hk : e.tree.nodeKind? = some .ifConfigDecl)
    (hparts : ∀ t ∈ e.tree.children, t.ListedIn .ifConfigDecl)
    (hd : Declaration.read m e = [d])
    (hbranches : ∀ c ∈ e.elements, c.ListsMembers → (Outline.below m c).throughBranches =
      (c.itemsBelow.filter fun x => x.introduces?.isSome).flatMap (Declaration.read m)) :
    (d.branches.flatMap fun b => Outline.throughBranches b.declarations) =
      (e.itemsBelow.filter fun x => x.introduces?.isSome).flatMap (Declaration.read m) := by
  obtain ⟨d', hread, hbranch⟩ := Declaration.read_of_ifConfigDecl (m := m) hk
  obtain rfl := List.singleton_inj.mp (hd.symm.trans hread)
  rw [← List.flatMap_map, hbranch, List.flatMap_map, itemsBelow, List.filter_flatMap,
    List.flatMap_assoc, childrenOf_eq (by cases m <;> rfl)]
  -- besides its branches, the block has tokens only
  have hothers : ∀ c ∈ e.elements, c.isKind .ifConfigClause = false →
      (c.itemsAt.filter fun x => x.introduces?.isSome).flatMap (Declaration.read m) = [] := by
    intro c hc hclause
    rcases listsMembers_of_branch hparts hc with hnone | ⟨hkc, -⟩
    · rw [itemsAt_of_leaf hnone]
      rfl
    · rw [isKind, hkc] at hclause
      cases hclause
  refine Eq.trans (List.flatMap_congr fun c hc => ?_) (List.flatMap_filter_of_nil hothers)
  obtain ⟨hc, hclause⟩ := List.mem_filter.mp hc
  rcases listsMembers_of_branch hparts hc with hnone | ⟨hkc, hlist⟩
  · rw [isKind, hnone] at hclause
    cases hclause
  · rw [hbranches c hc hlist, itemsAt_of_ifConfigClause hkc]

/-- What is found below a list of members, and in the branches of what is found there, are the
    declarations of its items. -/
theorem throughBranches_below (hb : b ∈ (ofTree (parse source).tree).nodes) (hclean : b.Clean)
    (hlist : b.ListsMembers) : (Outline.below m b).throughBranches =
      (b.itemsBelow.filter fun x => x.introduces?.isSome).flatMap (Declaration.read m) := by
  induction hheight : b.tree.height using Nat.strongRecOn generalizing b with
  | ind n ih =>
  rw [Outline.throughBranches_eq, (Outline.follows_below m hb).read, gatherBelow_eq, itemsBelow,
    List.flatMap_assoc, List.flatMap_assoc, List.filter_flatMap, List.flatMap_assoc]
  refine List.flatMap_congr fun e he => ?_
  have hcleane := hclean.of_mem_elements he
  rcases hlist.cases hclean he with hk | ⟨k, hk, hmember, -⟩ | ⟨hk, hparts⟩ | ⟨hk, htokens⟩
  · rw [gather_of_leaf hk, itemsAt_of_leaf hk]
    rfl
  · rw [itemsAt_of_isMember hk hmember, gather_of_isMember hcleane hk hmember]
    refine List.flatMap_congr fun x hx => flatMap_branches_of_ne fun d hd => ?_
    obtain ⟨hxe, hintro⟩ := List.mem_filter.mp hx
    obtain rfl := List.mem_singleton.mp hxe
    obtain ⟨K, hK⟩ := Option.isSome_iff_exists.mp hintro
    rw [Declaration.kind_of_mem_read hK hd]
    rintro rfl
    rw [introduces?, hk, Option.bind_some] at hK
    revert hmember hK
    cases k <;> decide
  · have hintro : e.introduces? = some .conditional := by rw [introduces?, hk]; rfl
    obtain ⟨d, hread, -⟩ := Declaration.read_of_ifConfigDecl (m := m) hk
    have hbelow : ∀ c ∈ e.elements, c.ListsMembers → (Outline.below m c).throughBranches =
        (c.itemsBelow.filter fun x => x.introduces?.isSome).flatMap (Declaration.read m) := by
      intro c hc hlistc
      have hlt := Tree.height_lt_of_mem_children (tree_mem_children hc)
      have hlt' := Tree.height_lt_of_mem_children (tree_mem_children he)
      obtain ⟨kc, hkc, -⟩ := id hlistc
      have hmem : c ∈ (ofTree (parse source).tree).nodes :=
        mem_nodes_trans hb (mem_nodes_of_mem_elements he
          (mem_nodes_of_mem_elements hc (mem_nodes_self hkc)))
      exact ih _ (by omega) hmem (hcleane.of_mem_elements hc) hlistc rfl
    rw [gather_of_isTaken (by rw [isTaken_visitDeclarations, hintro, hcleane.visibleIn]; rfl),
      itemsAt_of_ifConfigDecl hk, List.filter_cons_of_pos (by simp [hintro]), List.flatMap_cons,
      List.flatMap_nil, List.append_nil, List.flatMap_cons, hread, List.flatMap_cons,
      List.flatMap_nil, List.append_nil, flatMap_branches_of_ifConfigDecl hk hparts hread hbelow]
    rfl
  · obtain ⟨hgather, hitems⟩ := nil_of_ifConfigCondition (m := m) hcleane hk htokens
    rw [hgather, hitems]
    rfl

/-- An item introduces declarations, or it is a case or an associated type. -/
theorem introduces?_of_mem_itemsBelow {x : Cursor} (hclean : b.Clean) (hlist : b.ListsMembers)
    (hx : x ∈ b.itemsBelow) : x.introduces?.isSome = !x.isPart := by
  induction hheight : b.tree.height using Nat.strongRecOn generalizing b with
  | ind n ih =>
  obtain ⟨e, he, hx⟩ := List.mem_flatMap.mp hx
  have hcleane := hclean.of_mem_elements he
  rcases hlist.cases hclean he with hk | ⟨k, hk, hmember, hne⟩ | ⟨hk, hparts⟩ | ⟨hk, htokens⟩
  · rw [itemsAt_of_leaf hk] at hx
    exact absurd hx List.not_mem_nil
  · rw [itemsAt_of_isMember hk hmember] at hx
    obtain rfl := List.mem_singleton.mp hx
    exact introduces?_of_isMember hk hmember hne
  · rw [itemsAt_of_ifConfigDecl hk] at hx
    rcases List.mem_cons.mp hx with rfl | hx
    · rw [introduces?, isPart, isKind, isKind, hk]
      rfl
    · obtain ⟨c, hc, hx⟩ := List.mem_flatMap.mp hx
      rcases listsMembers_of_branch hparts hc with hnone | ⟨hkc, hlistc⟩
      · rw [itemsAt_of_leaf hnone] at hx
        exact absurd hx List.not_mem_nil
      · rw [itemsAt_of_ifConfigClause hkc] at hx
        have hlt := Tree.height_lt_of_mem_children (tree_mem_children hc)
        have hlt' := Tree.height_lt_of_mem_children (tree_mem_children he)
        exact ih _ (by omega) (hcleane.of_mem_elements hc) hlistc hx rfl
  · rw [(nil_of_ifConfigCondition (m := .sourceAccurate) hcleane hk htokens).2] at hx
    exact absurd hx List.not_mem_nil

end Walk

/-! ## Enumerations and protocols -/

namespace Cursor

variable {E x : Cursor}

/-- Whether a declaration is marked `indirect`. -/
def isIndirect (m : ViewMode) (c : Cursor) : Bool :=
  (Modifier.allIn m c).any fun x => x.name == "indirect"

theorem complete_of_mem_nodes (h : x ∈ (ofTree (parse source).tree).nodes) : x.tree.Complete :=
  forall_mem_nodes (P := fun c => c.tree.Complete)
    (fun _ hc _ he => complete_of_mem_elements hc he) (complete_parse source) x h

/-- A block of members in a text without problems. -/
theorem listsMembers_of_child? {b : Cursor} (hE : E ∈ (ofTree (parse source).tree).nodes)
    (hb : E.child? .memberBlock = some b) : b.ListsMembers := by
  have hk := nodeKind?_of_child? hb
  have hmem := mem_nodes_of_mem_elements (List.mem_of_find?_eq_some hb) (mem_nodes_self hk)
  have hwithin := Within.root.of_mem_nodes (mem_nodes_trans hE hmem)
  exact ⟨_, hk, rfl, (membered_parse source).here_of_within hwithin hk rfl⟩

end Cursor

/-- Whether a case is read as it should be from an element of a `case` declaration. -/
structure EnumCase.Describes (m : ViewMode) (enum declaration element : Cursor) (c : EnumCase) :
    Prop where
  name : c.name = ((element.child? .declaredName).map Cursor.description).getD ""
  /-- Attributes and modifiers are those of the declaration that the element stands in. -/
  attributes : c.attributes = Attribute.allIn m declaration
  modifiers : c.modifiers = Modifier.allIn m declaration
  isIndirect : c.isIndirect = true ↔ enum.isIndirect m = true ∨ declaration.isIndirect m = true

/-- Whether declarations, with those of the branches of conditional compilation among them, are
    what items introduce. -/
structure Outline.Reports (m : ViewMode) (items : List Cursor) (o : Outline) : Prop where
  /-- In the order of the text, the declarations are what is read of the items. -/
  read : o.throughBranches = items.flatMap (Declaration.read m)
  /-- Each item is read as one declaration, a `let` or `var` as one for each binding. -/
  records : o.throughBranches.map Declaration.record = items.flatMap (Cursor.records m)
  records_ne_nil : ∀ x ∈ items, x.records m ≠ []

section Forms

open Cursor Declaration

variable {E : Cursor}

/-- The declarations inside an enumeration or protocol report the items that are none of its
    parts. -/
theorem reports_members {p : Cursor → Bool} (hok : (parse source).ok = true)
    (hE : E ∈ (ofTree (parse source).tree).nodes)
    (hp : ∀ x ∈ E.memberItems, p x = !x.isPart) :
    (Outline.insideWith (Declaration.read m) m (E.child? .memberBlock)).Reports m
      (E.memberItems.filter p) := by
  have hclean := (clean_parse hok).of_mem_nodes hE
  -- what is not a part introduces declarations
  have hintro : ∀ x ∈ E.memberItems, p x = x.introduces?.isSome := by
    intro x hx
    rw [hp x hx]
    rw [memberItems] at hx
    cases hb : E.child? .memberBlock with
    | none => rw [hb] at hx; exact absurd hx List.not_mem_nil
    | some b =>
      rw [hb] at hx
      exact (introduces?_of_mem_itemsBelow (hclean.of_child? hb) (listsMembers_of_child? hE hb)
        hx).symm
  have hread : (Outline.insideWith (Declaration.read m) m
      (E.child? .memberBlock)).throughBranches =
        (E.memberItems.filter p).flatMap (Declaration.read m) := by
    rw [List.filter_congr hintro, memberItems]
    cases hb : E.child? .memberBlock with
    | none => exact Outline.throughBranches_nil
    | some b =>
      have hmem : b ∈ E.nodes := mem_nodes_of_mem_elements (List.mem_of_find?_eq_some hb)
        (mem_nodes_self (nodeKind?_of_child? hb))
      exact throughBranches_below (mem_nodes_trans hE hmem) (hclean.of_child? hb)
        (listsMembers_of_child? hE hb)
  have hintros : ∀ x ∈ E.memberItems.filter p, x.introduces?.isSome = true := by
    intro x hx
    obtain ⟨hx, hpx⟩ := List.mem_filter.mp hx
    rw [← hintro x hx]
    exact hpx
  refine ⟨hread, ?_, fun x hx => ?_⟩
  · rw [hread, List.map_flatMap]
    refine List.flatMap_congr fun x hx => ?_
    obtain ⟨K, hK⟩ := Option.isSome_iff_exists.mp (hintros x hx)
    exact Declaration.map_record_read hK
  · have hmem := (sublist_memberItems E).subset (List.mem_filter.mp hx).1
    exact records_ne_nil m (complete_of_mem_nodes (mem_nodes_trans hE hmem)) (hintros x hx)

theorem Declaration.read_of_enumDecl (h : E.tree.nodeKind? = some .enumDecl) :
    Declaration.read m E = [.mk (Header.ofCursor m E) E (.nominal
      (.enumeration (EnumCase.allIn m E)) (Generics.ofCursor m E) (inheritanceOf m E)
      (Outline.insideWith (Declaration.read m) m (E.child? .memberBlock)))] := by
  have hvariable : E.isKind .variableDecl = false := by rw [isKind, h]; rfl
  rw [read_eq_readWith, readWith, hvariable, if_neg (by decide)]
  simp only [Details.ofCursor?, NominalForm.ofCursor?, h]
  rfl

theorem Declaration.read_of_protocolDecl (h : E.tree.nodeKind? = some .protocolDecl) :
    Declaration.read m E = [.mk (Header.ofCursor m E) E (.nominal
      (.protocolType (((E.child? .primaryAssociatedTypeClause).map fun p =>
        (p.children.filter fun e => e.isKind .declaredName).map description).getD [])
        (AssociatedType.allIn m E)) (Generics.ofCursor m E) (inheritanceOf m E)
      (Outline.insideWith (Declaration.read m) m (E.child? .memberBlock)))] := by
  have hvariable : E.isKind .variableDecl = false := by rw [isKind, h]; rfl
  rw [read_eq_readWith, readWith, hvariable, if_neg (by decide)]
  simp only [Details.ofCursor?, NominalForm.ofCursor?, h]
  rfl

/-- The cases of an enumeration are those of the `case` declarations among its items. -/
theorem forall₂_describes :
    List.Forall₂ (fun (c : EnumCase) (p : Cursor × Cursor) => c.Describes m E p.1 p.2)
      (EnumCase.allIn m E)
      ((E.memberItems.filter fun x => x.isKind .enumCaseDecl).flatMap fun d =>
        (d.elements.filter fun e => e.isKind .enumCaseElement).map fun e => (d, e)) := by
  rw [EnumCase.allIn, membersOf_eq (by cases m <;> rfl) (by decide) (by decide) (by decide)]
  have hcase : ∀ d e, (EnumCase.ofCursor m (E.isIndirect m) d e).Describes m E d e :=
    fun d e => ⟨rfl, rfl, rfl, by simp [EnumCase.ofCursor, isIndirect]⟩
  induction E.memberItems.filter fun x => x.isKind .enumCaseDecl with
  | nil => exact .nil
  | cons d ds ih =>
    rw [List.flatMap_cons, List.flatMap_cons, childrenOf_eq (by cases m <;> rfl)]
    refine List.rel_append ?_ ih
    rw [List.forall₂_map_left_iff, List.forall₂_map_right_iff, List.forall₂_same]
    exact fun e _ => hcase d e

end Forms

/-- The items of an enumeration or protocol, those in conditional compilation included, are reported
    once each and in the order of the text: cases of an enumeration by the enumeration, associated
    types of a protocol by the protocol, and all others among the declarations inside it and in the
    branches of conditional compilation there. -/
theorem items_reported {source : String} {E : Cursor} (m : ViewMode)
    (hok : (parse source).ok = true) (hE : E ∈ (Cursor.ofTree (parse source).tree).nodes) :
    (E.memberItems.Sublist E.nodes ∧ E.memberItems.Nodup) ∧
    (E.isKind .enumDecl = true → (∀ x ∈ E.memberItems, x.isKind .associatedTypeDecl = false) →
      ∃ cases generics inheritance members,
        Declaration.read m E = [.mk (Header.ofCursor m E) E
          (.nominal (.enumeration cases) generics inheritance members)] ∧
        List.Forall₂ (fun (c : EnumCase) (p : Cursor × Cursor) => c.Describes m E p.1 p.2) cases
          ((E.memberItems.filter fun x => x.isKind .enumCaseDecl).flatMap fun d =>
            (d.elements.filter fun e => e.isKind .enumCaseElement).map fun e => (d, e)) ∧
        (∀ d ∈ E.memberItems, d.isKind .enumCaseDecl = true →
          ∃ e ∈ d.elements, e.isKind .enumCaseElement = true) ∧
        Outline.Reports m (E.memberItems.filter fun x => !x.isKind .enumCaseDecl) members) ∧
    (E.isKind .protocolDecl = true → (∀ x ∈ E.memberItems, x.isKind .enumCaseDecl = false) →
      ∃ primary associated generics inheritance members,
        Declaration.read m E = [.mk (Header.ofCursor m E) E
          (.nominal (.protocolType primary associated) generics inheritance members)] ∧
        associated = (E.memberItems.filter fun x => x.isKind .associatedTypeDecl).map
          (AssociatedType.ofCursor m) ∧
        Outline.Reports m (E.memberItems.filter fun x => !x.isKind .associatedTypeDecl)
          members) := by
  have hitems := Cursor.sublist_memberItems E
  refine ⟨⟨hitems, hitems.nodup (Cursor.nodes_nodup E)⟩, fun hkind hno => ?_, fun hkind hno => ?_⟩
  · have hk := Cursor.nodeKind?_of_isKind hkind
    have hmembers := reports_members (m := m) (p := fun x => !x.isKind .enumCaseDecl) hok hE
      fun x hx => by rw [Cursor.isPart, hno x hx, Bool.false_or]
    refine ⟨_, _, _, _, Declaration.read_of_enumDecl hk, forall₂_describes, fun d hd hcase => ?_,
      hmembers⟩
    have hcomplete := Cursor.complete_of_mem_nodes (Cursor.mem_nodes_trans hE (hitems.subset hd))
    obtain ⟨e, he, hke⟩ :=
      Cursor.exists_part hcomplete (Cursor.nodeKind?_of_isKind hcase) rfl
    exact ⟨e, he, by rw [Cursor.isKind, hke]; rfl⟩
  · have hk := Cursor.nodeKind?_of_isKind hkind
    have hmembers := reports_members (m := m) (p := fun x => !x.isKind .associatedTypeDecl) hok hE
      fun x hx => by rw [Cursor.isPart, hno x hx, Bool.or_false]
    refine ⟨_, _, _, _, _, Declaration.read_of_protocolDecl hk, ?_, hmembers⟩
    rw [AssociatedType.allIn,
      Cursor.membersOf_eq (by cases m <;> rfl) (by decide) (by decide) (by decide)]

/-- An enumeration with conditional compilation. -/
def branchedEnum : String := "enum E \x7b case a, b\n#if X\ncase c\nlet d = 1\n#endif\n\x7d"

/-- Three cases are reported by the enumeration, one of them from the branch; the block and what
    else is in the branch are reported among the declarations. -/
theorem items_reported_branchedEnum :
    ∃ E ∈ (Cursor.ofTree (parse branchedEnum).tree).nodes,
      (E.isKind .enumDecl = true ∧ ∀ x ∈ E.memberItems, x.isKind .associatedTypeDecl = false) ∧
      ∃ cases generics inheritance members,
        Declaration.read .fixedUp E = [.mk (Header.ofCursor .fixedUp E) E
          (.nominal (.enumeration cases) generics inheritance members)] ∧
        cases.length = 3 ∧
        (Outline.throughBranches members).map (fun d => d.header.name) = ["X", "d"] := by
  have hok : (parse branchedEnum).ok = true := by decide +kernel
  have hfound : ((Cursor.ofTree (parse branchedEnum).tree).nodes.any fun c =>
      c.isKind .enumDecl && (c.memberItems.all (fun x => !x.isKind .associatedTypeDecl) &&
        (((c.memberItems.filter fun x => x.isKind .enumCaseDecl).flatMap fun d =>
          (d.elements.filter fun e => e.isKind .enumCaseElement).map fun e => (d, e)).length == 3 &&
        ((c.memberItems.filter fun x => !x.isKind .enumCaseDecl).flatMap
          (Declaration.read .fixedUp)).map (fun d => d.header.name) == ["X", "d"]))) = true := by
    decide +kernel
  obtain ⟨E, hE, hcond⟩ := List.any_eq_true.mp hfound
  simp only [Bool.and_eq_true, beq_iff_eq, List.all_eq_true, Bool.not_eq_true'] at hcond
  obtain ⟨hkind, hno, hpairs, hnames⟩ := hcond
  obtain ⟨cases, generics, inheritance, members, hread, hcases, -, hmembers⟩ :=
    (items_reported .fixedUp hok hE).2.1 hkind hno
  refine ⟨E, hE, ⟨hkind, hno⟩, cases, generics, inheritance, members, hread, ?_, ?_⟩
  · rw [hcases.length_eq, hpairs]
  · rw [hmembers.read, hnames]

end SwiftOutline
