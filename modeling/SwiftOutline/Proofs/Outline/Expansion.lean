/-
  SwiftOutline.Proofs.Outline.Expansion

  All declarations of an outline, nested ones included. Each kind of declaration
  looks for nested ones below certain parts of its node only, and what it finds
  there does not depend on how deep the reading may go.
-/
import Mathlib.Data.List.Perm.Basic
import SwiftOutline.Proofs.Outline.Search

namespace SwiftOutline

variable {m : ViewMode} {c e root x : Cursor}

/-! ## Expanding declarations -/

namespace Declaration

mutual

/-- A declaration and all that are nested in it. -/
def expand : Declaration → List Declaration
  | .mk header place details => .mk header place details :: expandDetails details

/-- All declarations that are nested in one with these details. -/
def expandDetails : Details → List Declaration
  | .nominal _ _ _ ds | .function _ _ _ ds | .initializer _ _ _ ds | .deinitializer _ ds
  | .subscript _ _ _ ds | .switch _ ds => expandAll ds
  | .conditional branches => expandBranches branches
  | .binding _ | .typeAlias _ _ _ | .moduleImport _ _ | .operator _ _ | .precedenceGroup _ => []

/-- Declarations and all that are nested in them. -/
def expandAll : List Declaration → List Declaration
  | [] => []
  | d :: ds => expand d ++ expandAll ds

/-- All declarations of branches and all that are nested in them. -/
def expandBranches : List Branch → List Declaration
  | [] => []
  | .mk _ _ ds :: branches => expandAll ds ++ expandBranches branches

end

theorem expandAll_eq (ds : List Declaration) : expandAll ds = ds.flatMap expand := by
  induction ds with
  | nil => rfl
  | cons d ds ih => rw [expandAll, List.flatMap_cons, ih]

/-- The records of declarations and of all that are nested in them. -/
def allRecords (ds : List Declaration) : List Record := (expandAll ds).map record

theorem allRecords_flatMap {α : Type} (l : List α) (f : α → List Declaration) :
    allRecords (l.flatMap f) = l.flatMap fun a => allRecords (f a) := by
  simp only [allRecords, expandAll_eq, List.flatMap_assoc, List.map_flatMap]

theorem allRecords_perm {ds ds' : List Declaration} (h : ds.Perm ds') :
    (allRecords ds).Perm (allRecords ds') := by
  simp only [allRecords, expandAll_eq]
  exact (h.flatMap_right expand).map record

end Declaration

/-! ## Parts that are searched -/

namespace Cursor

/-- The parts of a node below which the declarations nested in its own are looked for. -/
def entries (m : ViewMode) (c : Cursor) : List Cursor :=
  match c.introduces? with
  | some .actor | some .classType | some .enumeration | some .extensionOf | some .protocolType
  | some .structType => (c.child? .memberBlock).toList
  | some .function | some .initializer | some .deinitializer => (c.child? .codeBlock).toList
  | some .subscript => (c.child? .accessorBlock).toList
  | some .conditional => c.childrenOf m .ifConfigClause
  | some .switch => [c]
  | _ => []

/-- The parts that are searched are children of the node, unless it is searched as a whole. -/
theorem entries_eq_self_or_sublist (m : ViewMode) (c : Cursor) :
    c.entries m = [c] ∨ (c.entries m).Sublist c.elements := by
  have hchild : ∀ k, (c.child? k).toList.Sublist c.elements := by
    intro k
    cases hk : c.child? k with
    | none => exact List.nil_sublist _
    | some b => exact List.singleton_sublist.mpr (List.mem_of_find?_eq_some hk)
  unfold entries
  split
  all_goals first
    | exact Or.inr (hchild _)
    | exact Or.inl rfl
    | exact Or.inr (List.nil_sublist _)
    | skip
  exact Or.inr (List.filter_sublist.trans (List.filter_sublist.trans List.filter_sublist))

end Cursor

/-! ## Levels of reading

A declaration is read with as many levels as its node has. More levels change nothing, since what
is nested has fewer. -/

section Levels

variable {read read' : Cursor → List Declaration}

theorem Outline.belowWith_congr_of_height
    (h : ∀ x : Cursor, x.tree.height < c.tree.height → read x = read' x) :
    belowWith read m c = belowWith read' m c :=
  ofNodes_congr fun x hx => h x (Cursor.height_lt_of_mem_gatherBelow hx)

theorem Details.ofCursor?_congr_of_height
    (h : ∀ x : Cursor, x.tree.height < c.tree.height → read x = read' x) :
    ofCursor? read m c = ofCursor? read' m c := by
  have hbelow : ∀ e ∈ c.elements, Outline.belowWith read m e = Outline.belowWith read' m e := by
    intro e he
    have hlt := Tree.height_lt_of_mem_children (Cursor.tree_mem_children he)
    exact Outline.belowWith_congr_of_height fun x hx => h x (Nat.lt_trans hx hlt)
  have hinside : ∀ k, Outline.insideWith read m (c.child? k) =
      Outline.insideWith read' m (c.child? k) := by
    intro k
    cases hk : c.child? k with
    | none => rfl
    | some b => exact hbelow b (List.mem_of_find?_eq_some hk)
  have hbranches : (c.childrenOf m .ifConfigClause).map (fun b =>
      Branch.mk ((b.firstSignificant?.map Cursor.text).getD "")
        ((b.child? .ifConfigCondition).map Cursor.description) (Outline.belowWith read m b)) =
      (c.childrenOf m .ifConfigClause).map fun b =>
        .mk ((b.firstSignificant?.map Cursor.text).getD "")
          ((b.child? .ifConfigCondition).map Cursor.description)
          (Outline.belowWith read' m b) := by
    refine List.map_congr_left fun b hb => ?_
    have hmem : b ∈ c.elements :=
      (List.filter_sublist.trans (List.filter_sublist.trans List.filter_sublist)).subset hb
    rw [hbelow b hmem]
  unfold ofCursor?
  simp only [hinside, hbranches, Outline.belowWith_congr_of_height h]

theorem Declaration.readWith_congr_of_height
    (h : ∀ x : Cursor, x.tree.height < c.tree.height → read x = read' x) :
    readWith read m c = readWith read' m c := by
  rw [readWith, readWith, Details.ofCursor?_congr_of_height h]

theorem Declaration.readWith_of_leaf (h : c.tree.nodeKind? = none) : readWith read m c = [] := by
  have hkind : c.isKind .variableDecl = false := by rw [Cursor.isKind, h]; rfl
  have hdetails : Details.ofCursor? read m c = none := by
    simp only [Details.ofCursor?, NominalForm.ofCursor?, h]
  rw [readWith, hkind, hdetails]
  rfl

end Levels

namespace Declaration

theorem nodeKind?_of_height_eq_zero (h : c.tree.height = 0) : c.tree.nodeKind? = none := by
  cases hc : c.tree with
  | leaf t => rfl
  | node k children => rw [hc] at h; exact absurd h (Nat.succ_ne_zero _)

theorem readWithin_eq_read {levels : Nat} (h : c.tree.height ≤ levels) :
    readWithin m levels c = read m c := by
  induction levels using Nat.strongRecOn generalizing c with
  | ind n ih =>
    rw [read]
    cases hheight : c.tree.height with
    | zero =>
      cases n with
      | zero => rfl
      | succ n => exact readWith_of_leaf (nodeKind?_of_height_eq_zero hheight)
    | succ l =>
      obtain ⟨k, rfl⟩ : ∃ k, n = k + 1 := ⟨n - 1, by omega⟩
      rw [readWithin, readWithin]
      refine readWith_congr_of_height fun x hx => ?_
      rw [ih k (by omega) (by omega), ih l (by omega) (by omega)]

/-- What is nested in a declaration is read in the same way as the declaration itself. -/
theorem read_eq_readWith (m : ViewMode) (c : Cursor) : read m c = readWith (read m) m c := by
  have hlevels : read m c = readWithin m (c.tree.height + 1) c :=
    (readWithin_eq_read (Nat.le_succ _)).symm
  rw [hlevels, readWithin]
  exact readWith_congr_of_height fun x hx => readWithin_eq_read (Nat.le_of_lt hx)

end Declaration

/-! ## Nested declarations -/

section Nested

variable {read : Cursor → List Declaration} {K : DeclarationKind} {d : Details}

open Declaration

theorem expandAll_insideWith (o : Option Cursor) :
    expandAll (Outline.insideWith read m o) =
      o.toList.flatMap fun b => expandAll (Outline.belowWith read m b) := by
  cases o with
  | none => rfl
  | some b => simp [Outline.insideWith]

theorem expandBranches_map (f : Cursor → String) (g : Cursor → Option String)
    (ds : Cursor → List Declaration) (bs : List Cursor) :
    expandBranches (bs.map fun b => .mk (f b) (g b) (ds b)) =
      bs.flatMap fun b => expandAll (ds b) := by
  induction bs with
  | nil => rfl
  | cons b bs ih => rw [List.map_cons, expandBranches, List.flatMap_cons, ih]

/-- The declarations nested in one are those below the parts of its node that are searched. -/
theorem expandDetails_eq (hK : c.introduces? = some K) (hd : Details.ofCursor? read m c = some d) :
    expandDetails d =
      (c.entries m).flatMap fun b => expandAll (Outline.belowWith read m b) := by
  have hentries := Cursor.entries.eq_1 m c
  rw [hK] at hentries
  obtain ⟨k, hk, hof⟩ := Option.bind_eq_some_iff.mp hK
  unfold DeclarationKind.ofNode? at hof
  split at hof <;> cases hof
  all_goals
    rw [hentries]
    simp only [Details.ofCursor?, NominalForm.ofCursor?, hk] at hd
    cases hd <;> simp only [expandDetails, expandAll_insideWith, expandBranches_map,
      List.flatMap_nil, List.flatMap_singleton]

theorem expandAll_variablesOf (m : ViewMode) (c : Cursor) :
    expandAll (variablesOf m c) = variablesOf m c := by
  have hsingle : ∀ d ∈ variablesOf m c, expand d = [d] := by
    intro d hd
    unfold variablesOf at hd
    split at hd
    · obtain ⟨p, -, rfl⟩ := List.mem_map.mp hd
      rfl
    · exact absurd hd List.not_mem_nil
  rw [expandAll_eq, List.flatMap_congr hsingle, List.flatMap_singleton']

/-- All records of what a node introduces: its own, and those found below its parts. -/
theorem allRecords_readWith (hK : c.introduces? = some K) :
    allRecords (readWith read m c) =
      c.records m ++
        (c.entries m).flatMap fun b => allRecords (Outline.belowWith read m b) := by
  by_cases hne : K = .binding
  · subst hne
    have hread : readWith read m c = variablesOf m c := by
      rw [readWith, isKind_variableDecl hK]
      rfl
    have hentries : c.entries m = [] := by
      rw [Cursor.entries, hK]
    have hrecords := map_record_readWith (f := read) (m := m) hK
    rw [hread] at hrecords ⊢
    rw [allRecords, expandAll_variablesOf, hrecords, hentries, List.flatMap_nil, List.append_nil]
  · obtain ⟨d, hd, -, -⟩ := exists_details (m := m) (f := read) hK hne
    have hread : readWith read m c = [.mk (Header.ofCursor m c) c d] := by
      rw [readWith, isKind_variableDecl hK, if_neg (by simpa using hne), hd]
      rfl
    have hrecords := map_record_readWith (f := read) (m := m) hK
    rw [hread] at hrecords ⊢
    rw [← hrecords]
    simp only [allRecords, expandAll_eq, List.flatMap_singleton, expand, List.map_cons,
      List.map_nil, expandDetails_eq hK hd, List.map_flatMap, List.singleton_append]

/-- An element that is put first in one of some groups comes first in all of them together, apart
    from their order. -/
theorem perm_cons_group {α κ : Type} [DecidableEq κ] {groups : κ → List α} {ks : List κ} {k : κ}
    (hk : k ∈ ks) (hnodup : ks.Nodup) (a : α) :
    (ks.flatMap fun k' => if k = k' then a :: groups k' else groups k').Perm
      (a :: ks.flatMap groups) := by
  obtain ⟨before, after, rfl⟩ := List.append_of_mem hk
  have hbefore : k ∉ before := fun h => List.disjoint_of_nodup_append hnodup h List.mem_cons_self
  have hafter : k ∉ after := (List.nodup_cons.mp (List.nodup_append.mp hnodup).2.1).1
  have hsame : ∀ l : List κ, k ∉ l →
      (l.flatMap fun k' => if k = k' then a :: groups k' else groups k') = l.flatMap groups := by
    intro l hl
    refine List.flatMap_congr fun k' hk' => if_neg ?_
    rintro rfl
    exact hl hk'
  rw [List.flatMap_append, List.flatMap_cons, List.flatMap_append, List.flatMap_cons, if_pos rfl,
    hsame before hbefore, hsame after hafter]
  exact List.perm_middle

/-- Grouping nodes by the kind that they introduce keeps all of them. -/
theorem groups_perm {nodes : List Cursor} (h : ∀ x ∈ nodes, x.introduces?.isSome = true) :
    (DeclarationKind.all.flatMap fun k => nodes.filter fun x => x.introduces? == some k).Perm
      nodes := by
  induction nodes with
  | nil => simp
  | cons x nodes ih =>
    obtain ⟨k, hk⟩ := Option.isSome_iff_exists.mp (h x List.mem_cons_self)
    have hgroup : ∀ k', ((x :: nodes).filter fun x => x.introduces? == some k') =
        if k = k' then x :: nodes.filter fun x => x.introduces? == some k'
        else nodes.filter fun x => x.introduces? == some k' := by
      intro k'
      rw [List.filter_cons, hk]
      by_cases heq : k = k' <;> simp [heq]
    simp only [hgroup]
    have hall : k ∈ DeclarationKind.all := by cases k <;> decide
    refine (perm_cons_group hall (by decide) x).trans ?_
    exact (ih fun y hy => h y (List.mem_cons_of_mem _ hy)).cons x

/-- A search finds all that its nodes introduce or hold, however it groups them. -/
theorem allRecords_ofNodes {nodes : List Cursor}
    (h : ∀ x ∈ nodes, x.introduces?.isSome = true) :
    (allRecords (Outline.ofNodes read nodes)).Perm
      (nodes.flatMap fun x => allRecords (read x)) := by
  rw [← allRecords_flatMap]
  refine allRecords_perm ?_
  have hgroups := (groups_perm h).flatMap_right read
  rwa [List.flatMap_assoc] at hgroups

end Nested

end SwiftOutline
