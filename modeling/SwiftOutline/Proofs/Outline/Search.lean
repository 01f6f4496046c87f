/-
  SwiftOutline.Proofs.Outline.Search

  What an outline records at the top level: the nodes that introduce
  declarations and stand in no other such node, by kind and in preorder. What is
  recorded of a node can be told without reading the declaration.
-/
import SwiftOutline.Outline.Collect
import SwiftOutline.Proofs.Tree.Descent

namespace SwiftOutline

variable {m : ViewMode} {c root x : Cursor} {K : DeclarationKind}

/-! ## Nodes of interest -/

namespace Cursor

/-- The kind of the declarations that a node introduces. -/
def introduces? (c : Cursor) : Option DeclarationKind :=
  c.tree.nodeKind?.bind DeclarationKind.ofNode?

/-- Whether a node is a part of a protocol or an enumeration, rather than a declaration of its
    own. -/
def isPart (c : Cursor) : Bool := c.isKind .associatedTypeDecl || c.isKind .enumCaseDecl

/-- Whether a node is visible, and all that it stands in up to `root` is visible too, introduces no
    declarations and is no part of one. -/
def isOutermost (m : ViewMode) (c root : Cursor) : Bool :=
  c.visibleIn m &&
    (c.ancestorsIn root).all fun a => a.visibleIn m && (a.introduces?.isNone && !a.isPart)

theorem visitDeclarations_take (m : ViewMode) (k : NodeKind) :
    (visitDeclarations m k == .take) =
      (m.shows k && (DeclarationKind.ofNode? k).isSome) := by
  unfold visitDeclarations
  cases m.shows k with
  | false => rfl
  | true =>
    cases DeclarationKind.ofNode? k with
    | some K => rfl
    | none =>
      simp only [Bool.not_true, Option.isSome_none, Bool.false_eq_true, if_false, Bool.and_false]
      split <;> rfl

theorem visitDeclarations_enter (m : ViewMode) (k : NodeKind) :
    (visitDeclarations m k == .enter) =
      (m.shows k && ((DeclarationKind.ofNode? k).isNone &&
        !(k == .associatedTypeDecl || k == .enumCaseDecl))) := by
  unfold visitDeclarations
  cases m.shows k with
  | false => rfl
  | true =>
    cases DeclarationKind.ofNode? k with
    | some K => rfl
    | none => cases k == .associatedTypeDecl || k == .enumCaseDecl <;> rfl

theorem isTaken_visitDeclarations (m : ViewMode) (c : Cursor) :
    c.isTaken (visitDeclarations m) = (c.introduces?.isSome && c.visibleIn m) := by
  cases hk : c.tree.nodeKind? with
  | none => simp [isTaken, introduces?, hk]
  | some k =>
    simp only [isTaken, introduces?, visibleIn, hk, Option.any_some, Option.bind_some,
      Option.all_some, visitDeclarations_take, Bool.and_comm]

theorem isEntered_visitDeclarations {k : NodeKind} (m : ViewMode)
    (hk : c.tree.nodeKind? = some k) :
    c.isEntered (visitDeclarations m) =
      (c.visibleIn m && (c.introduces?.isNone && !c.isPart)) := by
  have hkind : ∀ k', (some k == some k') = (k == k') := fun _ => rfl
  simp only [isEntered, introduces?, visibleIn, isPart, isKind, hk, Option.any_some,
    Option.bind_some, Option.all_some, visitDeclarations_enter, hkind]

/-- All ancestors are nodes. -/
theorem exists_nodeKind_of_mem_ancestorsIn {a : Cursor} (h : a ∈ x.ancestorsIn root) :
    ∃ k, a.tree.nodeKind? = some k := by
  have hnode : ∀ (t : Tree) (above : List Frame), ∀ a ∈ ancestorsOf t above,
      ∃ k, a.tree.nodeKind? = some k := by
    intro t above
    induction above generalizing t with
    | nil => intro a ha; exact absurd ha List.not_mem_nil
    | cons f above ih =>
      intro a ha
      rcases List.mem_cons.mp ha with rfl | ha
      · exact ⟨f.kind, rfl⟩
      · exact ih _ a ha
  exact hnode _ _ a (List.mem_of_mem_take h)

/-- A search for declarations takes the outermost nodes that introduce some, in preorder. -/
theorem gather_visitDeclarations (m : ViewMode) (root : Cursor) :
    root.gather (visitDeclarations m) =
      root.nodes.filter fun c => c.introduces?.isSome && c.isOutermost m root := by
  rw [gather_eq_filter]
  refine List.filter_congr fun c _ => ?_
  have hentered : (c.ancestorsIn root).all (isEntered (visitDeclarations m)) =
      (c.ancestorsIn root).all fun a =>
        a.visibleIn m && (a.introduces?.isNone && !a.isPart) := by
    rw [Bool.eq_iff_iff, List.all_eq_true, List.all_eq_true]
    refine forall₂_congr fun a ha => ?_
    obtain ⟨k, hk⟩ := exists_nodeKind_of_mem_ancestorsIn ha
    rw [isEntered_visitDeclarations m hk]
  rw [isTaken_visitDeclarations, hentered, isOutermost, Bool.and_assoc]

end Cursor

/-! ## Records -/

/-- What an outline tells of a declaration without its properties: the node that introduces it,
    its kind, and of a variable the place of its binding. -/
structure Record where
  place : Cursor
  kind : DeclarationKind
  binding : Option Span

/-- Where the binding of a variable stands. -/
def Details.bindingSpan? : Details → Option Span
  | .binding b => some b.span
  | _ => none

/-- The record of a declaration. -/
def Declaration.record (d : Declaration) : Record := ⟨d.place, d.kind, d.details.bindingSpan?⟩

namespace Cursor

/-- The bindings that are visible in the first list of bindings of a `let` or `var`. -/
def bindingsIn (m : ViewMode) (c : Cursor) : List Cursor :=
  ((c.child? .patternBindingList).map (childrenOf m .patternBinding)).getD []

/-- The records of the declarations that a node introduces: one for each visible binding of a `let`
    or `var`, otherwise one. -/
def records (m : ViewMode) (c : Cursor) : List Record :=
  match c.introduces? with
  | none => []
  | some .binding => (c.bindingsIn m).map fun b => ⟨c, .binding, some b.span⟩
  | some K => [⟨c, K, none⟩]

end Cursor

namespace Declaration

theorem map_span_allFrom (m : ViewMode) (cs : List Cursor) :
    (Binding.allFrom m cs).map (fun p => p.2.span) = cs.map Cursor.span := by
  induction cs with
  | nil => rfl
  | cons c later ih => rw [Binding.allFrom, List.map_cons, List.map_cons, ih]; rfl

/-- A `let` or `var` is read as one variable for each binding. -/
theorem map_record_variablesOf (m : ViewMode) (c : Cursor) :
    (variablesOf m c).map record =
      (c.bindingsIn m).map fun b => ⟨c, .binding, some b.span⟩ := by
  unfold variablesOf Cursor.bindingsIn
  cases c.child? .patternBindingList with
  | none => rfl
  | some list =>
    have hspans := congrArg (List.map fun s => Record.mk c .binding (some s))
      (map_span_allFrom m (list.childrenOf m .patternBinding))
    rw [List.map_map, List.map_map] at hspans
    rw [List.map_map]
    exact hspans

/-- Every node that introduces declarations other than variables is read. -/
theorem exists_details {f : Cursor → List Declaration} (hK : c.introduces? = some K)
    (hne : K ≠ .binding) :
    ∃ d, Details.ofCursor? f m c = some d ∧ d.kind = K ∧ d.bindingSpan? = none := by
  obtain ⟨k, hk, hof⟩ := Option.bind_eq_some_iff.mp hK
  unfold DeclarationKind.ofNode? at hof
  -- one case for each kind of node that introduces declarations
  split at hof <;> cases hof
  all_goals
    first
    | exact absurd rfl hne
    | exact ⟨_, by simp only [Details.ofCursor?, NominalForm.ofCursor?, hk]; rfl, rfl, rfl⟩

theorem isKind_variableDecl (hK : c.introduces? = some K) :
    c.isKind .variableDecl = (K == .binding) := by
  obtain ⟨k, hk, hof⟩ := Option.bind_eq_some_iff.mp hK
  unfold DeclarationKind.ofNode? at hof
  split at hof <;> cases hof <;> rw [Cursor.isKind, hk] <;> rfl

theorem map_record_readWith {f : Cursor → List Declaration} (hK : c.introduces? = some K) :
    (readWith f m c).map record = c.records m := by
  rw [readWith, isKind_variableDecl hK]
  by_cases hne : K = .binding
  · subst hne
    rw [if_pos (by decide), map_record_variablesOf, Cursor.records, hK]
  · obtain ⟨d, hd, hkind, hspan⟩ := exists_details (m := m) (f := f) hK hne
    rw [if_neg (by simpa using hne), hd]
    have hrecord : c.records m = [⟨c, K, none⟩] := by
      unfold Cursor.records
      rw [hK]
      split
      · next h => exact nomatch h
      · next h => exact absurd (Option.some.inj h) hne
      · next h => rw [Option.some.inj h]
    rw [hrecord]
    simp [record, place, kind, details, hkind, hspan]

/-- The declarations of a node have the records that the node tells. -/
theorem map_record_read (hK : c.introduces? = some K) : (read m c).map record = c.records m := by
  obtain ⟨k, hk, -⟩ := Option.bind_eq_some_iff.mp hK
  obtain ⟨n, hn⟩ : ∃ n, c.tree.height = n + 1 := by
    cases htree : c.tree with
    | leaf t => rw [htree] at hk; exact nomatch hk
    | node k children => exact ⟨_, rfl⟩
  rw [read, hn, readWithin]
  exact map_record_readWith hK

end Declaration

/-! ## Outlines -/

theorem Cursor.kind_of_mem_records {r : Record} (h : r ∈ c.records m) :
    c.introduces? = some r.kind := by
  unfold records at h
  split at h
  · exact absurd h List.not_mem_nil
  · next hK =>
    obtain ⟨b, -, rfl⟩ := List.mem_map.mp h
    exact hK
  · next hK =>
    rw [List.mem_singleton.mp h]
    exact hK

theorem Declaration.kind_of_mem_read {d : Declaration} (hK : c.introduces? = some K)
    (hd : d ∈ read m c) : d.kind = K := by
  have hrecord : d.record ∈ c.records m := by
    rw [← map_record_read hK]
    exact List.mem_map_of_mem hd
  have hkind := Cursor.kind_of_mem_records hrecord
  rw [hK] at hkind
  exact (Option.some.inj hkind).symm

namespace Outline

/-- The outline of a file is read from what its children hold. -/
theorem ofCursor_sourceFile (m : ViewMode) (ts : List Tree) :
    ofCursor m (.ofTree (.node .sourceFile ts)) =
      ofNodes (Declaration.read m) ((Cursor.childrenFrom .sourceFile 0 [] [] 0 ts).flatMap
        (Cursor.gather (visitDeclarations m))) := by
  have hvisit : visitDeclarations m .sourceFile = .enter := by cases m <;> rfl
  rw [ofCursor, Cursor.gather_of_node (k := .sourceFile) rfl, hvisit]
  dsimp only
  rw [Cursor.gatherBelow_eq]
  rfl

theorem ofNodes_congr {read read' : Cursor → List Declaration} {nodes : List Cursor}
    (h : ∀ x ∈ nodes, read x = read' x) : ofNodes read nodes = ofNodes read' nodes := by
  refine List.flatMap_congr fun k _ => List.flatMap_congr fun x hx => ?_
  exact h x (List.mem_filter.mp hx).1

/-- Of groups by kind, the declarations of one kind are one group. -/
theorem sequence_groups {groups : DeclarationKind → List Declaration}
    (h : ∀ k, ∀ d ∈ groups k, d.kind = k) (K : DeclarationKind) :
    sequence (DeclarationKind.all.flatMap groups) K = groups K := by
  have hgroup : ∀ k, (groups k).filter (fun d => d.kind == K) = if k = K then groups k else [] := by
    intro k
    split
    · next hk => exact List.filter_eq_self.mpr fun d hd => by simp [h k d hd, hk]
    · next hk => exact List.filter_eq_nil_iff.mpr fun d hd => by simp [h k d hd, hk]
  rw [sequence, List.filter_flatMap]
  simp only [hgroup]
  cases K <;> simp [DeclarationKind.all]

/-- An outline lists, for each kind and in preorder, the declarations of the outermost nodes that
    introduce some of that kind. -/
theorem sequence_ofCursor (m : ViewMode) (root : Cursor) (K : DeclarationKind) :
    (ofCursor m root).sequence K =
      (root.nodes.filter fun c => c.introduces? == some K && c.isOutermost m root).flatMap
        (Declaration.read m) := by
  have hnodes : ∀ k, ((root.gather (visitDeclarations m)).filter fun c =>
      c.tree.nodeKind?.bind DeclarationKind.ofNode? == some k) =
      root.nodes.filter fun c => c.introduces? == some k && c.isOutermost m root := by
    intro k
    rw [Cursor.gather_visitDeclarations, List.filter_filter]
    refine List.filter_congr fun c _ => ?_
    rw [← Cursor.introduces?]
    cases c.introduces? <;> rfl
  rw [ofCursor, ofNodes, sequence_groups, hnodes]
  intro k d hd
  obtain ⟨c, hc, hd⟩ := List.mem_flatMap.mp hd
  have hK : c.introduces? = some k := eq_of_beq (List.mem_filter.mp hc).2
  exact Declaration.kind_of_mem_read hK hd

end Outline

end SwiftOutline
