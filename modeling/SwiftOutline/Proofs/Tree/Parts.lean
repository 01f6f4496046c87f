/-
  SwiftOutline.Proofs.Tree.Parts

  The parts of a node: its children that are no trivia. Where a rule of the
  grammar tells what a node is made of, the trivia between the parts do not
  matter, neither for what is looked up among the children nor for the next token
  behind one of them.
-/
import SwiftOutline.Proofs.Tree.Descent
import SwiftOutline.Proofs.Tree.Neighbors
import SwiftOutline.Proofs.Tree.WithoutTrivia

namespace SwiftOutline

open Token (significant)

/-! ## Parts of a tree -/

namespace Tree

variable {t u : Tree} {ts : List Tree}

/-- The children of a tree that are no trivia. -/
def parts (t : Tree) : List Tree := t.children.filter fun u => !u.isTriviaLeaf

theorem mem_children_of_mem_parts (h : u ∈ t.parts) : u ∈ t.children :=
  (List.mem_filter.mp h).1

/-- A child that is a node is a part. -/
theorem mem_parts_of_nodeKind? {k : NodeKind} (h : u ∈ t.children) (hu : u.nodeKind? = some k) :
    u ∈ t.parts := by
  cases u with
  | leaf b => exact nomatch hu
  | node k' children => exact List.mem_filter.mpr ⟨h, rfl⟩

/-- Without its trivia a sequence of trees has the same tokens, trivia apart. -/
theorem significant_forestLeaves_filter (ts : List Tree) :
    significant (forestLeaves (ts.filter fun t => !t.isTriviaLeaf)) =
      significant (forestLeaves ts) := by
  induction ts with
  | nil => rfl
  | cons t ts ih =>
    cases ht : t.isTriviaLeaf with
    | false =>
      rw [List.filter_cons_of_pos (by simp [ht]), forestLeaves, forestLeaves,
        Token.significant_append, Token.significant_append, ih]
    | true =>
      cases t with
      | node k children => exact absurd ht Bool.false_ne_true
      | leaf b =>
        have hb : b.isTrivia = true := ht
        rw [List.filter_cons_of_neg (by simp [ht]), ih, forestLeaves, leaves,
          List.singleton_append, significant, significant, List.filter_cons_of_neg (by simp [hb])]

/-- The tokens of a node are those of its parts, trivia apart. -/
theorem significant_leaves_eq {k : NodeKind} (hk : t.nodeKind? = some k) :
    significant t.leaves = significant (forestLeaves t.parts) := by
  obtain ⟨children, rfl⟩ := eq_node_of_nodeKind? hk
  rw [parts, significant_forestLeaves_filter]
  rfl

/-- A token that is no trivia is among the children if it is among the parts. -/
theorem any_isToken_children {k : TokenKind} (hk : k.isTrivia = false) (t : Tree) :
    (t.children.any fun u => (Cursor.ofTree u).isToken k) =
      t.parts.any fun u => (Cursor.ofTree u).isToken k := by
  rw [parts, List.any_filter]
  refine congrArg (List.any t.children) (funext fun u => ?_)
  cases u with
  | node k children => rfl
  | leaf b =>
    cases hb : b.kind == k with
    | false => simp [Cursor.isToken, Cursor.token?, Cursor.ofTree, hb]
    | true =>
      obtain rfl := eq_of_beq hb
      simp [Token.isTrivia, hk]

/-! ## Lists between brackets -/

/-- The trees `us` are the elements `es` with commas between them and a token `close` behind
    them. -/
inductive Listed (close : TokenKind) : (es us : List Tree) → Prop where
  | nil {b : Token} (closes : b.kind = close) : Listed close [] [.leaf b]
  | last {e : Tree} {b : Token} (closes : b.kind = close) : Listed close [e] [e, .leaf b]
  | cons {e e' : Tree} {es us : List Tree} {b : Token} (comma : b.kind = .comma)
      (rest : Listed close (e' :: es) us) : Listed close (e :: e' :: es) (e :: .leaf b :: us)

namespace Listed

variable {close : TokenKind} {es us front back : List Tree} {k : NodeKind} {p : Tree → Bool}

/-- An element of a list stands in front of a comma or of the token behind the list. -/
theorem exists_next (h : Listed close es us) (hus : us = front ++ t :: back)
    (ht : t.nodeKind? = some k) :
    ∃ b rest, back = .leaf b :: rest ∧ (b.kind = .comma ∨ b.kind = close) := by
  induction h generalizing front with
  | nil closes =>
    cases front with
    | nil =>
      obtain ⟨rfl, -⟩ := List.cons.inj hus
      exact nomatch ht
    | cons x front => exact absurd (List.cons.inj hus).2 (by simp)
  | @last e b closes =>
    cases front with
    | nil =>
      obtain ⟨-, rfl⟩ := List.cons.inj hus
      exact ⟨b, [], rfl, .inr closes⟩
    | cons x front =>
      cases front with
      | nil =>
        obtain ⟨rfl, -⟩ := List.cons.inj (List.cons.inj hus).2
        exact nomatch ht
      | cons y front => exact absurd (List.cons.inj (List.cons.inj hus).2).2 (by simp)
  | @cons e e' es us b comma rest ih =>
    cases front with
    | nil =>
      obtain ⟨-, rfl⟩ := List.cons.inj hus
      exact ⟨b, us, rfl, .inl comma⟩
    | cons x front =>
      cases front with
      | nil =>
        obtain ⟨rfl, -⟩ := List.cons.inj (List.cons.inj hus).2
        exact nomatch ht
      | cons y front => exact ih (List.cons.inj (List.cons.inj hus).2).2

/-- The elements of a list are what passes a test that no token passes. -/
theorem filter_eq (h : Listed close es us) (hleaf : ∀ b, p (.leaf b) = false)
    (hes : ∀ e ∈ es, p e = true) : us.filter p = es := by
  induction h with
  | nil closes => rw [List.filter_cons_of_neg (by simp [hleaf]), List.filter_nil]
  | last closes => simp [hleaf, hes]
  | cons comma rest ih =>
    obtain ⟨he, hes⟩ := List.forall_mem_cons.mp hes
    rw [List.filter_cons_of_pos he, List.filter_cons_of_neg (by simp [hleaf]), ih hes]

end Listed

end Tree

/-! ## Parts of an element -/

namespace Cursor

variable {c e : Cursor} {t : Tree} {front back : List Tree} {p : Tree → Bool}

/-- The children of an element that are no trivia. -/
def parts (c : Cursor) : List Cursor := c.elements.filter fun e => !e.tree.isTriviaLeaf

theorem map_tree_parts (c : Cursor) : c.parts.map tree = c.tree.parts := by
  rw [parts, Tree.parts, ← map_tree_elements, List.filter_map]
  rfl

theorem mem_elements_of_mem_parts (h : e ∈ c.parts) : e ∈ c.elements :=
  (List.mem_filter.mp h).1

theorem behind_of_childrenFrom_eq {k : NodeKind} {start offset : Nat} {above : List Frame}
    {before ts : List Tree} {xs ys : List Cursor}
    (h : childrenFrom k start above before offset ts = xs ++ e :: ys) :
    e.behind = Tree.forestLeaves (ys.map tree) ++ tokensBehind above := by
  induction xs generalizing before offset ts with
  | nil =>
    cases ts with
    | nil => exact absurd h (List.cons_ne_nil e ys).symm
    | cons t ts =>
      rw [childrenFrom, List.nil_append] at h
      obtain ⟨rfl, rfl⟩ := List.cons.inj h
      rw [map_tree_childrenFrom]
      rfl
  | cons x xs ih =>
    cases ts with
    | nil => exact absurd h (List.cons_ne_nil x (xs ++ e :: ys)).symm
    | cons t ts =>
      rw [childrenFrom, List.cons_append] at h
      exact ih (List.cons.inj h).2

theorem behind_of_elements_eq {xs ys : List Cursor} (h : c.elements = xs ++ e :: ys) :
    e.behind = Tree.forestLeaves (ys.map tree) ++ c.behind := by
  obtain ⟨t, start, above⟩ := c
  cases t with
  | leaf b => exact absurd h (by simp [elements])
  | node k children => exact behind_of_childrenFrom_eq h

/-- Behind a part stand the other parts behind it. -/
theorem significant_behind_of_parts_eq {xs ys : List Cursor} (h : c.parts = xs ++ e :: ys) :
    significant e.behind = significant (Tree.forestLeaves (ys.map tree) ++ c.behind) := by
  obtain ⟨xs', rest, helements, -, hrest⟩ := List.filter_eq_append_iff.mp h
  obtain ⟨skipped, ys', rfl, -, -, rfl⟩ := List.filter_eq_cons_iff.mp hrest
  rw [← List.append_assoc] at helements
  have hfilter : (ys'.filter fun e => !e.tree.isTriviaLeaf).map tree =
      (ys'.map tree).filter fun t => !t.isTriviaLeaf := by
    rw [List.filter_map]
    rfl
  rw [behind_of_elements_eq helements, hfilter, Token.significant_append,
    Token.significant_append, Tree.significant_forestLeaves_filter]

/-- Where the tree has a part, there is a part of the element. -/
theorem exists_parts_eq (h : c.tree.parts = front ++ t :: back) :
    ∃ (xs : List Cursor) (e : Cursor) (ys : List Cursor), c.parts = xs ++ e :: ys ∧
      xs.map tree = front ∧ e.tree = t ∧ ys.map tree = back := by
  rw [← map_tree_parts] at h
  obtain ⟨xs, rest, hparts, hxs, hrest⟩ := List.map_eq_append_iff.mp h
  obtain ⟨e, ys, rfl, he, hys⟩ := List.map_eq_cons_iff.mp hrest
  exact ⟨xs, e, ys, hparts, hxs, he, hys⟩

/-! ## Looking up parts -/

/-- What passes a test that no token passes is found among the parts. -/
theorem filter_elements_eq (hleaf : ∀ b, p (.leaf b) = false) (c : Cursor) :
    (c.elements.filter fun e => p e.tree) = c.parts.filter fun e => p e.tree := by
  rw [parts, List.filter_filter]
  refine List.filter_congr fun e _ => ?_
  cases e.tree with
  | leaf b => rw [hleaf, Bool.false_and]
  | node k children => exact (Bool.and_true _).symm

theorem find?_elements_eq (hleaf : ∀ b, p (.leaf b) = false) (c : Cursor) :
    (c.elements.find? fun e => p e.tree) = c.parts.find? fun e => p e.tree := by
  rw [← List.head?_filter, ← List.head?_filter, filter_elements_eq hleaf]

/-- The first part that passes a test. -/
theorem exists_find?_part (h : c.tree.parts = front ++ t :: back)
    (hleaf : ∀ b, p (.leaf b) = false) (hfront : ∀ u ∈ front, p u = false) (ht : p t = true) :
    ∃ e ∈ c.elements, (c.elements.find? fun e => p e.tree) = some e ∧ e.tree = t ∧
      significant e.behind = significant (Tree.forestLeaves back ++ c.behind) := by
  obtain ⟨xs, e, ys, hparts, rfl, rfl, rfl⟩ := exists_parts_eq h
  have hmem : e ∈ c.parts := hparts ▸ List.mem_append_right xs List.mem_cons_self
  refine ⟨e, mem_elements_of_mem_parts hmem, ?_, rfl, significant_behind_of_parts_eq hparts⟩
  have hnone : (xs.find? fun e => p e.tree) = none := by
    rw [List.find?_eq_none]
    intro x hx
    simpa using hfront x.tree (List.mem_map_of_mem hx)
  rw [find?_elements_eq hleaf, hparts, List.find?_append, hnone, Option.none_or]
  exact List.find?_cons_of_pos ht

/-- The first part of a kind. -/
theorem exists_child?_part {k : NodeKind} (h : c.tree.parts = front ++ t :: back)
    (hfront : ∀ u ∈ front, u.nodeKind? ≠ some k) (ht : t.nodeKind? = some k) :
    ∃ e ∈ c.elements, c.child? k = some e ∧ e.tree = t ∧
      significant e.behind = significant (Tree.forestLeaves back ++ c.behind) :=
  exists_find?_part (p := fun u => u.nodeKind? == some k) h (fun _ => rfl)
    (fun u hu => by simpa using hfront u hu) (by simp [ht])

/-- There is no part of a kind. -/
theorem child?_eq_none {k : NodeKind} (h : ∀ u ∈ c.tree.parts, u.nodeKind? ≠ some k) :
    c.child? k = none := by
  rw [child?, List.find?_eq_none]
  intro e he hkind
  have hkind : e.tree.nodeKind? = some k := eq_of_beq hkind
  exact h e.tree (Tree.mem_parts_of_nodeKind? (tree_mem_children he) hkind) hkind

end Cursor

/-- The attributes of an element come from the lists of attributes among its parts. -/
theorem Attribute.allIn_eq_nil {c : Cursor} {m : ViewMode}
    (h : ∀ u ∈ c.tree.parts, u.nodeKind? ≠ some .attributeList) : allIn m c = [] := by
  have hnone : c.childrenOf m .attributeList = [] := by
    rw [List.eq_nil_iff_forall_not_mem]
    intro e he
    obtain ⟨he, hkind⟩ := List.mem_filter.mp he
    have hkind : e.tree.nodeKind? = some .attributeList := eq_of_beq hkind
    have hmem : e ∈ c.elements := (List.mem_filter.mp (List.mem_filter.mp he).1).1
    exact h e.tree (Tree.mem_parts_of_nodeKind? (Cursor.tree_mem_children hmem) hkind) hkind
  rw [allIn, hnone, List.flatMap_nil]

end SwiftOutline
