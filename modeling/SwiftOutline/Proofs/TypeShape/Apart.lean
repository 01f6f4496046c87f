/-
  SwiftOutline.Proofs.TypeShape.Apart

  What a type is made by its surroundings. A mark behind it makes it optional,
  and marks, attributes and parentheses around a function type make that optional
  or escaping. Nothing of this reaches a type that stands apart.
-/
import SwiftOutline.Proofs.Tree.Descent
import SwiftOutline.Proofs.Tree.Neighbors

namespace SwiftOutline

open SwiftOutline.Tree

namespace Cursor

variable {c d : Cursor} {p : Tree → Bool} {k : NodeKind} {front back : List Tree} {t : Tree}

/-! ## Children -/

theorem find?_childrenFrom {start : Nat} {above : List Frame} {before : List Tree} {offset : Nat}
    (hfront : ∀ u ∈ front, p u = false) (ht : p t = true) :
    (childrenFrom k start above before offset (front ++ t :: back)).find? (fun e => p e.tree) =
      some ⟨t, offset + forestSize front, ⟨k, start, front.reverse ++ before, back⟩ :: above⟩ := by
  induction front generalizing before offset with
  | nil => simp [childrenFrom, ht, forestSize]
  | cons u front ih =>
    obtain ⟨hu, hfront⟩ := List.forall_mem_cons.mp hfront
    rw [List.cons_append, childrenFrom, List.find?_cons_of_neg (by simp [hu]), ih hfront]
    simp [forestSize, Nat.add_assoc]

/-- The first child whose tree passes a test. -/
theorem exists_find?_elements (htree : c.tree = .node k (front ++ t :: back))
    (hfront : ∀ u ∈ front, p u = false) (ht : p t = true) :
    ∃ e ∈ c.elements, c.elements.find? (fun e => p e.tree) = some e ∧ e.tree = t ∧
      e.behind = forestLeaves back ++ c.behind := by
  obtain ⟨tree, start, above⟩ := c
  obtain rfl : tree = _ := htree
  have hfind : (childrenFrom k start above [] start (front ++ t :: back)).find?
      (fun e => p e.tree) = _ := find?_childrenFrom hfront ht
  exact ⟨_, List.mem_of_find?_eq_some hfind, hfind, rfl, rfl⟩

/-- The trees of a sequence that pass a test, each with the tokens behind it, if `behind` stands
    behind the sequence. -/
def picked (p : Tree → Bool) (behind : List Token) : List Tree → List (Tree × List Token)
  | [] => []
  | t :: ts =>
    if p t then (t, forestLeaves ts ++ behind) :: picked p behind ts else picked p behind ts

theorem map_filter_childrenFrom {start : Nat} {above : List Frame} {before : List Tree}
    {offset : Nat} (p : Tree → Bool) (ts : List Tree) :
    ((childrenFrom k start above before offset ts).filter fun e => p e.tree).map
      (fun e => (e.tree, e.behind)) = picked p (tokensBehind above) ts := by
  induction ts generalizing before offset with
  | nil => rfl
  | cons t ts ih =>
    rw [childrenFrom, List.filter_cons, picked]
    split
    · rw [List.map_cons, ih]
      rfl
    · exact ih

/-- The children whose trees pass a test. -/
theorem map_filter_elements {ts : List Tree} (htree : c.tree = .node k ts) (p : Tree → Bool) :
    (c.elements.filter fun e => p e.tree).map (fun e => (e.tree, e.behind)) =
      picked p c.behind ts := by
  obtain ⟨tree, start, above⟩ := c
  obtain rfl : tree = _ := htree
  exact map_filter_childrenFrom p ts

/-- The tokens among the children are in the tree, wherever it stands. -/
theorem hasToken_eq (c : Cursor) (k : TokenKind) :
    c.hasToken k = c.tree.children.any fun t => isToken (ofTree t) k := by
  rw [hasToken, ← map_tree_elements, List.any_map]
  rfl

theorem significantTokens_eq (c : Cursor) :
    c.significantTokens =
      c.tree.children.filterMap fun t => (ofTree t).token?.filter fun t => !t.isTrivia := by
  rw [significantTokens, ← map_tree_elements, List.filterMap_map]
  rfl

theorem exists_head_elements (htree : c.tree = .node k (t :: back)) :
    ∃ e ∈ c.elements, e.tree = t :=
  ⟨_, mem_elements.mpr ⟨k, [], t, back, htree, rfl⟩, rfl⟩

/-- The children of a kind are nodes. -/
theorem filter_isKind_children (c : Cursor) (k : NodeKind) :
    (c.children.filter fun e => e.isKind k) =
      c.elements.filter fun e => e.tree.nodeKind? == some k := by
  rw [children, List.filter_filter]
  refine List.filter_congr fun e _ => ?_
  rw [isKind]
  cases e.tree.nodeKind? <;> simp

/-- The children that are types are nodes. -/
theorem filter_isType_children (c : Cursor) :
    c.children.filter isType = c.elements.filter isType := by
  rw [children, List.filter_filter]
  refine List.filter_congr fun e _ => ?_
  rw [isType]
  cases e.tree.nodeKind? <;> simp

end Cursor

/-- An attribute in a list of attributes among the children. -/
theorem Attribute.mem_allIn {c list use : Cursor} {ts us : List Tree} (hlist : list ∈ c.elements)
    (huse : use ∈ list.elements) (hl : list.tree = .node .attributeList ts)
    (hu : use.tree = .node .attributeUse us) :
    Attribute.ofCursor .sourceAccurate use ∈ Attribute.allIn .sourceAccurate c := by
  have hchild : ∀ {k : NodeKind} {ts : List Tree} {a b : Cursor}, b ∈ a.elements →
      b.tree = .node k ts → b ∈ a.childrenOf .sourceAccurate k := by
    intro k ts a b hb htree
    simp only [Cursor.childrenOf, Cursor.childrenIn, Cursor.children, List.mem_filter, hb,
      Cursor.visibleIn, Cursor.isKind, htree, nodeKind?]
    simp [ViewMode.shows]
  exact List.mem_flatMap.mpr ⟨list, hchild hlist hl, List.mem_map_of_mem (hchild huse hu)⟩

namespace TypeShape

variable {c d : Cursor} {n : Nat} {u : Tree} {ts : List Tree}

/-! ## Marks behind a type -/

/-- The first of the tokens that is no trivia is no mark. -/
def Sealed (ts : List Token) : Prop :=
  ∀ v ∈ (Token.significant ts).head?, v.kind ≠ .question ∧ v.kind ≠ .exclamation

/-- Commas, colons and the ends of brackets are no marks. -/
theorem Sealed.of_kind {v : Token}
    (hv : v.kind ∈ [.comma, .colon, .ellipsis, .gt, .rBracket, .rParen]) (ts : List Token) :
    Sealed (v :: ts) := by
  have hkinds : ∀ k ∈ [TokenKind.comma, .colon, .ellipsis, .gt, .rBracket, .rParen],
      k.isTrivia = false ∧ k ≠ .question ∧ k ≠ .exclamation := by decide
  obtain ⟨htrivia, hmark⟩ := hkinds v.kind hv
  intro w hw
  rw [Token.significant, List.filter_cons_of_pos (by simp [Token.isTrivia, htrivia])] at hw
  obtain rfl := Option.some.inj hw
  exact hmark

/-- No mark is found behind a type that other tokens follow. -/
theorem isMarkedOptional_eq_false (h : Sealed c.behind) : isMarkedOptional c = false := by
  by_contra hmarked
  rw [Bool.not_eq_false, isMarkedOptional, Option.any_eq_true] at hmarked
  obtain ⟨t, ht, hmark⟩ := hmarked
  obtain ⟨x, hlast, hnext⟩ := Option.bind_eq_some_iff.mp ht
  obtain ⟨v, hv, hhead⟩ := Cursor.exists_head_significant_of_nextSignificant? hnext
  rw [Cursor.significant_behind_of_lastSignificant? hlast] at hhead
  obtain ⟨hquestion, hexclamation⟩ := h v hhead
  simp [Cursor.isToken, hv.token?_eq, hquestion, hexclamation] at hmark

/-! ## Nodes around a type -/

/-- Nodes of most kinds make a function type inside them neither optional nor escaping. -/
theorem wrapping_cons {a : Cursor} {k : NodeKind} (ha : a.tree.nodeKind? = some k)
    (hk : k ∉ [.optionalType, .implicitlyUnwrappedOptionalType, .attributedType,
      .tupleTypeElement, .tupleType]) (above : List Cursor) :
    wrapping (a :: above) = (false, false) := by
  rw [wrapping, ha]
  split <;> simp_all

/-- Neither the nodes around a type nor the tokens behind it make it optional or escaping. -/
structure Apart (c : Cursor) : Prop where
  around : wrapping c.ancestors = (false, false)
  behind : Sealed c.behind

/-- A child of a node that does not wrap types stands apart, if the tokens behind it do. -/
theorem Apart.of_mem {k : NodeKind} (hd : d ∈ c.elements) (hkind : c.tree.nodeKind? = some k)
    (hk : k ∉ [.optionalType, .implicitlyUnwrappedOptionalType, .attributedType,
      .tupleTypeElement, .tupleType]) (hbehind : Sealed d.behind) : Apart d := by
  refine ⟨?_, hbehind⟩
  rw [Cursor.ancestors_of_mem_elements hd, Cursor.path, wrapping_cons hkind hk]

/-! ## Levels and children -/

@[simp] theorem optional_optional (t : TypeShape) : t.optional.optional = t.optional := by
  cases t <;> rfl

theorem exists_levels {k : NodeKind} (htree : c.tree = .node k ts) (hn : c.tree.height ≤ n) :
    ∃ m, n = m + 1 ∧ ∀ e ∈ c.elements, e.tree.height ≤ m := by
  cases n with
  | zero =>
    rw [htree, height] at hn
    exact absurd hn (by omega)
  | succ m =>
    refine ⟨m, rfl, fun e he => ?_⟩
    have hlt := height_lt_of_mem_children (Cursor.tree_mem_children he)
    omega

theorem isToken_of_isType (hu : u.nodeKind?.any NodeKind.isType = true) (k : TokenKind) :
    (Cursor.ofTree u).isToken k = false := by
  cases u with
  | leaf t => exact absurd hu (by simp [nodeKind?])
  | node k children => rfl

theorem tupleElements_eq (c : Cursor) :
    tupleElements c = c.elements.filter fun e => e.tree.nodeKind? == some .tupleTypeElement :=
  c.filter_isKind_children .tupleTypeElement

theorem mem_elements_of_mem_tupleElements (h : d ∈ tupleElements c) : d ∈ c.elements := by
  rw [tupleElements_eq] at h
  exact (List.mem_filter.mp h).1

end TypeShape

end SwiftOutline
