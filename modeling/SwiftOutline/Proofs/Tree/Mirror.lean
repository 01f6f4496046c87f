/-
  SwiftOutline.Proofs.Tree.Mirror

  Places in different trees at which the same tree stands. If the children of two
  related places are related again, then all that is looked up below the one is
  found below the other, in the same order.
-/
import Mathlib.Data.List.Forall2
import SwiftOutline.Proofs.Tree.Clean

namespace SwiftOutline

/-! ## Related options and lists -/

section Related

variable {α β γ δ : Type} {R : α → β → Prop} {S : γ → δ → Prop} {o : Option α} {o' : Option β}
  {l : List α} {l' : List β}

theorem rel_cases (h : Option.Rel R o o') :
    o = none ∧ o' = none ∨ ∃ a b, o = some a ∧ o' = some b ∧ R a b := by
  cases h with
  | none => exact Or.inl ⟨rfl, rfl⟩
  | some h => exact Or.inr ⟨_, _, rfl, rfl, h⟩

theorem rel_isSome (h : Option.Rel R o o') : o.isSome = o'.isSome := by
  cases h <;> rfl

theorem rel_map_congr {f : α → γ} {g : β → γ} (h : Option.Rel R o o')
    (hfg : ∀ a b, R a b → f a = g b) : o.map f = o'.map g := by
  cases h with
  | none => rfl
  | some h => exact congrArg some (hfg _ _ h)

theorem rel_bind_congr {f : α → Option γ} {g : β → Option γ} (h : Option.Rel R o o')
    (hfg : ∀ a b, R a b → f a = g b) : o.bind f = o'.bind g := by
  cases h with
  | none => rfl
  | some h => exact hfg _ _ h

theorem rel_bind {f : α → Option γ} {g : β → Option δ} (h : Option.Rel R o o')
    (hfg : ∀ a b, R a b → Option.Rel S (f a) (g b)) : Option.Rel S (o.bind f) (o'.bind g) := by
  cases h with
  | none => exact .none
  | some h => exact hfg _ _ h

theorem rel_filter {p : α → Bool} {q : β → Bool} (h : Option.Rel R o o')
    (hpq : ∀ a b, R a b → p a = q b) : Option.Rel R (o.filter p) (o'.filter q) := by
  cases h with
  | none => exact .none
  | @some a b h =>
    rw [Option.filter_some, Option.filter_some, hpq a b h]
    split
    · exact .some h
    · exact .none

theorem rel_toList (h : Option.Rel R o o') : List.Forall₂ R o.toList o'.toList := by
  cases h with
  | none => exact .nil
  | some h => exact .cons h .nil

/-- Lists with the same keys, element by element. -/
theorem forall₂_of_map_eq {k : α → γ} {k' : β → γ} (h : l.map k = l'.map k') :
    List.Forall₂ (fun a b => (a ∈ l ∧ b ∈ l') ∧ k a = k' b) l l' := by
  induction l generalizing l' with
  | nil =>
    obtain rfl := List.map_eq_nil_iff.mp h.symm
    exact .nil
  | cons a l ih =>
    obtain ⟨b, l', rfl, hb, hrest⟩ := List.map_eq_cons_iff.mp h.symm
    refine .cons ⟨⟨.head _, .head _⟩, hb.symm⟩ ((ih hrest.symm).imp ?_)
    exact fun x y hxy => ⟨⟨.tail a hxy.1.1, .tail b hxy.1.2⟩, hxy.2⟩

theorem forall₂_head? (h : List.Forall₂ R l l') : Option.Rel R l.head? l'.head? := by
  cases h with
  | nil => exact .none
  | cons h _ => exact .some h

theorem forall₂_getElem? (h : List.Forall₂ R l l') (i : Nat) : Option.Rel R l[i]? l'[i]? := by
  have hdrop := forall₂_head? (List.forall₂_drop i h)
  rwa [List.head?_drop, List.head?_drop] at hdrop

theorem forall₂_find? {p : α → Bool} {q : β → Bool} (h : List.Forall₂ R l l')
    (hpq : ∀ a b, R a b → p a = q b) : Option.Rel R (l.find? p) (l'.find? q) := by
  induction h with
  | nil => exact .none
  | @cons a b l l' hab _ ih =>
    rw [List.find?_cons, List.find?_cons, hpq a b hab]
    cases q b with
    | true => exact .some hab
    | false => exact ih

theorem forall₂_filter {p : α → Bool} {q : β → Bool} (h : List.Forall₂ R l l')
    (hpq : ∀ a b, R a b → p a = q b) : List.Forall₂ R (l.filter p) (l'.filter q) :=
  List.rel_filter (fun a b hab => iff_of_eq (congrArg (· = true) (hpq a b hab))) h

theorem forall₂_dropWhile {p : α → Bool} {q : β → Bool} (h : List.Forall₂ R l l')
    (hpq : ∀ a b, R a b → p a = q b) : List.Forall₂ R (l.dropWhile p) (l'.dropWhile q) := by
  induction h with
  | nil => exact .nil
  | @cons a b l l' hab hrest ih =>
    rw [List.dropWhile_cons, List.dropWhile_cons, hpq a b hab]
    split
    · exact ih
    · exact .cons hab hrest

theorem forall₂_flatMap {f : α → List γ} {g : β → List δ} (h : List.Forall₂ R l l')
    (hfg : ∀ a b, R a b → List.Forall₂ S (f a) (g b)) :
    List.Forall₂ S (l.flatMap f) (l'.flatMap g) :=
  List.rel_flatMap h hfg

theorem forall₂_any_congr {p : α → Bool} {q : β → Bool} (h : List.Forall₂ R l l')
    (hpq : ∀ a b, R a b → p a = q b) : l.any p = l'.any q := by
  induction h with
  | nil => rfl
  | cons hab _ ih => rw [List.any_cons, List.any_cons, hpq _ _ hab, ih]

theorem forall₂_map_congr {f : α → γ} {g : β → γ} (h : List.Forall₂ R l l')
    (hfg : ∀ a b, R a b → f a = g b) : l.map f = l'.map g := by
  induction h with
  | nil => rfl
  | cons hab _ ih => rw [List.map_cons, List.map_cons, hfg _ _ hab, ih]

theorem forall₂_filterMap_congr {f : α → Option γ} {g : β → Option γ} (h : List.Forall₂ R l l')
    (hfg : ∀ a b, R a b → f a = g b) : l.filterMap f = l'.filterMap g := by
  induction h with
  | nil => rfl
  | cons hab _ ih => rw [List.filterMap_cons, List.filterMap_cons, hfg _ _ hab, ih]

theorem forall₂_flatMap_congr {f : α → List γ} {g : β → List γ} (h : List.Forall₂ R l l')
    (hfg : ∀ a b, R a b → f a = g b) : l.flatMap f = l'.flatMap g := by
  induction h with
  | nil => rfl
  | cons hab _ ih => rw [List.flatMap_cons, List.flatMap_cons, hfg _ _ hab, ih]

end Related

/-! ## Related places -/

/-- Related places hold the same tree, their children are related in order, and one is in something
    invisible if the other is. -/
structure Cursor.Mirrors (R : Cursor → Cursor → Prop) : Prop where
  tree : ∀ {c d : Cursor}, R c d → c.tree = d.tree
  elements : ∀ {c d : Cursor}, R c d → List.Forall₂ R c.elements d.elements
  surroundedIn : ∀ {c d : Cursor}, R c d → ∀ m, c.surroundedIn m = d.surroundedIn m

namespace Cursor.Mirrors

variable {R : Cursor → Cursor → Prop} (hR : Mirrors R) {c d : Cursor} {m : ViewMode}

include hR

/-! ### What the tree alone tells -/

omit hR in
theorem isSome_of_isKind {k : NodeKind} (h : c.isKind k = true) :
    c.tree.nodeKind?.isSome = true := by
  rw [nodeKind?_of_isKind h, Option.isSome_some]

theorem isKind (h : R c d) (k : NodeKind) : c.isKind k = d.isKind k := by
  rw [Cursor.isKind, Cursor.isKind, hR.tree h]

theorem token? (h : R c d) : c.token? = d.token? := by
  rw [Cursor.token?, Cursor.token?, hR.tree h]

theorem isToken (h : R c d) (k : TokenKind) : c.isToken k = d.isToken k := by
  rw [Cursor.isToken, Cursor.isToken, hR.token? h]

theorem isType (h : R c d) : c.isType = d.isType := by
  rw [Cursor.isType, Cursor.isType, hR.tree h]

theorem isPattern (h : R c d) : c.isPattern = d.isPattern := by
  rw [Cursor.isPattern, Cursor.isPattern, hR.tree h]

theorem visibleIn (h : R c d) (m : ViewMode) : c.visibleIn m = d.visibleIn m := by
  rw [Cursor.visibleIn, Cursor.visibleIn, hR.tree h]

theorem text (h : R c d) : c.text = d.text := by
  rw [Cursor.text, Cursor.text, hR.tree h]

theorem description (h : R c d) : c.description = d.description := by
  rw [Cursor.description, Cursor.description, hR.text h]

/-! ### Children -/

theorem children (h : R c d) : List.Forall₂ R c.children d.children :=
  forall₂_filter (hR.elements h) fun _ _ h => by rw [hR.tree h]

theorem childrenIn (h : R c d) (m : ViewMode) : List.Forall₂ R (c.childrenIn m) (d.childrenIn m) :=
  forall₂_filter (hR.children h) fun _ _ h => hR.visibleIn h m

theorem childrenOf (h : R c d) (m : ViewMode) (k : NodeKind) :
    List.Forall₂ R (c.childrenOf m k) (d.childrenOf m k) :=
  forall₂_filter (hR.childrenIn h m) fun _ _ h => hR.isKind h k

/-- The children of one kind are nodes. -/
theorem nodes_childrenOf (h : R c d) (m : ViewMode) (k : NodeKind) :
    List.Forall₂ (fun a b => a.tree.nodeKind?.isSome = true ∧ R a b) (c.childrenOf m k)
      (d.childrenOf m k) := by
  refine (List.forall₂_and_left _ _).mpr ⟨fun a ha => ?_, hR.childrenOf h m k⟩
  exact (List.mem_filter.mp (List.mem_filter.mp (List.mem_filter.mp ha).1).1).2

theorem child? (h : R c d) (k : NodeKind) : Option.Rel R (c.child? k) (d.child? k) :=
  forall₂_find? (hR.elements h) fun _ _ h => hR.isKind h k

theorem typeChild? (h : R c d) : Option.Rel R c.typeChild? d.typeChild? :=
  forall₂_find? (hR.elements h) fun _ _ h => hR.isType h

theorem typeIn? (h : R c d) (m : ViewMode) : Option.Rel R (c.typeIn? m) (d.typeIn? m) :=
  forall₂_find? (hR.childrenIn h m) fun _ _ h => hR.isType h

/-! ### Tokens -/

theorem significantTokens (h : R c d) : c.significantTokens = d.significantTokens :=
  forall₂_filterMap_congr (hR.elements h) fun _ _ h => by rw [hR.token? h]

theorem hasToken (h : R c d) (k : TokenKind) : c.hasToken k = d.hasToken k :=
  forall₂_any_congr (hR.elements h) fun _ _ h => hR.isToken h k

theorem tokenOf? (h : R c d) (k : TokenKind) : c.tokenOf? k = d.tokenOf? k :=
  rel_bind_congr (forall₂_find? (hR.elements h) fun _ _ h => hR.isToken h k)
    fun _ _ h => hR.token? h

theorem textAfter (h : R c d) (k : TokenKind) : c.textAfter k = d.textAfter k := by
  have hrest := List.forall₂_drop 1 (forall₂_dropWhile (p := fun e => !e.isToken k)
    (q := fun e => !e.isToken k) (hR.elements h) fun _ _ h => by rw [hR.isToken h k])
  rw [Cursor.textAfter, Cursor.textAfter, forall₂_map_congr hrest fun _ _ h => hR.text h]

/-- The tokens of related places are related. -/
theorem tokens (h : R c d) : List.Forall₂ R c.tokens d.tokens := by
  induction c using induction_elements generalizing d with
  | h c ih =>
    cases hk : c.tree.nodeKind? with
    | none =>
      rw [tokens_of_leaf hk, tokens_of_leaf (by rw [← hR.tree h, hk])]
      exact .cons h .nil
    | some k =>
      rw [tokens_of_node hk, tokens_of_node (k := k) (by rw [← hR.tree h, hk])]
      have hmem : List.Forall₂ (fun a b => a ∈ c.elements ∧ R a b) c.elements d.elements :=
        (List.forall₂_and_left _ _).mpr ⟨fun _ ha => ha, hR.elements h⟩
      exact forall₂_flatMap hmem fun _ _ hab => ih _ hab.1 hab.2

theorem tokensIn (h : R c d) (m : ViewMode) : c.tokensIn m = d.tokensIn m :=
  forall₂_filterMap_congr (hR.tokens h) fun _ _ h => by
    rw [hR.surroundedIn h, hR.token? h]

/-! ### Searching -/

variable {visit : NodeKind → Visit}

/-- A search takes related nodes at related places. -/
theorem gather (h : R c d) : List.Forall₂ R (c.gather visit) (d.gather visit) := by
  induction c using induction_elements generalizing d with
  | h c ih =>
    cases hk : c.tree.nodeKind? with
    | none =>
      rw [gather_of_leaf hk, gather_of_leaf (by rw [← hR.tree h, hk])]
      exact .nil
    | some k =>
      rw [gather_of_node hk, gather_of_node (k := k) (by rw [← hR.tree h, hk])]
      cases visit k with
      | take => exact .cons h .nil
      | skip => exact .nil
      | enter =>
        have hmem : List.Forall₂ (fun a b => a ∈ c.elements ∧ R a b) c.elements d.elements :=
          (List.forall₂_and_left _ _).mpr ⟨fun _ ha => ha, hR.elements h⟩
        dsimp only
        rw [gatherBelow_eq, gatherBelow_eq]
        exact forall₂_flatMap hmem fun _ _ hab => ih _ hab.1 hab.2

theorem gatherBelow (h : R c d) : List.Forall₂ R (c.gatherBelow visit) (d.gatherBelow visit) := by
  rw [gatherBelow_eq, gatherBelow_eq]
  exact forall₂_flatMap (hR.elements h) fun _ _ h => hR.gather h

end Cursor.Mirrors

end SwiftOutline
