/-
  SwiftOutline.Proofs.TypeShape.Alone

  The shape of a type that stands apart is told by its tree alone. Two places with
  the same tree are gone through side by side: below them, marks are either found
  in the tree itself, or behind it, where there are none.
-/
import SwiftOutline.Proofs.Outline.Ahead

namespace SwiftOutline

namespace Cursor

variable {c d e : Cursor} {fs gs : List Frame} {k : NodeKind} {t : Tree}

/-! ## Surroundings cut off -/

/-- The cursor with more surroundings around those that it has. -/
def inside (c : Cursor) (outer : List Frame) : Cursor := { c with above := c.above ++ outer }

@[simp] theorem tree_inside (c : Cursor) (outer : List Frame) : (c.inside outer).tree = c.tree := rfl

theorem behind_inside (c : Cursor) (outer : List Frame) :
    (c.inside outer).behind = c.behind ++ tokensBehind outer := by
  obtain ⟨t, start, fs⟩ := c
  show tokensBehind (fs ++ outer) = tokensBehind fs ++ tokensBehind outer
  induction fs with
  | nil => rfl
  | cons f fs ih => rw [List.cons_append, tokensBehind, tokensBehind, ih, List.append_assoc]

mutual

theorem firstTokenOf_inside (t : Tree) (start : Nat) (fs outer : List Frame) :
    firstTokenOf t start (fs ++ outer) = (firstTokenOf t start fs).map fun c => c.inside outer := by
  cases t with
  | leaf u => rfl
  | node k children => exact firstTokenOfForest_inside children k start fs outer

theorem firstTokenOfForest_inside (ts : List Tree) (k : NodeKind) (start : Nat)
    (fs outer : List Frame) :
    firstTokenOfForest k start (fs ++ outer) ts =
      (firstTokenOfForest k start fs ts).map fun c => c.inside outer := by
  cases ts with
  | nil => rfl
  | cons t ts => exact firstTokenOf_inside t start (⟨k, start, [], ts⟩ :: fs) outer

end

mutual

theorem lastTokenOf_inside (t : Tree) (start : Nat) (fs outer : List Frame) :
    lastTokenOf t start (fs ++ outer) = (lastTokenOf t start fs).map fun c => c.inside outer := by
  cases t with
  | leaf u => rfl
  | node k children => exact lastTokenOfForest_inside children k start fs outer [] start

theorem lastTokenOfForest_inside (ts : List Tree) (k : NodeKind) (start : Nat)
    (fs outer : List Frame) (before : List Tree) (offset : Nat) :
    lastTokenOfForest k start (fs ++ outer) before offset ts =
      (lastTokenOfForest k start fs before offset ts).map fun c => c.inside outer := by
  match ts with
  | [] => rfl
  | [t] => exact lastTokenOf_inside t offset (⟨k, start, before, []⟩ :: fs) outer
  | t :: t' :: ts => exact lastTokenOfForest_inside (t' :: ts) k start fs outer _ _

end

theorem firstToken?_inside (c : Cursor) (outer : List Frame) :
    (c.inside outer).firstToken? = c.firstToken?.map fun d => d.inside outer :=
  firstTokenOf_inside _ _ _ _

theorem lastToken?_inside (c : Cursor) (outer : List Frame) :
    (c.inside outer).lastToken? = c.lastToken?.map fun d => d.inside outer :=
  lastTokenOf_inside _ _ _ _

/-- The element behind a place is inside the same surroundings, if a token is left there. -/
theorem elementAfter_inside {start : Nat} (h : tokensBehind fs ≠ []) (outer : List Frame) :
    elementAfter t start (fs ++ outer) =
      (elementAfter t start fs).map fun c => c.inside outer := by
  induction fs generalizing t start with
  | nil => exact absurd rfl h
  | cons f fs ih =>
    rw [List.cons_append, elementAfter, elementAfter]
    cases hafter : f.after with
    | nil =>
      rw [tokensBehind, hafter, Tree.forestLeaves, List.nil_append] at h
      exact ih h
    | cons s rest => rfl

theorem nextToken?_inside (h : c.behind ≠ []) (outer : List Frame) :
    (c.inside outer).nextToken? = c.nextToken?.map fun d => d.inside outer := by
  rw [nextToken?, nextToken?, Option.map_bind]
  show (elementAfter c.tree c.start (c.above ++ outer)).bind firstToken? = _
  rw [elementAfter_inside h, Option.bind_map]
  exact congrArg _ (funext fun d => firstToken?_inside d outer)

/-- The next token is no trivia, or such a token is left behind it. -/
theorem significant_of_nextToken? (hd : c.nextToken? = some d)
    (h : Token.significant c.behind ≠ []) :
    d.isSignificant = true ∨ Token.significant d.behind ≠ [] := by
  obtain ⟨u, hu, hbehind⟩ := exists_of_nextToken? hd
  rw [isSignificant_of_isAt hu]
  cases htrivia : u.isTrivia with
  | false => exact .inl rfl
  | true =>
    rw [hbehind, Token.significant, List.filter_cons_of_neg (by simp [htrivia])] at h
    exact .inr h

theorem behind_ne_nil (h : Token.significant c.behind ≠ []) : c.behind ≠ [] :=
  fun hnil => h (by rw [hnil]; rfl)

/-- A token that is no trivia is sought inside the same surroundings, if one is left there. -/
theorem seek_inside (h : c.isSignificant = true ∨ Token.significant c.behind ≠ [])
    (outer : List Frame) (n : Nat) :
    seek nextToken? n (c.inside outer) = (seek nextToken? n c).map fun d => d.inside outer := by
  induction n generalizing c with
  | zero => rfl
  | succ n ih =>
    have hsignificant : (c.inside outer).isSignificant = c.isSignificant := rfl
    rw [seek, seek, hsignificant]
    split
    · rfl
    · next hskip =>
      have hbehind := h.resolve_left hskip
      rw [nextToken?_inside (behind_ne_nil hbehind)]
      cases hd : c.nextToken? with
      | none => rfl
      | some d => exact ih (significant_of_nextToken? hd hbehind)

theorem nextSignificant?_inside (h : Token.significant c.behind ≠ []) (outer : List Frame) :
    (c.inside outer).nextSignificant? = c.nextSignificant?.map fun d => d.inside outer := by
  rw [nextSignificant?, nextSignificant?, nextToken?_inside (behind_ne_nil h)]
  cases hd : c.nextToken? with
  | none => rfl
  | some d =>
    -- the surroundings add tokens to the total, which only bounds the search
    obtain ⟨u, -, hbehind⟩ := exists_of_nextToken? hd
    have hcount := congrArg List.length hbehind
    have hinner := length_tokensBehind_le c.above
    have houter := length_tokensBehind_le (c.inside outer).above
    have hsum := congrArg List.length (behind_inside c outer)
    rw [List.length_append] at hsum
    rw [List.length_cons] at hcount
    simp only [behind] at hcount hsum
    show seek nextToken? (c.inside outer).tokenTotal (d.inside outer) =
      (seek nextToken? c.tokenTotal d).map fun d => d.inside outer
    rw [seek_inside (significant_of_nextToken? hd h),
      seek_nextToken?_congr (m := c.tokenTotal)
        (by simp only [tokenTotal, behind]; omega) (by simp only [tokenTotal, behind]; omega)]

/-- Neither do they change whether a tidy node is marked, if a token is left behind it. -/
theorem isMarkedOptional_inside (htidy : c.tree.Tidy) (hc : c.tree.nodeKind?.isSome = true)
    (h : Token.significant c.behind ≠ []) (outer : List Frame) :
    TypeShape.isMarkedOptional (c.inside outer) = TypeShape.isMarkedOptional c := by
  rw [TypeShape.isMarkedOptional, TypeShape.isMarkedOptional, lastSignificant?_eq htidy hc,
    lastSignificant?_eq (c := c.inside outer) htidy hc, lastToken?_inside]
  cases hx : c.lastToken? with
  | none => rfl
  | some x =>
    obtain ⟨-, -, -, -, hbehind⟩ := exists_of_lastTokenOf _ _ _ hx
    have hx' : Token.significant x.behind ≠ [] := by rwa [hbehind]
    rw [Option.map_some, Option.bind_some, Option.bind_some, nextSignificant?_inside hx',
      Option.any_map]
    rfl

/-! ## Two places with the same tree -/

theorem tokensBehind_congr (h : List.Forall₂ (fun f g : Frame => f.after = g.after) fs gs) :
    tokensBehind fs = tokensBehind gs := by
  induction h with
  | nil => rfl
  | cons hafter _ ih => rw [tokensBehind, tokensBehind, hafter, ih]

/-- The first token of an element is found in its tree. -/
theorem map_tree_firstToken? (h : c.tree = d.tree) :
    c.firstToken?.map tree = d.firstToken?.map tree := by
  have hmap : ∀ x : Cursor, x.firstToken?.map tree = (firstTokenOf x.tree x.start []).map tree := by
    intro x
    have hinside := firstTokenOf_inside x.tree x.start [] x.above
    rw [List.nil_append] at hinside
    rw [firstToken?, hinside, Option.map_map]
    rfl
  rw [hmap, hmap, h]
  exact rel_map_congr (onward_firstTokenOf d.tree .nil) fun _ _ h => h.tree

/-- The same place below `c₀` and below `d₀`. -/
inductive Paired (c₀ d₀ : Cursor) : Cursor → Cursor → Prop where
  | here : Paired c₀ d₀ c₀ d₀
  | child {c d : Cursor} {k : NodeKind} {ts us : List Tree} {t : Tree} (h : Paired c₀ d₀ c d)
      (hc : c.tree = .node k (ts ++ t :: us)) (offset offset' : Nat) :
      Paired c₀ d₀ ⟨t, offset, ⟨k, c.start, ts.reverse, us⟩ :: c.above⟩
        ⟨t, offset', ⟨k, d.start, ts.reverse, us⟩ :: d.above⟩

namespace Paired

variable {c₀ d₀ : Cursor}

theorem tree_eq (h₀ : c₀.tree = d₀.tree) (h : Paired c₀ d₀ c d) : c.tree = d.tree := by
  cases h with
  | here => exact h₀
  | child => rfl

theorem exists_above (h : Paired c₀ d₀ c d) :
    ∃ fs gs, c.above = fs ++ c₀.above ∧ d.above = gs ++ d₀.above ∧
      List.Forall₂ (fun f g : Frame => f.after = g.after) fs gs := by
  induction h with
  | here => exact ⟨[], [], rfl, rfl, .nil⟩
  | child _ _ _ _ ih =>
    obtain ⟨fs, gs, hfs, hgs, hafter⟩ := ih
    exact ⟨_ :: fs, _ :: gs, congrArg _ hfs, congrArg _ hgs, .cons rfl hafter⟩

theorem childrenFrom (h : Paired c₀ d₀ c d) {before rest : List Tree}
    (hc : c.tree = .node k (before.reverse ++ rest)) (offset offset' : Nat) :
    List.Forall₂ (Paired c₀ d₀) (Cursor.childrenFrom k c.start c.above before offset rest)
      (Cursor.childrenFrom k d.start d.above before offset' rest) := by
  induction rest generalizing before offset offset' with
  | nil => exact .nil
  | cons t rest ih =>
    have hfirst := h.child hc offset offset'
    rw [List.reverse_reverse] at hfirst
    exact .cons hfirst (ih (by simpa using hc) _ _)

theorem elements (h₀ : c₀.tree = d₀.tree) (h : Paired c₀ d₀ c d) :
    List.Forall₂ (Paired c₀ d₀) c.elements d.elements := by
  rw [Cursor.elements, Cursor.elements, ← h.tree_eq h₀]
  cases hc : c.tree with
  | leaf t => exact .nil
  | node k children => exact h.childrenFrom hc _ _

theorem mirrors (h₀ : c₀.tree = d₀.tree) (hc : ∀ m, c₀.surroundedIn m = true)
    (hd : ∀ m, d₀.surroundedIn m = true) : Mirrors (Paired c₀ d₀) where
  tree h := h.tree_eq h₀
  elements h := h.elements h₀
  surroundedIn {c d} h m := by
    induction h with
    | here => rw [hc, hd]
    | child _ _ _ _ ih =>
      simp only [surroundedIn, List.all_cons] at ih ⊢
      rw [ih]

/-- Below two places that no mark follows, the same marks are seen. -/
theorem isMarkedOptional_eq (h₀ : c₀.tree = d₀.tree) (h : Paired c₀ d₀ c d)
    (hc₀ : TypeShape.Sealed c₀.behind) (hd₀ : TypeShape.Sealed d₀.behind) (htidy : c.tree.Tidy)
    (hc : c.tree.nodeKind?.isSome = true) :
    TypeShape.isMarkedOptional c = TypeShape.isMarkedOptional d := by
  obtain ⟨fs, gs, hfs, hgs, hafter⟩ := h.exists_above
  have htree := h.tree_eq h₀
  obtain ⟨t, start, above⟩ := c
  obtain ⟨u, start', above'⟩ := d
  obtain rfl : t = u := htree
  obtain rfl : above = _ := hfs
  obtain rfl : above' = _ := hgs
  let inner : Cursor := ⟨t, start, fs⟩
  let inner' : Cursor := ⟨t, start', gs⟩
  have honward : Onward inner inner' := ⟨rfl, hafter⟩
  have hbehind : inner.behind = inner'.behind := tokensBehind_congr hafter
  have hcbehind := behind_inside inner c₀.above
  have hdbehind := behind_inside inner' d₀.above
  by_cases hleft : Token.significant inner.behind = []
  · -- what comes next stands outside
    have hsealed : ∀ (a b : List Token), Token.significant a = [] → TypeShape.Sealed b →
        TypeShape.Sealed (a ++ b) := by
      intro a b ha hb
      rw [TypeShape.Sealed, Token.significant, List.filter_append]
      rw [Token.significant] at ha
      rwa [ha]
    have hc' : TypeShape.isMarkedOptional (inner.inside c₀.above) = false :=
      TypeShape.isMarkedOptional_eq_false (hcbehind ▸ hsealed _ _ hleft hc₀)
    have hd' : TypeShape.isMarkedOptional (inner'.inside d₀.above) = false :=
      TypeShape.isMarkedOptional_eq_false (hdbehind ▸ hsealed _ _ (hbehind ▸ hleft) hd₀)
    exact hc'.trans hd'.symm
  · have hleft' : Token.significant inner'.behind ≠ [] := hbehind ▸ hleft
    calc TypeShape.isMarkedOptional (inner.inside c₀.above)
        = TypeShape.isMarkedOptional inner := isMarkedOptional_inside (c := inner) htidy hc hleft _
      _ = TypeShape.isMarkedOptional inner' := honward.isMarkedOptional htidy hc
      _ = TypeShape.isMarkedOptional (inner'.inside d₀.above) :=
        (isMarkedOptional_inside (c := inner') htidy hc hleft' _).symm

/-- Nodes between the two places and the ones below are the same. -/
theorem wrapping_eq (hR : Mirrors (Paired c₀ d₀))
    (h₀ : TypeShape.wrapping c₀.ancestors = TypeShape.wrapping d₀.ancestors)
    (h : Paired c₀ d₀ c d) :
    TypeShape.wrapping c.ancestors = TypeShape.wrapping d.ancestors := by
  induction h with
  | here => exact h₀
  | @child c d k ts us t h hc offset offset' ih =>
    have hcount : (TypeShape.tupleElements c).length = (TypeShape.tupleElements d).length :=
      (forall₂_filter (hR.children h) fun _ _ h => hR.isKind h .tupleTypeElement).length_eq
    have hattributes := Attribute.allIn_mirror (m := .sourceAccurate) hR h
    have hcparent : (⟨k, c.start, ts.reverse, us⟩ : Frame).parent t = c.tree := by
      rw [hc, Frame.parent, List.reverse_reverse]
    have hdparent : (⟨k, d.start, ts.reverse, us⟩ : Frame).parent t = d.tree :=
      hcparent.trans (hR.tree h)
    show TypeShape.wrapping (ancestorsOf t (_ :: c.above)) =
      TypeShape.wrapping (ancestorsOf t (_ :: d.above))
    rw [ancestorsOf, ancestorsOf, hcparent, hdparent]
    show TypeShape.wrapping (c :: c.ancestors) = TypeShape.wrapping (d :: d.ancestors)
    rw [TypeShape.wrapping, TypeShape.wrapping, hattributes, hcount, hR.tree h, ih]

/-- Two places with the same tidy tree agree, and so do the places below them, if the nodes around
    them make the same of a type, and no mark follows either of them. -/
theorem agrees (htree : c₀.tree = d₀.tree) (htidy : c₀.tree.Tidy)
    (haround : TypeShape.wrapping c₀.ancestors = TypeShape.wrapping d₀.ancestors)
    (hc : TypeShape.Sealed c₀.behind) (hd : TypeShape.Sealed d₀.behind)
    (hcshown : ∀ m, c₀.surroundedIn m = true) (hdshown : ∀ m, d₀.surroundedIn m = true) :
    Agrees (Paired c₀ d₀) := by
  have hmirrors := mirrors htree hcshown hdshown
  have htidies : ∀ {x y : Cursor}, Paired c₀ d₀ x y → x.tree.Tidy := by
    intro x y h
    induction h with
    | here => exact htidy
    | child _ hx _ _ ih => exact ih.of_mem_children (by simp [hx, Tree.children])
  exact {
    hmirrors with
    first := fun {x y} h hx => by
      have hxy := h.tree_eq htree
      rw [Cursor.firstSignificant?_eq (htidies h) hx,
        Cursor.firstSignificant?_eq (hxy ▸ htidies h) (hxy ▸ hx), Cursor.map_tree_firstToken? hxy]
    marked := fun h hx => h.isMarkedOptional_eq htree hc hd (htidies h) hx
    wrapping := fun h => h.wrapping_eq hmirrors haround }

end Paired

end Cursor

/-! ## Types that stand apart -/

namespace TypeShape

variable {c d : Cursor}

/-- The shape of a type depends on its tree and on what the nodes around it make of it, if no mark
    follows it. -/
theorem classify_eq_of_around (htree : c.tree = d.tree) (htidy : c.tree.Tidy)
    (haround : wrapping c.ancestors = wrapping d.ancestors) (hc : Sealed c.behind)
    (hd : Sealed d.behind) (hcshown : ∀ m, c.surroundedIn m = true)
    (hdshown : ∀ m, d.surroundedIn m = true) : classify c = classify d :=
  classify_mirror (Cursor.Paired.agrees htree htidy haround hc hd hcshown hdshown)
    Cursor.Paired.here

/-- The shape of a type that stands apart does not depend on where. -/
theorem classify_eq_of_apart (htree : c.tree = d.tree) (htidy : c.tree.Tidy) (hc : Apart c)
    (hd : Apart d) (hcshown : ∀ m, c.surroundedIn m = true)
    (hdshown : ∀ m, d.surroundedIn m = true) : classify c = classify d :=
  classify_eq_of_around htree htidy (hc.around.trans hd.around.symm) hc.behind hd.behind hcshown
    hdshown

/-- A type inside a node that wraps no types has the shape that it has where it stands apart. -/
theorem classify_eq_of_mem {k : NodeKind} {e : Cursor} (he : e ∈ c.elements)
    (hkind : c.tree.nodeKind? = some k)
    (hk : k ∉ [.optionalType, .implicitlyUnwrappedOptionalType, .attributedType,
      .tupleTypeElement, .tupleType, .unexpected])
    (htree : e.tree = d.tree) (htidy : e.tree.Tidy) (hbehind : Sealed e.behind)
    (hcshown : ∀ m, c.surroundedIn m = true) (hd : Apart d)
    (hdshown : ∀ m, d.surroundedIn m = true) : classify e = classify d := by
  have hwraps : k ∉ [.optionalType, .implicitlyUnwrappedOptionalType, .attributedType,
      .tupleTypeElement, .tupleType] := fun hmem =>
    hk (List.mem_append_left [NodeKind.unexpected] hmem)
  have hne : c.tree.nodeKind? ≠ some .unexpected := by
    rintro h
    rw [hkind] at h
    exact hk (by simp [Option.some.inj h])
  exact classify_eq_of_apart htree htidy (.of_mem he hkind hwraps hbehind) hd
    (fun m => Cursor.surroundedIn_of_mem_elements he hne (hcshown m)) hdshown

end TypeShape

end SwiftOutline
