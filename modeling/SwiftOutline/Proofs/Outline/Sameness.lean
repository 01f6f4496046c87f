/-
  SwiftOutline.Proofs.Outline.Sameness

  Outlines that are the same, wherever their declarations stand. The outlines of
  two places are, if each place mirrors the other and nothing around them makes a
  difference to what is read there.
-/
import SwiftOutline.Proofs.Outline.Mirrored
import SwiftOutline.Proofs.Outline.Search

namespace SwiftOutline

/-! ## Everything is the same as itself -/

namespace TypeShape

mutual

theorem same_self (t : TypeShape) : same t t = true := by
  match t with
  | simple n o => simp [same]
  | tuple es o => simp [same, sameAll_self es]
  | closure i out e esc o => simp [same, sameAll_self i, same_self out]
  | array t f o => simp [same, same_self t]
  | dictionary k v f o => simp [same, same_self k, same_self v]
  | set t f o => simp [same, same_self t]
  | result s g o => simp [same, same_self s, same_self g]
  | void o => simp [same]
  | empty => rfl

theorem sameParameter_self (p : Parameter TypeShape) : sameParameter p p = true := by
  match p with
  | ⟨label, name, type, text, variadic, byRef, value, attributes, omitted⟩ =>
    simp [sameParameter, same_self type]

theorem sameAll_self (ps : List (Parameter TypeShape)) : sameAll ps ps = true := by
  match ps with
  | [] => rfl
  | p :: ps => simp [sameAll, sameParameter_self p, sameAll_self ps]

end

instance : ReflBEq TypeShape := ⟨same_self _⟩

instance : ReflBEq (Parameter TypeShape) := ⟨sameParameter_self _⟩

end TypeShape

deriving instance ReflBEq for Signature

theorem CasePattern.same_self (p : CasePattern) : same p p = true := by
  cases p <;> simp [same]

instance : ReflBEq CasePattern := ⟨CasePattern.same_self _⟩

deriving instance ReflBEq for MatchedCase
deriving instance ReflBEq for SwitchCase
deriving instance ReflBEq for EnumCase

/-! ## Headers and variables -/

open Cursor (Agrees Mirrors)

variable {R : Cursor → Cursor → Prop} {c d : Cursor} {m : ViewMode} (hR : Agrees R)

include hR

namespace Header

theorem keywordOf_mirror {cs ds : List Cursor} (h : List.Forall₂ R cs ds) :
    keywordOf cs = keywordOf ds := by
  induction h with
  | nil => rfl
  | @cons e e' cs ds he _ ih =>
    rw [keywordOf, keywordOf, ih, ← hR.tree he]
    cases htree : e.tree with
    | leaf t => rfl
    | node k children => rw [hR.firstText he (by rw [htree]; rfl)]

theorem nameNode?_mirror (h : R c d) : Option.Rel R (nameNode? c) (nameNode? d) := by
  unfold nameNode?
  rw [hR.tree h]
  split
  · exact hR.typeChild? h
  · exact hR.child? h _
  · exact rel_bind (hR.child? h _) fun _ _ h => hR.child? h _
  · exact hR.child? h _
  · exact .none

theorem nameOf_mirror (h : R c d) : nameOf c = nameOf d := by
  unfold nameOf
  obtain ⟨hc, hd⟩ | ⟨a, b, hc, hd, hab⟩ := rel_cases (hR.child? h .declaredName)
  · rw [hc, hd]
    dsimp only
    rw [isNamedByPart, isNamedByPart, hR.tree h, keywordOf_mirror hR (hR.elements h),
      rel_map_congr (nameNode?_mirror hR h) fun _ _ h => hR.description h]
  · rw [hc, hd]
    exact hR.description hab

theorem ofCursor_mirror (h : R c d) : ofCursor m c = ofCursor m d := by
  rw [ofCursor, ofCursor, keywordOf_mirror hR (hR.elements h), nameOf_mirror hR h,
    Attribute.allIn_mirror hR.toMirrors h, Modifier.allIn_mirror hR h, hR.description h]

end Header

namespace Binding

theorem ascribed?_mirror (h : R c d) : Option.Rel R (ascribed? c) (ascribed? d) :=
  rel_bind (hR.child? h _) fun _ _ h => hR.typeChild? h

theorem typeNode?_mirror {cs ds : List Cursor} (h : R c d) (hlater : List.Forall₂ R cs ds) :
    Option.Rel R (typeNode? c cs) (typeNode? d ds) := by
  have hsettled : ∀ a b, R a b → isSettled a = isSettled b := fun a b hab => by
    rw [isSettled, isSettled, rel_isSome (hR.child? hab _), rel_isSome (hR.child? hab _)]
  unfold typeNode?
  obtain ⟨hc, hd⟩ | ⟨a, b, hc, hd, hab⟩ := rel_cases (ascribed?_mirror hR h)
  · rw [hc, hd, rel_isSome (hR.child? h .initializerClause)]
    dsimp only
    split
    · exact .none
    · exact rel_bind (forall₂_find? hlater hsettled) fun _ _ h => ascribed?_mirror hR h
  · rw [hc, hd]
    exact .some hab

theorem ofCursor_mirror {cs ds : List Cursor} (h : R c d) (hlater : List.Forall₂ R cs ds) :
    same (ofCursor m c cs) (ofCursor m d ds) = true := by
  have htype := rel_map_congr (typeNode?_mirror hR h hlater)
    fun _ _ h => TypeShape.classify_mirror hR h
  simp only [same, ofCursor, htype, initialValue?_mirror hR h, Accessor.allIn_mirror hR h,
    beq_self_eq_true, Bool.and_self]

theorem nameOf_mirror (h : R c d) : nameOf c = nameOf d := by
  rw [nameOf, nameOf, rel_map_congr (forall₂_find? (hR.children h) fun _ _ h => hR.isPattern h)
    fun _ _ h => hR.description h]

theorem allFrom_mirror {cs ds : List Cursor} (h : List.Forall₂ R cs ds) :
    List.Forall₂ (fun p q => p.1 = q.1 ∧ same p.2 q.2 = true) (allFrom m cs) (allFrom m ds) := by
  induction h with
  | nil => exact .nil
  | cons h hlater ih => exact .cons ⟨nameOf_mirror hR h, ofCursor_mirror hR h hlater⟩ ih

end Binding

/-! ## Members -/

theorem membersOf_mirror {member : NodeKind} (h : R c d) :
    List.Forall₂ R (membersOf m member c) (membersOf m member d) := by
  unfold membersOf
  obtain ⟨hc, hd⟩ | ⟨a, b, hc, hd, hab⟩ := rel_cases (hR.child? h .memberBlock)
  · rw [hc, hd]
    exact .nil
  · rw [hc, hd]
    exact hR.gatherBelow hab

theorem EnumCase.ofCursor_mirror {indirect : Bool} {e e' : Cursor} (h : R c d) (he : R e e') :
    ofCursor m indirect c e = ofCursor m indirect d e' := by
  have hvalue : ∀ a b, R a b → Parameter.ofEnumCase m a = Parameter.ofEnumCase m b := fun _ _ h =>
    Parameter.ofCursorWith_mirror hR (fun _ _ h => TypeShape.classify_mirror hR h) h
  unfold ofCursor
  dsimp only
  rw [Modifier.allIn_mirror hR h, Attribute.allIn_mirror hR.toMirrors h,
    initialValue?_mirror hR he,
    rel_map_congr (hR.child? he .declaredName) fun _ _ h => hR.description h,
    rel_map_congr (hR.child? he .enumCaseParameterClause) fun _ _ hv =>
      forall₂_map_congr (hR.childrenOf hv m .enumCaseParameter) hvalue]

theorem EnumCase.allIn_mirror (h : R c d) : allIn m c = allIn m d := by
  unfold allIn
  rw [Modifier.allIn_mirror hR h]
  exact forall₂_flatMap_congr (membersOf_mirror hR h) fun _ _ hd =>
    forall₂_map_congr (hR.childrenOf hd m .enumCaseElement) fun _ _ he => ofCursor_mirror hR hd he

theorem AssociatedType.ofCursor_mirror (h : R c d) :
    (ofCursor m c == ofCursor m d) = true := by
  have htype := rel_map_congr (rel_bind (hR.child? h .typeInitializerClause)
    fun _ _ h => hR.typeChild? h) fun _ _ h => TypeShape.classify_mirror hR h
  show same _ _ = true
  simp only [same, ofCursor, assignedType?, htype, Header.ofCursor_mirror hR h,
    inheritanceOf_mirror hR h, Generics.requirementsOf_mirror hR h, beq_self_eq_true,
    Bool.and_self]

omit hR in
theorem beq_of_forall₂ {α : Type} [BEq α] {as bs : List α}
    (h : List.Forall₂ (fun a b => (a == b) = true) as bs) : (as == bs) = true := by
  induction h with
  | nil => rfl
  | cons h _ ih => rw [List.cons_beq_cons, h, ih]; rfl

theorem AssociatedType.allIn_mirror (h : R c d) : (allIn m c == allIn m d) = true := by
  refine beq_of_forall₂ ?_
  rw [allIn, allIn, List.forall₂_map_left_iff, List.forall₂_map_right_iff]
  exact (membersOf_mirror hR h).imp fun _ _ h => ofCursor_mirror hR h

theorem NominalForm.ofCursor?_mirror (h : R c d) :
    Option.Rel (fun f g => same f g = true) (ofCursor? m c) (ofCursor? m d) := by
  unfold ofCursor?
  rw [hR.tree h, EnumCase.allIn_mirror hR h]
  split
  · exact .some rfl
  · exact .some rfl
  · exact .some rfl
  · exact .some rfl
  · exact .some (beq_self_eq_true _)
  · have hprimary := rel_map_congr (hR.child? h .primaryAssociatedTypeClause) fun _ _ hp =>
      forall₂_map_congr (forall₂_filter (hR.children hp) fun _ _ h => hR.isKind h .declaredName)
        fun _ _ h => hR.description h
    dsimp only
    rw [hprimary]
    exact .some (by rw [same, AssociatedType.allIn_mirror hR h, beq_self_eq_true, Bool.and_self])
  · exact .none

/-! ## Imports, operators and switches -/

theorem importPath_mirror (h : R c d) : importPath m c = importPath m d := by
  unfold importPath
  obtain ⟨hc, hd⟩ | ⟨a, b, hc, hd, hab⟩ := rel_cases (hR.child? h .importPath)
  · rw [hc, hd]
  · rw [hc, hd]
    dsimp only
    rw [hR.tokensIn hab]

theorem importKind?_mirror (h : R c d) : importKind? c = importKind? d := by
  rw [importKind?, importKind?, hR.significantTokens h]

theorem precedenceGroup?_mirror (h : R c d) : precedenceGroup? c = precedenceGroup? d := by
  rw [precedenceGroup?, precedenceGroup?,
    rel_bind_congr (hR.child? h _) fun _ _ h => hR.tokenOf? h _]

theorem Precedence.values_mirror (label : String) (h : R c d) :
    values label c = values label d := by
  have hlabel : ∀ a b, R a b →
      (a.isKind .precedenceGroupAttribute && a.firstSignificant?.any fun t => t.text == label) =
        (b.isKind .precedenceGroupAttribute &&
          b.firstSignificant?.any fun t => t.text == label) := by
    intro a b hab
    rw [← hR.isKind hab]
    cases hkind : a.isKind .precedenceGroupAttribute with
    | false => rfl
    | true =>
      have hfirst := congrArg (Option.any fun s => s == label)
        (hR.firstText hab (Mirrors.isSome_of_isKind hkind))
      rwa [Option.any_map, Option.any_map] at hfirst
  exact forall₂_flatMap_congr (forall₂_filter (hR.children h) hlabel)
    fun _ _ h => by rw [hR.significantTokens h]

theorem Precedence.ofCursor_mirror (h : R c d) : ofCursor c = ofCursor d := by
  rw [ofCursor, ofCursor, values_mirror hR "higherThan" h, values_mirror hR "lowerThan" h,
    values_mirror hR "associativity" h, values_mirror hR "assignment" h]

theorem switchCases_mirror (h : R c d) : switchCases m c = switchCases m d :=
  forall₂_map_congr (hR.gatherBelow h) fun _ _ h => SwitchCase.ofCursor_mirror hR h

theorem failureMark?_mirror (h : R c d) : failureMark? c = failureMark? d := by
  rw [failureMark?, failureMark?, hR.hasToken h, hR.hasToken h]

/-! ## Declarations -/

/-- Two declarations are the same. -/
def Declaration.Same (a b : Declaration) : Prop := a.same b = true

omit hR in
theorem Declaration.sameAll_of_forall₂ {as bs : List Declaration}
    (h : List.Forall₂ Declaration.Same as bs) : sameAll as bs = true := by
  induction h with
  | nil => rw [sameAll]
  | cons h _ ih =>
    rw [sameAll, ih, Bool.and_true]
    exact h

omit hR in
theorem Declaration.sameBranches_of_forall₂ {as bs : List Branch}
    (h : List.Forall₂ (fun a b => sameBranch a b = true) as bs) : sameBranches as bs = true := by
  induction h with
  | nil => rw [sameBranches]
  | cons h _ ih => rw [sameBranches, ih, h, Bool.and_self]

section Nested

variable {read : Cursor → List Declaration}
  (hread : ∀ x y, R x y → List.Forall₂ Declaration.Same (read x) (read y))

include hread

omit hR in
theorem Outline.ofNodes_mirror (hR : Agrees R) {xs ys : List Cursor} (h : List.Forall₂ R xs ys) :
    List.Forall₂ Declaration.Same (ofNodes read xs) (ofNodes read ys) := by
  refine forall₂_flatMap (R := Eq) (List.forall₂_refl _) fun k _ hk => ?_
  subst hk
  exact forall₂_flatMap (forall₂_filter h fun _ _ h => by rw [hR.tree h]) hread

theorem Outline.belowWith_mirror (h : R c d) :
    Declaration.sameAll (belowWith read m c) (belowWith read m d) = true :=
  Declaration.sameAll_of_forall₂ (ofNodes_mirror hread hR (hR.gatherBelow h))

theorem Outline.insideWith_mirror (h : R c d) (k : NodeKind) :
    Declaration.sameAll (insideWith read m (c.child? k)) (insideWith read m (d.child? k)) =
      true := by
  obtain ⟨hc, hd⟩ | ⟨a, b, hc, hd, hab⟩ := rel_cases (hR.child? h k)
  · rw [hc, hd]
    exact Declaration.sameAll_of_forall₂ .nil
  · rw [hc, hd]
    exact belowWith_mirror hR hread hab

theorem Details.branches_mirror (h : R c d) :
    Declaration.sameBranches
      ((c.childrenOf m .ifConfigClause).map fun b =>
        .mk ((b.firstSignificant?.map Cursor.text).getD "")
          ((b.child? .ifConfigCondition).map Cursor.description) (Outline.belowWith read m b))
      ((d.childrenOf m .ifConfigClause).map fun b =>
        .mk ((b.firstSignificant?.map Cursor.text).getD "")
          ((b.child? .ifConfigCondition).map Cursor.description) (Outline.belowWith read m b)) =
      true := by
  refine Declaration.sameBranches_of_forall₂ ?_
  rw [List.forall₂_map_left_iff, List.forall₂_map_right_iff]
  refine (hR.nodes_childrenOf h m .ifConfigClause).imp fun a b ⟨ha, hab⟩ => ?_
  rw [hR.firstText hab ha, rel_map_congr (hR.child? hab _) fun _ _ h => hR.description h,
    Declaration.sameBranch, Outline.belowWith_mirror hR hread hab]
  simp

theorem Details.ofCursor?_mirror (h : R c d) :
    Option.Rel (fun a b => Declaration.sameDetails a b = true) (ofCursor? read m c)
      (ofCursor? read m d) := by
  have hinside := Outline.insideWith_mirror (m := m) hR hread h
  have hassigned := rel_bind (hR.child? h .typeInitializerClause) fun _ _ h => hR.typeChild? h
  unfold ofCursor?
  dsimp only
  rw [Generics.ofCursor_mirror hR h, inheritanceOf_mirror hR h]
  obtain ⟨hc, hd⟩ | ⟨f, g, hc, hd, hfg⟩ := rel_cases (NominalForm.ofCursor?_mirror (m := m) hR h)
  · rw [hc, hd]
    dsimp only
    rw [hR.tree h]
    -- one case for each kind of node, in the order of the definition
    split
    · rw [Signature.ofCursor_mirror hR h]
      exact .some (by simp [Declaration.sameDetails, hinside])
    · rw [Signature.ofCursor_mirror hR h, failureMark?_mirror hR h]
      exact .some (by simp [Declaration.sameDetails, hinside])
    · rw [Effects.ofCursor_mirror hR h]
      exact .some (by simp [Declaration.sameDetails, hinside])
    · rw [Signature.ofCursor_mirror hR h, Accessor.allIn_mirror hR h]
      exact .some (by simp [Declaration.sameDetails, hinside])
    · rw [assignedType?, assignedType?,
        rel_map_congr hassigned fun _ _ h => TypeShape.classify_mirror hR h]
      exact .some (by simp [Declaration.sameDetails])
    · rw [importPath_mirror hR h, importKind?_mirror hR h]
      exact .some (by simp [Declaration.sameDetails])
    · rw [Modifier.allIn_mirror hR h, precedenceGroup?_mirror hR h]
      exact .some (by simp [Declaration.sameDetails])
    · rw [Precedence.ofCursor_mirror hR h]
      exact .some (by simp [Declaration.sameDetails])
    · exact .some (by rw [Declaration.sameDetails, branches_mirror hR hread h])
    · rw [switchCases_mirror hR h]
      exact .some (by simp [Declaration.sameDetails, Outline.belowWith_mirror hR hread h])
    · exact .none
  · rw [hc, hd]
    exact .some (by simp [Declaration.sameDetails, hfg, hinside])

end Nested

namespace Declaration

theorem variablesOf_mirror (h : R c d) :
    List.Forall₂ Same (variablesOf m c) (variablesOf m d) := by
  unfold variablesOf
  obtain ⟨hc, hd⟩ | ⟨list, list', hc, hd, hlist⟩ := rel_cases (hR.child? h .patternBindingList)
  · rw [hc, hd]
    exact .nil
  · rw [hc, hd, Header.ofCursor_mirror hR h]
    dsimp only
    rw [List.forall₂_map_left_iff, List.forall₂_map_right_iff]
    refine (Binding.allFrom_mirror hR (hR.childrenOf hlist m .patternBinding)).imp ?_
    rintro ⟨name, b⟩ ⟨name', b'⟩ ⟨rfl, hb⟩
    simp only [Same, same, sameDetails, hb, beq_self_eq_true, Bool.and_self]

theorem readWithin_mirror {levels : Nat} (h : R c d) :
    List.Forall₂ Same (readWithin m levels c) (readWithin m levels d) := by
  induction levels generalizing c d with
  | zero => exact .nil
  | succ levels ih =>
    have hdetails := Details.ofCursor?_mirror (m := m) hR (fun _ _ h => ih h) h
    rw [readWithin, readWithin, readWith, readWith, hR.isKind h, Header.ofCursor_mirror hR h]
    split
    · exact variablesOf_mirror hR h
    · obtain ⟨hc, hd⟩ | ⟨a, b, hc, hd, hab⟩ := rel_cases hdetails
      · rw [hc, hd]
        exact .nil
      · rw [hc, hd]
        exact .cons (by simp only [Same, same, hab, beq_self_eq_true, Bool.and_self]) .nil

theorem read_mirror (h : R c d) : List.Forall₂ Same (read m c) (read m d) := by
  rw [read, read, hR.tree h]
  exact readWithin_mirror hR h

end Declaration

/-- The outlines of mirrored places are the same. -/
theorem Outline.same_ofNodes {xs ys : List Cursor} (h : List.Forall₂ R xs ys) :
    same (ofNodes (Declaration.read m) xs) (ofNodes (Declaration.read m) ys) = true :=
  Declaration.sameAll_of_forall₂
    (ofNodes_mirror (fun _ _ h => Declaration.read_mirror hR h) hR h)

end SwiftOutline
