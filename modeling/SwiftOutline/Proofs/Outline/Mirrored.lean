/-
  SwiftOutline.Proofs.Outline.Mirrored

  What an outline depends on. Of two places with the same tree the same is read,
  if the same tokens come first in all that stands there and its surroundings make
  the types there optional and escaping alike. Where the places are does not matter.
-/
import SwiftOutline.Outline.Collect
import SwiftOutline.Proofs.Tree.Mirror

namespace SwiftOutline

open Cursor (Mirrors)

variable {R : Cursor → Cursor → Prop} {c d : Cursor} {m : ViewMode}

/-! ## Attributes -/

theorem AttributeArgument.ofCursor_mirror (hR : Mirrors R) (h : R c d) :
    ofCursor c = ofCursor d := by
  unfold ofCursor
  rw [hR.tokensIn h, hR.textAfter h, hR.description h]

theorem Attribute.ofCursor_mirror (hR : Mirrors R) (h : R c d) :
    ofCursor m c = ofCursor m d := by
  unfold ofCursor
  rw [hR.significantTokens h]
  obtain ⟨hc, hd⟩ | ⟨list, list', hc, hd, hlist⟩ := rel_cases (hR.child? h .attributeArguments)
  · rw [hc, hd]
  · rw [hc, hd]
    dsimp only
    rw [forall₂_map_congr (hR.childrenOf hlist m .attributeArgument)
      fun _ _ h => AttributeArgument.ofCursor_mirror hR h]

theorem Attribute.allIn_mirror (hR : Mirrors R) (h : R c d) : allIn m c = allIn m d :=
  forall₂_flatMap_congr (hR.childrenOf h m .attributeList) fun _ _ hlist =>
    forall₂_map_congr (hR.childrenOf hlist m .attributeUse) fun _ _ h => ofCursor_mirror hR h

/-- Places that mirror each other, nodes with the same first token and the same marks of optionality
    behind them, and with the same nodes around their types. -/
structure Cursor.Agrees (R : Cursor → Cursor → Prop) : Prop extends Mirrors R where
  first : ∀ {c d : Cursor}, R c d → c.tree.nodeKind?.isSome = true →
    c.firstSignificant?.map Cursor.tree = d.firstSignificant?.map Cursor.tree
  marked : ∀ {c d : Cursor}, R c d → c.tree.nodeKind?.isSome = true →
    TypeShape.isMarkedOptional c = TypeShape.isMarkedOptional d
  wrapping : ∀ {c d : Cursor}, R c d →
    TypeShape.wrapping c.ancestors = TypeShape.wrapping d.ancestors

open Cursor (Agrees)

variable (hR : Agrees R)

include hR

theorem Cursor.Agrees.firstText (h : R c d) (hc : c.tree.nodeKind?.isSome = true) :
    c.firstSignificant?.map Cursor.text = d.firstSignificant?.map Cursor.text := by
  have hfirst := congrArg (Option.map Tree.text) (hR.first h hc)
  rwa [Option.map_map, Option.map_map] at hfirst

/-! ## Modifiers, effects and values -/

theorem Modifier.ofCursor?_mirror (h : R c d) (hc : c.tree.nodeKind?.isSome = true) :
    ofCursor? m c = ofCursor? m d := by
  have hdetail : ((c.child? .modifierDetail).bind fun detail =>
      ((detail.tokensIn m).find? fun t => t.kind == .ident).bind fun word => some word.text) =
      (d.child? .modifierDetail).bind fun detail =>
        ((detail.tokensIn m).find? fun t => t.kind == .ident).bind fun word => some word.text :=
    rel_bind_congr (hR.child? h _) fun _ _ h => by rw [hR.tokensIn h]
  have hread : ∀ x : Cursor, ofCursor? m x = (x.firstSignificant?.map Cursor.text).map fun name =>
      ⟨name, (x.child? .modifierDetail).bind fun detail =>
        ((detail.tokensIn m).find? fun t => t.kind == .ident).bind fun word => some word.text⟩ := by
    intro x
    unfold ofCursor?
    cases x.firstSignificant? <;> rfl
  rw [hread, hread, hR.firstText h hc, hdetail]

theorem Modifier.allIn_mirror (h : R c d) : allIn m c = allIn m d := by
  unfold allIn
  obtain ⟨hc, hd⟩ | ⟨list, list', hc, hd, hlist⟩ := rel_cases (hR.child? h .modifierList)
  · rw [hc, hd]
  · rw [hc, hd]
    exact forall₂_filterMap_congr (hR.nodes_childrenOf hlist m .modifier)
      fun _ _ h => ofCursor?_mirror hR h.2 h.1

theorem Effects.ofCursor_mirror (h : R c d) : ofCursor c = ofCursor d := by
  unfold ofCursor
  obtain ⟨hc, hd⟩ | ⟨list, list', hc, hd, hlist⟩ := rel_cases (hR.child? h .effectSpecifiers)
  · rw [hc, hd]
  · rw [hc, hd]
    dsimp only
    rw [hR.tree hlist]

theorem initialValue?_mirror (h : R c d) : initialValue? m c = initialValue? m d :=
  rel_bind_congr (hR.child? h .initializerClause) fun _ _ hclause =>
    rel_bind_congr (forall₂_head? (hR.childrenIn hclause m)) fun _ _ h =>
      congrArg some (hR.description h)

/-! ## Generics -/

theorem GenericParameter.ofCursor?_mirror (h : R c d) : ofCursor? m c = ofCursor? m d := by
  unfold ofCursor?
  rw [hR.tokenOf? h, rel_map_congr (hR.typeIn? h m) fun _ _ h => hR.description h]
  exact rel_map_congr (hR.child? h _) fun _ _ h => by rw [hR.description h]

theorem Requirement.ofCursor?_mirror (h : R c d) : ofCursor? m c = ofCursor? m d := by
  have htypes := forall₂_filter (hR.childrenIn h m) fun _ _ h => hR.isType h
  unfold ofCursor?
  rw [hR.tree h, hR.hasToken h, hR.textAfter h]
  refine congrArg (Option.bind _) (funext fun relation => ?_)
  refine rel_bind_congr (forall₂_head? htypes) fun _ _ hleft => ?_
  rw [hR.description hleft,
    rel_map_congr (forall₂_getElem? htypes 1) fun _ _ h => hR.description h]

theorem Generics.parametersOf_mirror (h : R c d) : parametersOf m c = parametersOf m d := by
  unfold parametersOf
  obtain ⟨hc, hd⟩ | ⟨clause, clause', hc, hd, hclause⟩ :=
    rel_cases (hR.child? h .genericParameterClause)
  · rw [hc, hd]
  · rw [hc, hd]
    exact forall₂_filterMap_congr (hR.childrenOf hclause m .genericParameter)
      fun _ _ h => GenericParameter.ofCursor?_mirror hR h

theorem Generics.requirementsOf_mirror (h : R c d) : requirementsOf m c = requirementsOf m d := by
  have hinner := rel_bind (hR.child? h .genericParameterClause)
    fun _ _ h => hR.child? h .genericWhereClause
  have hclauses := List.rel_append (rel_toList hinner)
    (rel_toList (hR.child? h .genericWhereClause))
  exact forall₂_flatMap_congr hclauses fun _ _ hclause =>
    forall₂_filterMap_congr (hR.childrenIn hclause m)
      fun _ _ h => Requirement.ofCursor?_mirror hR h

theorem Generics.ofCursor_mirror (h : R c d) : ofCursor m c = ofCursor m d := by
  rw [ofCursor, ofCursor, parametersOf_mirror hR h, requirementsOf_mirror hR h]

theorem inheritanceOf_mirror (h : R c d) : inheritanceOf m c = inheritanceOf m d := by
  unfold inheritanceOf
  obtain ⟨hc, hd⟩ | ⟨clause, clause', hc, hd, hclause⟩ :=
    rel_cases (hR.child? h .inheritanceClause)
  · rw [hc, hd]
  · rw [hc, hd]
    dsimp only
    rw [forall₂_map_congr (hR.childrenOf hclause m .inheritedType)
      fun _ _ h => hR.description h]

/-! ## Types -/

theorem Parameter.ofCursorWith_mirror {τ : Type} {absent : τ} {classify : Cursor → τ}
    {namesNeedColon : Bool} (hclassify : ∀ a b, R a b → classify a = classify b) (h : R c d) :
    ofCursorWith absent classify namesNeedColon m c =
      ofCursorWith absent classify namesNeedColon m d := by
  have htype := hR.typeIn? h m
  have hattributed := rel_filter htype fun _ _ h => hR.isKind h .attributedType
  have hinout : (((c.typeIn? m).filter fun t => t.isKind .attributedType).any fun t =>
      t.hasToken .kwInout) =
      ((d.typeIn? m).filter fun t => t.isKind .attributedType).any fun t =>
        t.hasToken .kwInout := by
    obtain ⟨hc, hd⟩ | ⟨a, b, hc, hd, hab⟩ := rel_cases hattributed
    · rw [hc, hd]
    · rw [hc, hd, Option.any_some, Option.any_some, hR.hasToken hab]
  unfold ofCursorWith
  dsimp only
  rw [hR.tree h, rel_map_congr htype hclassify, rel_map_congr htype fun _ _ h => hR.description h,
    hR.hasToken h, hinout, initialValue?_mirror hR h, Attribute.allIn_mirror hR.toMirrors h,
    forall₂_flatMap_congr (rel_toList hattributed)
      fun _ _ h => Attribute.allIn_mirror hR.toMirrors h]

namespace TypeShape

variable {classify : Cursor → TypeShape} (hclassify : ∀ a b, R a b → classify a = classify b)

theorem genericForm?_mirror (name : String) {as bs : Option (List Cursor)} {cs ds : List Cursor}
    (hargs : Option.Rel (List.Forall₂ R) as bs) (h : List.Forall₂ R cs ds) :
    Option.Rel (fun p q => p.1 = q.1 ∧ List.Forall₂ R p.2 q.2) (genericForm? name as cs)
      (genericForm? name bs ds) := by
  induction h generalizing name as bs with
  | nil =>
    refine .some ⟨rfl, ?_⟩
    cases hargs with
    | none => exact .nil
    | some h => exact h
  | @cons e e' cs ds he _ ih =>
    have hsome := rel_isSome hargs
    have hnone : as.isNone = bs.isNone := by rw [← Option.not_isSome, hsome, Option.not_isSome]
    rw [genericForm?, genericForm?, hR.tree he, hsome, hnone]
    cases e'.tree with
    | leaf t =>
      dsimp only
      split
      · exact ih _ hargs
      · split
        · exact .none
        · exact ih _ .none
    | node k children =>
      dsimp only
      split
      · have htypes := forall₂_filter (hR.children he) fun _ _ h => hR.isKind h .genericArgument
        exact ih _ (.some (List.rel_filterMap (fun _ _ h => hR.typeChild? h) htypes))
      · exact .none

include hclassify

theorem ofNamed_mirror (h : R c d) (hc : c.tree.nodeKind?.isSome = true) :
    ofNamed classify c = ofNamed classify d := by
  have hform := genericForm?_mirror hR "" .none (hR.elements h)
  have hargs : ∃ name as bs, (genericForm? "" none c.elements).getD (c.description, []) =
      (name, as) ∧ (genericForm? "" none d.elements).getD (d.description, []) = (name, bs) ∧
      List.Forall₂ R as bs := by
    obtain ⟨hc, hd⟩ | ⟨⟨name, as⟩, ⟨name', bs⟩, hc, hd, rfl, has⟩ := rel_cases hform
    · exact ⟨_, [], [], by rw [hc]; rfl, by rw [hd, hR.description h]; rfl, .nil⟩
    · exact ⟨_, as, bs, by rw [hc]; rfl, by rw [hd]; rfl, has⟩
  obtain ⟨name, as, bs, has, hbs, hargs⟩ := hargs
  unfold ofNamed
  rw [has, hbs]
  dsimp only
  rw [forall₂_map_congr hargs hclassify, hR.description h, hR.marked h hc]

theorem inner_mirror (h : R c d) : inner classify c = inner classify d := by
  rw [inner, inner, rel_map_congr (hR.typeChild? h) hclassify]

omit hclassify in
theorem tupleElements_mirror (h : R c d) :
    List.Forall₂ R (tupleElements c) (tupleElements d) :=
  forall₂_filter (hR.children h) fun _ _ h => hR.isKind h .tupleTypeElement

theorem ofElement_mirror (h : R c d) : ofElement classify c = ofElement classify d :=
  Parameter.ofCursorWith_mirror hR hclassify h

theorem ofTuple_mirror (h : R c d) : ofTuple classify c = ofTuple classify d := by
  have helements := tupleElements_mirror hR h
  unfold ofTuple
  generalize tupleElements c = es at helements ⊢
  generalize tupleElements d = es' at helements ⊢
  match es, es', helements with
  | [], [], .nil => rfl
  | [e], [e'], .cons he .nil =>
    dsimp only
    rw [hR.hasToken he, ofElement_mirror hR hclassify he, inner_mirror hR hclassify he]
  | _ :: _ :: _, _ :: _ :: _, .cons he (.cons he' hes) =>
    dsimp only
    rw [forall₂_map_congr (.cons he (.cons he' hes)) fun _ _ h => ofElement_mirror hR hclassify h]

theorem ofFunction_mirror (h : R c d) : ofFunction classify c = ofFunction classify d := by
  unfold ofFunction
  dsimp only
  rw [hR.wrapping h, Effects.ofCursor_mirror hR h,
    rel_map_congr (hR.child? h .returnClause) fun _ _ h => inner_mirror hR hclassify h,
    rel_map_congr (hR.child? h .tupleType) fun _ _ h =>
      forall₂_map_congr (tupleElements_mirror hR h) fun _ _ h => ofElement_mirror hR hclassify h]

theorem classifyWith_mirror (h : R c d) : classifyWith classify c = classifyWith classify d := by
  have htypes := forall₂_map_congr
    (forall₂_filter (hR.children h) fun _ _ h => hR.isType h) hclassify
  unfold classifyWith
  cases hk : c.tree.nodeKind? with
  | none => rw [← hR.tree h, hk]
  | some k =>
    have hnode : c.tree.nodeKind?.isSome = true := by rw [hk, Option.isSome_some]
    rw [← hR.tree h, hk, ofNamed_mirror hR hclassify h hnode, ofTuple_mirror hR hclassify h,
      ofFunction_mirror hR hclassify h, inner_mirror hR hclassify h, hR.marked h hnode, htypes]

omit hclassify in
theorem classifyWithin_mirror {levels : Nat} (h : R c d) :
    classifyWithin levels c = classifyWithin levels d := by
  induction levels generalizing c d with
  | zero => rfl
  | succ levels ih =>
    rw [classifyWithin, classifyWithin]
    exact classifyWith_mirror hR (fun _ _ h => ih h) h

omit hclassify in
theorem classify_mirror (h : R c d) : TypeShape.classify c = TypeShape.classify d := by
  rw [TypeShape.classify, TypeShape.classify, hR.tree h, classifyWithin_mirror hR h]

end TypeShape

/-! ## Signatures and accessors -/

theorem Parameter.ofClause_mirror (h : R c d) : ofClause m c = ofClause m d :=
  forall₂_map_congr (hR.childrenOf h m .parameter)
    fun _ _ h => ofCursorWith_mirror hR (fun _ _ h => TypeShape.classify_mirror hR h) h

theorem Signature.ofCursor_mirror (h : R c d) : ofCursor m c = ofCursor m d := by
  unfold ofCursor
  obtain ⟨hc, hd⟩ | ⟨a, b, hc, hd, hab⟩ := rel_cases (hR.child? h .functionSignature)
  · rw [hc, hd]
  · have houtput := rel_bind (hR.child? hab .returnClause) fun _ _ h => hR.typeIn? h m
    rw [hc, hd]
    dsimp only
    rw [rel_map_congr (hR.child? hab .parameterClause) fun _ _ h => Parameter.ofClause_mirror hR h,
      rel_map_congr houtput fun _ _ h => TypeShape.classify_mirror hR h,
      rel_map_congr houtput fun _ _ h => hR.description h, Effects.ofCursor_mirror hR hab]

theorem Accessor.ofCursor?_mirror (h : R c d) : ofCursor? m c = ofCursor? m d := by
  have hparameter := rel_bind_congr (hR.child? h .accessorParameter)
    fun _ _ h => hR.tokenOf? h .ident
  unfold ofCursor?
  rw [hR.significantTokens h, Modifier.allIn_mirror hR h, Effects.ofCursor_mirror hR h,
    hparameter, rel_isSome (hR.child? h .codeBlock)]

theorem Accessor.ofBlock_mirror (h : R c d) : ofBlock m c = ofBlock m d := by
  unfold ofBlock
  rw [forall₂_filterMap_congr (hR.childrenOf h m .accessor) fun _ _ h => ofCursor?_mirror hR h]

theorem Accessor.allIn_mirror (h : R c d) : allIn m c = allIn m d := by
  rw [allIn, allIn, rel_map_congr (hR.child? h .accessorBlock) fun _ _ h => ofBlock_mirror hR h]

/-! ## Patterns -/

namespace CasePattern

theorem soleChild?_mirror (h : R c d) : Option.Rel R (soleChild? c) (soleChild? d) := by
  have hchildren := hR.children h
  unfold soleChild?
  generalize c.children = es at hchildren ⊢
  generalize d.children = es' at hchildren ⊢
  match es, es', hchildren with
  | [], [], .nil => exact .none
  | [_], [_], .cons h .nil => exact .some h
  | _ :: _ :: _, _ :: _ :: _, .cons _ (.cons _ _) => exact .none

theorem keyword?_mirror (h : R c d) (hc : c.isKind .valueBindingPattern = true) :
    keyword? c = keyword? d := by
  have hread : ∀ x : Cursor, keyword? x =
      (x.firstSignificant?.map Cursor.tree).bind fun t =>
        if Cursor.isToken (.ofTree t) .kwLet || Cursor.isToken (.ofTree t) .kwVar then some t.text
        else none := by
    intro x
    unfold keyword?
    cases x.firstSignificant? with
    | none => rfl
    | some t =>
      have htoken : ∀ k, t.isToken k = Cursor.isToken (.ofTree t.tree) k := fun _ => rfl
      rw [Option.filter_some, Option.map_some, Option.bind_some, htoken, htoken]
      split <;> rfl
  rw [hread, hread, hR.first h (Mirrors.isSome_of_isKind hc)]

theorem memberName?_mirror (h : R c d) : memberName? c = memberName? d := by
  rw [memberName?, memberName?, hR.isKind h, hR.description h]

/-- The arguments of a call, told from their names and patterns. -/
theorem memberCall?_mirror (h : R c d) :
    Option.Rel (fun p q => p.1 = q.1 ∧ List.Forall₂ (Option.Rel R) p.2 q.2) (memberCall? c)
      (memberCall? d) := by
  unfold memberCall?
  rw [hR.isKind h]
  cases d.isKind .expressionPattern with
  | false => exact .none
  | true =>
    refine rel_bind (rel_filter (soleChild?_mirror hR h) fun _ _ h => hR.isKind h _)
      fun call call' hcall => ?_
    refine rel_bind (R := Eq) ?_ fun name name' hname => ?_
    · rw [rel_bind_congr (forall₂_head? (hR.children hcall)) fun _ _ h => memberName?_mirror hR h]
      cases call'.children.head?.bind memberName? <;> first | exact .none | exact .some rfl
    refine rel_bind (hR.child? hcall _) fun list list' hlist => .some ⟨hname, ?_⟩
    refine List.rel_map (fun _ _ ha => ?_)
      (forall₂_filter (hR.children hlist) fun _ _ h => hR.isKind h .labeledExpr)
    exact forall₂_find? (hR.children ha) fun _ _ h => hR.isPattern h

theorem isLiteral_mirror (h : R c d) : isLiteral c = isLiteral d := by
  have hsole : ((soleChild? c).any fun e => e.isKind .literalExpr) =
      (soleChild? d).any fun e => e.isKind .literalExpr := by
    obtain ⟨hc, hd⟩ | ⟨a, b, hc, hd, hab⟩ := rel_cases (soleChild?_mirror hR h)
    · rw [hc, hd]
    · rw [hc, hd, Option.any_some, Option.any_some, hR.isKind hab]
  rw [isLiteral, isLiteral, hR.isKind h, hsole]

theorem boundName?_mirror (h : R c d) : boundName? c = boundName? d := by
  rw [boundName?, boundName?, hR.isKind h, hR.isKind h, hR.description h]

theorem innerBindings?_mirror {bound : List (String × String)} {as bs : List (Option Cursor)}
    (h : List.Forall₂ (Option.Rel R) as bs) : innerBindings? bound as = innerBindings? bound bs := by
  induction h generalizing bound with
  | nil => rfl
  | cons hab _ ih =>
    cases hab with
    | none => rfl
    | @some a b hab =>
      rw [innerBindings?, innerBindings?, hR.isKind hab .wildcardPattern, isLiteral_mirror hR hab,
        ← hR.isKind hab .valueBindingPattern]
      split
      · next hkind =>
        rw [keyword?_mirror hR hab hkind]
        refine congrArg (Option.bind _) (funext fun keyword => ?_)
        refine rel_bind_congr (rel_filter (soleChild?_mirror hR hab) fun _ _ h => hR.isKind h _)
          fun _ _ h => ?_
        rw [hR.description h]
        exact ih
      · split
        · exact ih
        · rfl

omit hR in
theorem mapM_mirror {α β γ : Type} {S : α → β → Prop} {f : α → Option γ} {g : β → Option γ}
    {as : List α} {bs : List β} (h : List.Forall₂ S as bs) (hfg : ∀ a b, S a b → f a = g b) :
    as.mapM f = bs.mapM g := by
  induction h with
  | nil => rfl
  | cons hab _ ih => rw [List.mapM_cons, List.mapM_cons, hfg _ _ hab, ih]

theorem tuple?_mirror (h : R c d) : tuple? c = tuple? d := by
  rw [tuple?, tuple?, hR.isKind h,
    forall₂_map_congr (forall₂_filter (hR.children h) fun _ _ h => hR.isKind h .tuplePatternElement)
      fun _ _ h => hR.description h]

theorem member?_mirror (h : R c d) : member? c = member? d := by
  rw [member?, member?, hR.isKind h,
    rel_bind_congr (soleChild?_mirror hR h) fun _ _ h => memberName?_mirror hR h]

theorem typeTest?_mirror (h : R c d) : typeTest? c = typeTest? d := by
  rw [typeTest?, typeTest?, hR.isKind h,
    rel_map_congr (hR.typeChild? h) fun _ _ h => TypeShape.classify_mirror hR h]

theorem innerBinding?_mirror (h : R c d) : innerBinding? c = innerBinding? d := by
  unfold innerBinding?
  refine rel_bind_congr (memberCall?_mirror hR h) ?_
  rintro ⟨name, as⟩ ⟨name', bs⟩ ⟨rfl, has⟩
  dsimp only
  rw [innerBindings?_mirror hR has]

theorem memberBinding?_mirror (h : R c d) : memberBinding? c = memberBinding? d := by
  unfold memberBinding?
  rw [← hR.isKind h]
  cases hkind : c.isKind .valueBindingPattern with
  | false => rfl
  | true =>
    rw [keyword?_mirror hR h hkind]
    refine congrArg (Option.bind _) (funext fun keyword => ?_)
    refine rel_bind_congr (soleChild?_mirror hR h) fun a b hab => ?_
    dsimp only
    rw [member?_mirror hR hab]
    split
    · rfl
    · refine rel_bind_congr (memberCall?_mirror hR hab) ?_
      rintro ⟨name, as⟩ ⟨name', bs⟩ ⟨rfl, has⟩
      dsimp only
      rw [mapM_mirror has fun _ _ h => rel_bind_congr h fun _ _ h => boundName?_mirror hR h]

theorem binding?_mirror (h : R c d) : binding? c = binding? d := by
  unfold binding?
  rw [← hR.isKind h]
  cases hkind : c.isKind .valueBindingPattern with
  | false => rfl
  | true =>
    rw [keyword?_mirror hR h hkind]
    refine congrArg (Option.bind _) (funext fun keyword => ?_)
    refine rel_bind_congr (soleChild?_mirror hR h) fun a b hab => ?_
    rw [hR.tree hab, hR.description hab]
    split
    · rfl
    · refine rel_bind_congr (rel_filter (forall₂_head? (hR.children hab))
        fun _ _ h => hR.isKind h _) fun _ _ h => ?_
      rw [hR.description h]
    · rw [mapM_mirror (forall₂_filter (hR.children hab) fun _ _ h => hR.isKind h .tuplePatternElement)
        fun _ _ h => rel_bind_congr (soleChild?_mirror hR h) fun _ _ h => boundName?_mirror hR h]
    · rfl

theorem literal?_mirror (h : R c d) : literal? c = literal? d := by
  rw [literal?, literal?, isLiteral_mirror hR h, hR.description h]

theorem patternOf?_mirror (h : R c d) : Option.Rel R (patternOf? c) (patternOf? d) := by
  rw [patternOf?, patternOf?, hR.isKind h]
  split
  · exact forall₂_find? (hR.children h) fun _ _ h => hR.isPattern h
  · exact .some h

/-- A pattern is recognised wherever it stands. -/
theorem classify_mirror (h : R c d) : classify c = classify d := by
  have hfound : ∀ a b, R a b → (recognizers.findSome? fun r => r a) =
      recognizers.findSome? fun r => r b := by
    intro a b hab
    simp only [recognizers, List.findSome?_cons, tuple?_mirror hR hab, member?_mirror hR hab,
      typeTest?_mirror hR hab, innerBinding?_mirror hR hab, memberBinding?_mirror hR hab,
      binding?_mirror hR hab, literal?_mirror hR hab, List.findSome?_nil]
  rw [classify, classify, classifyBy, classifyBy, rel_bind_congr (patternOf?_mirror hR h) hfound,
    hR.description h]

end CasePattern

theorem MatchedCase.ofCursor_mirror (h : R c d) : ofCursor c = ofCursor d := by
  have hcondition := rel_bind (hR.child? h .whereClause) fun _ _ h => hR.child? h .expr
  rw [ofCursor, ofCursor, CasePattern.classify_mirror hR h,
    rel_map_congr hcondition fun _ _ h => hR.description h]

theorem SwitchCase.ofCursor_mirror (h : R c d) : ofCursor m c = ofCursor m d := by
  rw [ofCursor, ofCursor, hR.description h, rel_map_congr (hR.child? h .switchCaseLabel)
    fun _ _ hlabel => forall₂_map_congr (hR.childrenOf hlabel m .caseItem)
      fun _ _ h => MatchedCase.ofCursor_mirror hR h]

end SwiftOutline
