/-
  SwiftOutline.Proofs.Outline.ModesAgree

  The two ways to look at a tree differ in `unexpected` nodes alone. Where there
  are none, everything that is read of a declaration, nested declarations
  included, is the same in both.
-/
import SwiftOutline.Proofs.Outline.Search
import SwiftOutline.Proofs.Tree.Recovery

namespace SwiftOutline

variable {m n : ViewMode} {c : Cursor}

/-! ## Attributes and modifiers -/

theorem Attribute.ofCursor_congr (h : c.Clean) : ofCursor m c = ofCursor n c := by
  unfold ofCursor
  cases hlist : c.child? .attributeArguments with
  | none => rfl
  | some list =>
    dsimp only
    rw [(h.of_child? hlist).childrenOf_congr (n := n)]

theorem Attribute.allIn_congr (h : c.Clean) : allIn m c = allIn n c :=
  h.flatMap_childrenOf_congr fun _ hlist => hlist.map_childrenOf_congr fun _ => ofCursor_congr

theorem Modifier.ofCursor?_congr (h : c.Clean) : ofCursor? m c = ofCursor? n c := by
  unfold ofCursor?
  cases hdetail : c.child? .modifierDetail with
  | none => rfl
  | some detail =>
    simp only [Option.bind_eq_bind, Option.bind_some,
      (h.of_child? hdetail).tokensIn_congr (n := n)]

theorem Modifier.allIn_congr (h : c.Clean) : allIn m c = allIn n c := by
  unfold allIn
  cases hlist : c.child? .modifierList with
  | none => rfl
  | some list =>
    exact (h.of_child? hlist).filterMap_childrenOf_congr fun _ => ofCursor?_congr

theorem initialValue?_congr (h : c.Clean) : initialValue? m c = initialValue? n c := by
  unfold initialValue?
  cases hclause : c.child? .initializerClause with
  | none => rfl
  | some clause =>
    simp only [Option.bind_eq_bind, Option.bind_some,
      (h.of_child? hclause).childrenIn_congr (n := n)]

/-! ## Generics -/

theorem GenericParameter.ofCursor?_congr (h : c.Clean) : ofCursor? m c = ofCursor? n c := by
  rw [ofCursor?, ofCursor?, h.typeIn?_congr]

theorem Requirement.ofCursor?_congr (h : c.Clean) : ofCursor? m c = ofCursor? n c := by
  unfold ofCursor?
  rw [h.childrenIn_congr (n := n)]

theorem Generics.parametersOf_congr (h : c.Clean) : parametersOf m c = parametersOf n c := by
  unfold parametersOf
  cases hclause : c.child? .genericParameterClause with
  | none => rfl
  | some clause =>
    exact (h.of_child? hclause).filterMap_childrenOf_congr
      fun _ => GenericParameter.ofCursor?_congr

theorem Generics.requirementsOf_congr (h : c.Clean) :
    requirementsOf m c = requirementsOf n c := by
  refine List.flatMap_congr fun clause hmem => ?_
  have hclause : clause.Clean := by
    rcases List.mem_append.mp hmem with hinner | houter
    · obtain ⟨p, hp, hclause⟩ := Option.bind_eq_some_iff.mp (Option.mem_toList.mp hinner)
      exact (h.of_child? hp).of_child? hclause
    · exact h.of_child? (Option.mem_toList.mp houter)
  rw [hclause.childrenIn_congr (n := n)]
  exact List.filterMap_congr fun e he =>
    Requirement.ofCursor?_congr (hclause.of_mem_childrenIn he)

theorem Generics.ofCursor_congr (h : c.Clean) : ofCursor m c = ofCursor n c := by
  rw [ofCursor, ofCursor, parametersOf_congr h, requirementsOf_congr h]

theorem inheritanceOf_congr (h : c.Clean) : inheritanceOf m c = inheritanceOf n c := by
  unfold inheritanceOf
  cases hclause : c.child? .inheritanceClause with
  | none => rfl
  | some clause =>
    dsimp only
    rw [(h.of_child? hclause).childrenOf_congr (n := n)]

/-! ## Signatures and accessors -/

theorem Parameter.ofCursorWith_congr {τ : Type} {absent : τ} {classify : Cursor → τ}
    {namesNeedColon : Bool} (h : c.Clean) :
    ofCursorWith absent classify namesNeedColon m c =
      ofCursorWith absent classify namesNeedColon n c := by
  have hattributed : ((c.typeIn? n).filter fun t => t.isKind .attributedType).toList.flatMap
      (Attribute.allIn m) =
      ((c.typeIn? n).filter fun t => t.isKind .attributedType).toList.flatMap
        (Attribute.allIn n) := by
    refine List.flatMap_congr fun t ht => Attribute.allIn_congr ?_
    exact h.of_typeIn? (Option.mem_filter_iff.mp (Option.mem_toList.mp ht)).1
  unfold ofCursorWith
  dsimp only
  rw [h.typeIn?_congr (n := n), initialValue?_congr (n := n) h,
    Attribute.allIn_congr (n := n) h, hattributed]

theorem Parameter.ofClause_congr (h : c.Clean) : ofClause m c = ofClause n c :=
  h.map_childrenOf_congr fun _ => ofCursorWith_congr

theorem Signature.ofCursor_congr (h : c.Clean) : ofCursor m c = ofCursor n c := by
  unfold ofCursor
  cases hsignature : c.child? .functionSignature with
  | none => rfl
  | some signature =>
    have hclean := h.of_child? hsignature
    have houtput : (signature.child? .returnClause).bind (Cursor.typeIn? m) =
        (signature.child? .returnClause).bind (Cursor.typeIn? n) := by
      cases hclause : signature.child? .returnClause with
      | none => rfl
      | some clause => exact (hclean.of_child? hclause).typeIn?_congr
    dsimp only
    rw [houtput, hclean.map_child?_congr fun _ => Parameter.ofClause_congr]

theorem Accessor.ofCursor?_congr (h : c.Clean) : ofCursor? m c = ofCursor? n c := by
  unfold ofCursor?
  rw [Modifier.allIn_congr h]

theorem Accessor.ofBlock_congr (h : c.Clean) : ofBlock m c = ofBlock n c := by
  unfold ofBlock
  rw [h.filterMap_childrenOf_congr fun _ => ofCursor?_congr]

theorem Accessor.allIn_congr (h : c.Clean) : allIn m c = allIn n c := by
  rw [allIn, allIn, h.map_child?_congr fun _ => ofBlock_congr]

/-! ## Parts of declarations -/

theorem SwitchCase.ofCursor_congr (h : c.Clean) : ofCursor m c = ofCursor n c := by
  have hlabel : ∀ label : Cursor, label.Clean →
      (label.childrenOf m .caseItem).map MatchedCase.ofCursor =
        (label.childrenOf n .caseItem).map MatchedCase.ofCursor :=
    fun _ hlabel => hlabel.map_childrenOf_congr fun _ _ => rfl
  rw [ofCursor, ofCursor, h.map_child?_congr hlabel]

theorem Header.ofCursor_congr (h : c.Clean) : ofCursor m c = ofCursor n c := by
  rw [ofCursor, ofCursor, Attribute.allIn_congr h, Modifier.allIn_congr h]

theorem Binding.ofCursor_congr {later : List Cursor} (h : c.Clean) :
    ofCursor m c later = ofCursor n c later := by
  rw [ofCursor, ofCursor, initialValue?_congr h, Accessor.allIn_congr h]

theorem Binding.allFrom_congr {cs : List Cursor} (h : ∀ c ∈ cs, c.Clean) :
    allFrom m cs = allFrom n cs := by
  induction cs with
  | nil => rfl
  | cons c later ih =>
    rw [allFrom, allFrom, ofCursor_congr (h c List.mem_cons_self),
      ih fun e he => h e (List.mem_cons_of_mem _ he)]

/-! ## Members -/

theorem visitMembers_congr {member k : NodeKind} (hk : k ≠ .unexpected) :
    visitMembers m member k = visitMembers n member k := by
  simp [visitMembers, ViewMode.shows, hk]

theorem membersOf_congr {member : NodeKind} (h : c.Clean) :
    membersOf m member c = membersOf n member c := by
  have hbelow : ∀ e : Cursor, e.Clean → e.gatherBelow (visitMembers m member) =
      e.gatherBelow (visitMembers n member) :=
    fun _ he => he.gatherBelow_congr fun _ => visitMembers_congr
  rw [membersOf, membersOf, h.map_child?_congr hbelow]

/-- The members of a clean declaration are clean. -/
theorem clean_of_mem_membersOf {member : NodeKind} {x : Cursor} (h : c.Clean)
    (hx : x ∈ membersOf m member c) : x.Clean := by
  unfold membersOf at hx
  cases hblock : c.child? .memberBlock with
  | none =>
    rw [hblock] at hx
    exact absurd hx List.not_mem_nil
  | some block =>
    rw [hblock] at hx
    exact (h.of_child? hblock).of_mem_gatherBelow hx

theorem EnumCase.ofCursor_congr {indirect : Bool} {e : Cursor} (h : c.Clean) (he : e.Clean) :
    ofCursor m indirect c e = ofCursor n indirect c e := by
  have hvalues : ∀ v : Cursor, v.Clean →
      (v.childrenOf m .enumCaseParameter).map (Parameter.ofEnumCase m) =
        (v.childrenOf n .enumCaseParameter).map (Parameter.ofEnumCase n) :=
    fun _ hv => hv.map_childrenOf_congr fun _ => Parameter.ofCursorWith_congr
  unfold ofCursor
  dsimp only
  rw [Modifier.allIn_congr (n := n) h, Attribute.allIn_congr (n := n) h,
    initialValue?_congr (n := n) he, he.map_child?_congr hvalues]

theorem EnumCase.allIn_congr (h : c.Clean) : allIn m c = allIn n c := by
  unfold allIn
  rw [Modifier.allIn_congr h, membersOf_congr h]
  refine List.flatMap_congr fun d hd => ?_
  have hclean := clean_of_mem_membersOf h hd
  exact hclean.map_childrenOf_congr fun _ => ofCursor_congr hclean

theorem AssociatedType.ofCursor_congr (h : c.Clean) : ofCursor m c = ofCursor n c := by
  rw [ofCursor, ofCursor, Header.ofCursor_congr h, inheritanceOf_congr h,
    Generics.requirementsOf_congr h]

theorem AssociatedType.allIn_congr (h : c.Clean) : allIn m c = allIn n c := by
  rw [allIn, allIn, membersOf_congr h]
  exact List.map_congr_left fun x hx => ofCursor_congr (clean_of_mem_membersOf h hx)

theorem NominalForm.ofCursor?_congr (h : c.Clean) : ofCursor? m c = ofCursor? n c := by
  unfold ofCursor?
  rw [EnumCase.allIn_congr h, AssociatedType.allIn_congr h]

/-! ## Imports and switches -/

theorem importPath_congr (h : c.Clean) : importPath m c = importPath n c := by
  unfold importPath
  cases hpath : c.child? .importPath with
  | none => rfl
  | some path =>
    dsimp only
    rw [(h.of_child? hpath).tokensIn_congr (n := n)]

theorem switchCases_congr (h : c.Clean) : switchCases m c = switchCases n c :=
  List.map_congr_left fun _ hx => SwitchCase.ofCursor_congr (h.of_mem_gatherBelow hx)

/-! ## Declarations -/

theorem visitDeclarations_congr {k : NodeKind} (hk : k ≠ .unexpected) :
    visitDeclarations m k = visitDeclarations n k := by
  simp [visitDeclarations, ViewMode.shows, hk]

section Nested

variable {read read' : Cursor → List Declaration}

theorem Outline.belowWith_congr (hread : ∀ x : Cursor, x.Clean → read x = read' x)
    (h : c.Clean) : belowWith read m c = belowWith read' n c := by
  rw [belowWith, belowWith, h.gatherBelow_congr fun _ => visitDeclarations_congr]
  exact ofNodes_congr fun x hx => hread x (h.of_mem_gatherBelow hx)

theorem Outline.insideWith_congr {k : NodeKind}
    (hread : ∀ x : Cursor, x.Clean → read x = read' x) (h : c.Clean) :
    insideWith read m (c.child? k) = insideWith read' n (c.child? k) := by
  rw [insideWith, insideWith, h.map_child?_congr fun _ => belowWith_congr hread]

theorem Details.ofCursor?_congr (hread : ∀ x : Cursor, x.Clean → read x = read' x)
    (h : c.Clean) : ofCursor? read m c = ofCursor? read' n c := by
  have hbranches : (c.childrenOf m .ifConfigClause).map (fun b =>
      Branch.mk ((b.firstSignificant?.map Cursor.text).getD "")
        ((b.child? .ifConfigCondition).map Cursor.description) (Outline.belowWith read m b)) =
      (c.childrenOf n .ifConfigClause).map fun b =>
        .mk ((b.firstSignificant?.map Cursor.text).getD "")
          ((b.child? .ifConfigCondition).map Cursor.description)
          (Outline.belowWith read' n b) :=
    h.map_childrenOf_congr fun b hb => by rw [Outline.belowWith_congr hread hb]
  unfold ofCursor?
  simp only [NominalForm.ofCursor?_congr (n := n) h, Generics.ofCursor_congr (n := n) h,
    inheritanceOf_congr (n := n) h, Signature.ofCursor_congr (n := n) h,
    Accessor.allIn_congr (n := n) h, importPath_congr (n := n) h,
    Modifier.allIn_congr (n := n) h, switchCases_congr (n := n) h,
    Outline.belowWith_congr (n := n) hread h, Outline.insideWith_congr (n := n) hread h,
    hbranches]

end Nested

namespace Declaration

theorem variablesOf_congr (h : c.Clean) : variablesOf m c = variablesOf n c := by
  unfold variablesOf
  cases hlist : c.child? .patternBindingList with
  | none => rfl
  | some list =>
    have hclean := h.of_child? hlist
    have hbindings : Binding.allFrom m (list.childrenOf m .patternBinding) =
        Binding.allFrom n (list.childrenOf n .patternBinding) := by
      rw [hclean.childrenOf_congr (n := n)]
      exact Binding.allFrom_congr fun _ he => hclean.of_mem_childrenOf he
    dsimp only
    rw [hbindings, Header.ofCursor_congr h]

theorem readWithin_congr {levels : Nat} (h : c.Clean) :
    readWithin m levels c = readWithin n levels c := by
  induction levels generalizing c with
  | zero => rfl
  | succ levels ih =>
    rw [readWithin, readWithin, readWith, readWith, variablesOf_congr h,
      Details.ofCursor?_congr (fun _ hx => ih hx) h, Header.ofCursor_congr h]

theorem read_congr (h : c.Clean) : read m c = read n c :=
  readWithin_congr h

end Declaration

theorem Outline.ofCursor_congr (h : c.Clean) : ofCursor m c = ofCursor n c := by
  rw [ofCursor, ofCursor, h.gather_congr fun _ => visitDeclarations_congr]
  exact ofNodes_congr fun x hx =>
    Declaration.read_congr (h.of_mem_nodes (Cursor.mem_nodes_of_mem_gather hx))

/-! ## Texts without problems -/

/-- The outline of a text in which no problem was found does not depend on how its tree is looked
    at: the same declarations are listed, and all that is read of them is the same, down to the
    last declaration nested in them. -/
theorem outline_eq_of_ok {source : String} (h : (parse source).ok = true) :
    Outline.ofSource .sourceAccurate source = Outline.ofSource .fixedUp source :=
  Outline.ofCursor_congr (Cursor.clean_parse h)

theorem outline_eq_of_ok_struct :
    (parse "struct S { let a = 1 }").ok = true ∧
      Outline.ofSource .sourceAccurate "struct S { let a = 1 }" =
        Outline.ofSource .fixedUp "struct S { let a = 1 }" :=
  have hok : (parse "struct S { let a = 1 }").ok = true := by decide +kernel
  ⟨hok, outline_eq_of_ok hok⟩

end SwiftOutline
