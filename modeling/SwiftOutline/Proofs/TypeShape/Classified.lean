/-
  SwiftOutline.Proofs.TypeShape.Classified

  The tree of a shape that is written has this shape again, and so has the type
  of a constant whose declaration is written with it.
-/
import SwiftOutline.Proofs.Outline.Effects
import SwiftOutline.Proofs.Token.Literal
import SwiftOutline.Proofs.TypeShape.Apart
import SwiftOutline.Proofs.TypeShape.Parsed

namespace SwiftOutline

open SwiftOutline.Tree

/-! ## Plain texts -/

namespace IsPlainName

variable {n : String}

theorem forall_isBlank (h : IsPlainName n) : ∀ c ∈ n.toList, Text.isBlank c = false :=
  fun c hc => Text.isBlank_of_isWordChar (List.all_eq_true.mp h.ascii c hc)

/-- No name of a module stands in front of a plain name. -/
theorem unqualified_eq (h : IsPlainName n) : TypeShape.unqualified n = n := by
  rw [TypeShape.unqualified, if_neg]
  intro hprefix
  have hdot : '.' ∈ n.toList := (List.isPrefixOf_iff_prefix.mp hprefix).subset (by decide)
  exact absurd (List.all_eq_true.mp h.ascii _ hdot) (by decide)

end IsPlainName

namespace TypeShape

variable {c d : Cursor} {n : Nat} {s t : TypeShape} {u v : Tree} {ts : List Tree} {o : Bool}

/-! ## What is written of changes -/

theorem erased_optional (t : TypeShape) : t.optional.erased = t.erased.optional := by
  cases t <;> simp [optional, erased]

theorem erased_withOptional (t : TypeShape) (b : Bool) :
    (t.withOptional b).erased = t.erased.withOptional b := by
  cases b with
  | false => rfl
  | true => exact erased_optional t

/-! ## Trees and their shapes -/

/-- Where it stands apart, a tree is a type of the shape `s`. -/
structure ClassifiesTo (u : Tree) (s : TypeShape) : Prop where
  isType : u.nodeKind?.any NodeKind.isType = true
  erased_eq : ∀ n (c : Cursor), c.tree = u → c.tree.height ≤ n → Apart c →
    (classifyWithin n c).erased = s

/-- Wherever it stands, a tree is a type of the shape `s`, which a mark behind it may make
    optional. -/
structure ClassifiesUpToMark (u : Tree) (s : TypeShape) : Prop where
  isType : u.nodeKind?.any NodeKind.isType = true
  exists_erased_eq : ∀ n (c : Cursor), c.tree = u → c.tree.height ≤ n →
    ∃ b, (classifyWithin n c).erased = s.withOptional b ∧ (b = true → isMarkedOptional c = true)

/-- The shape inside a type is the one of the first child that is a type. -/
theorem exists_inner_eq {k : NodeKind} {front back : List Tree}
    (htree : c.tree = .node k (front ++ u :: back))
    (hfront : ∀ v ∈ front, v.nodeKind?.any NodeKind.isType = false)
    (hu : u.nodeKind?.any NodeKind.isType = true) (classify : Cursor → TypeShape) :
    ∃ e ∈ c.elements, inner classify c = classify e ∧ e.tree = u ∧
      e.behind = forestLeaves back ++ c.behind := by
  obtain ⟨e, he, hfind, heu, hbehind⟩ := Cursor.exists_find?_elements htree hfront hu
  refine ⟨e, he, ?_, heu, hbehind⟩
  rw [inner, Cursor.typeChild?]
  exact congrArg (fun o => (o.map classify).getD empty) hfind

namespace ClassifiesUpToMark

/-- A mark around a type makes it optional, whether it is also found behind the type or not. -/
theorem marked (h : ClassifiesUpToMark u s) :
    ClassifiesTo (markedTree o u) (s.withOptional o) := by
  cases o with
  | false =>
    refine ⟨h.isType, fun n c htree hn hc => ?_⟩
    obtain ⟨b, hshape, hb⟩ := h.exists_erased_eq n c htree hn
    have hmark : isMarkedOptional c = false := isMarkedOptional_eq_false hc.behind
    cases b with
    | false => exact hshape
    | true => exact absurd (hb rfl) (by simp [hmark])
  | true =>
    refine ⟨rfl, fun n c htree hn _ => ?_⟩
    obtain ⟨m, rfl, hlevels⟩ := exists_levels htree hn
    have hchildren : c.tree = .node .optionalType ([] ++ u :: [.leaf ⟨.question, "?"⟩]) := htree
    obtain ⟨e, he, hinner, heu, -⟩ :=
      exists_inner_eq hchildren (by simp) h.isType (classifyWithin m)
    have hshape : classifyWithin (m + 1) c = (inner (classifyWithin m) c).optional := by
      rw [classifyWithin, classifyWith, htree]
      rfl
    obtain ⟨b, hb, -⟩ := h.exists_erased_eq m e heu (hlevels e he)
    rw [hshape, hinner, erased_optional, hb]
    cases b with
    | false => rfl
    | true => exact optional_optional s

/-! ### Names -/

theorem genericForm?_namedTree {name : String} (htree : c.tree = namedTree name) :
    genericForm? "" none c.elements = some (name, []) := by
  obtain ⟨tree, start, above⟩ := c
  obtain rfl : tree = _ := htree
  simp [namedTree, wordTree, Cursor.elements, Cursor.childrenFrom, genericForm?, Token.isTrivia,
    TokenKind.isTrivia]

/-- A plain name that stands for no other shape. -/
theorem named {name : String} (hname : IsPlainName name) (hvoid : name ≠ "Void")
    (hresult : name ≠ "Result") : ClassifiesUpToMark (namedTree name) (simple name false) := by
  refine ⟨rfl, fun n c htree hn => ⟨isMarkedOptional c, ?_, id⟩⟩
  obtain ⟨m, rfl, -⟩ := exists_levels htree hn
  have hshape : classifyWithin (m + 1) c = ofNamed (classifyWithin m) c := by
    rw [classifyWithin, classifyWith, htree]
    rfl
  have hdescription : c.description = name := by
    rw [Cursor.description, Cursor.text, htree]
    simpa [namedTree, wordTree, Tree.text, leaves, forestLeaves] using
      Text.trim_eq_self hname.forall_isBlank
  rw [hshape, ofNamed, genericForm?_namedTree htree, Option.getD_some, erased_withOptional,
    hname.unqualified_eq, hdescription, List.map_nil]
  split <;> simp_all [erased]

/-- `Void`. -/
theorem void : ClassifiesUpToMark (namedTree "Void") (.void false) := by
  refine ⟨rfl, fun n c htree hn => ⟨isMarkedOptional c, ?_, id⟩⟩
  obtain ⟨m, rfl, -⟩ := exists_levels htree hn
  have hshape : classifyWithin (m + 1) c = ofNamed (classifyWithin m) c := by
    rw [classifyWithin, classifyWith, htree]
    rfl
  rw [hshape, ofNamed, genericForm?_namedTree htree, Option.getD_some, erased_withOptional]
  rfl

theorem typeChild?_genericArgument (hu : u.nodeKind?.any NodeKind.isType = true) (start : Nat)
    (above : List Frame) :
    Cursor.typeChild? ⟨.node .genericArgument [u], start, above⟩ =
      some ⟨u, start, ⟨.genericArgument, start, [], []⟩ :: above⟩ := by
  simp [Cursor.typeChild?, Cursor.elements, Cursor.childrenFrom, Cursor.isType, hu]

/-- A type that is a generic argument in front of a comma or `>`. -/
def IsArgument (u : Tree) (d : Cursor) : Prop :=
  ∃ start f above, d = ⟨u, start, ⟨.genericArgument, start, [], []⟩ :: f :: above⟩ ∧
    ∃ v after, f.after = .leaf v :: after ∧ (v.kind = .comma ∨ v.kind = .gt)

theorem IsArgument.tree_eq (h : IsArgument u d) : d.tree = u := by
  obtain ⟨start, f, above, rfl, -⟩ := h
  rfl

theorem IsArgument.apart (h : IsArgument u d) : Apart d := by
  obtain ⟨start, f, above, rfl, v, after, hafter, hk⟩ := h
  refine ⟨wrapping_cons (k := .genericArgument) rfl (by decide) _, ?_⟩
  rw [Cursor.behind, Cursor.tokensBehind, Cursor.tokensBehind, hafter]
  refine .of_kind ?_ _
  rcases hk with hk | hk <;> simp [hk]

/-- A name with one generic argument. -/
theorem exists_genericForm?_genericTree {name : String} (htree : c.tree = genericTree name u)
    (hu : u.nodeKind?.any NodeKind.isType = true) :
    ∃ d, genericForm? "" none c.elements = some (name, [d]) ∧ IsArgument u d := by
  obtain ⟨tree, start, above⟩ := c
  obtain rfl : tree = _ := htree
  simp [genericTree, wordTree, Cursor.elements, Cursor.children, Cursor.childrenFrom, genericForm?,
    Token.isTrivia, TokenKind.isTrivia, Cursor.isKind, nodeKind?, typeChild?_genericArgument hu,
    IsArgument]

/-- A name with two generic arguments. -/
theorem exists_genericForm?_genericPairTree {name : String}
    (htree : c.tree = genericPairTree name u v) (hu : u.nodeKind?.any NodeKind.isType = true)
    (hv : v.nodeKind?.any NodeKind.isType = true) :
    ∃ d e, genericForm? "" none c.elements = some (name, [d, e]) ∧ IsArgument u d ∧
      IsArgument v e := by
  obtain ⟨tree, start, above⟩ := c
  obtain rfl : tree = _ := htree
  simp [genericPairTree, wordTree, blankTree, Cursor.elements, Cursor.children,
    Cursor.childrenFrom, genericForm?, Token.isTrivia, TokenKind.isTrivia, Cursor.isKind,
    nodeKind?, typeChild?_genericArgument hu, typeChild?_genericArgument hv, IsArgument]

/-- A name with one generic argument has the shape that the name stands for. -/
theorem generic {name : String} (shape : TypeShape → TypeShape) (h : ClassifiesTo u s)
    (hname : ∀ (classify : Cursor → TypeShape) (c d : Cursor),
      genericForm? "" none c.elements = some (name, [d]) →
        ofNamed classify c = (shape (classify d)).withOptional (isMarkedOptional c))
    (hshape : ∀ t : TypeShape, (shape t).erased = shape t.erased) :
    ClassifiesUpToMark (genericTree name u) (shape s) := by
  refine ⟨rfl, fun n c htree hn => ⟨isMarkedOptional c, ?_, id⟩⟩
  have hheight : u.height + 3 = c.tree.height := by
    simp [htree, genericTree, wordTree, height, forestHeight]
  obtain ⟨m, rfl, -⟩ := exists_levels htree hn
  obtain ⟨d, hform, hd⟩ := exists_genericForm?_genericTree htree h.isType
  have hnamed : classifyWithin (m + 1) c = ofNamed (classifyWithin m) c := by
    rw [classifyWithin, classifyWith, htree]
    rfl
  rw [hnamed, hname _ c d hform, erased_withOptional, hshape,
    h.erased_eq m d hd.tree_eq (by rw [hd.tree_eq]; omega) hd.apart]

/-- A name with two generic arguments has the shape that the name stands for. -/
theorem genericPair {name : String} (shape : TypeShape → TypeShape → TypeShape)
    (h : ClassifiesTo u s) (h' : ClassifiesTo v t)
    (hname : ∀ (classify : Cursor → TypeShape) (c d e : Cursor),
      genericForm? "" none c.elements = some (name, [d, e]) →
        ofNamed classify c = (shape (classify d) (classify e)).withOptional (isMarkedOptional c))
    (hshape : ∀ t t' : TypeShape, (shape t t').erased = shape t.erased t'.erased) :
    ClassifiesUpToMark (genericPairTree name u v) (shape s t) := by
  refine ⟨rfl, fun n c htree hn => ⟨isMarkedOptional c, ?_, id⟩⟩
  have hheight : max u.height v.height + 3 = c.tree.height := by
    simp [htree, genericPairTree, wordTree, blankTree, height, forestHeight]
  obtain ⟨m, rfl, -⟩ := exists_levels htree hn
  obtain ⟨d, e, hform, hd, he⟩ := exists_genericForm?_genericPairTree htree h.isType h'.isType
  have hnamed : classifyWithin (m + 1) c = ofNamed (classifyWithin m) c := by
    rw [classifyWithin, classifyWith, htree]
    rfl
  rw [hnamed, hname _ c d e hform, erased_withOptional, hshape,
    h.erased_eq m d hd.tree_eq (by rw [hd.tree_eq]; omega) hd.apart,
    h'.erased_eq m e he.tree_eq (by rw [he.tree_eq]; omega) he.apart]

/-- `Array<T>`. -/
theorem genericArray (h : ClassifiesTo u s) :
    ClassifiesUpToMark (genericTree "Array" u) (array s .generic false) :=
  generic (fun t => array t .generic false) h
    (fun classify c d hform => by rw [ofNamed, hform]; rfl) fun t => by simp [erased]

/-- `Set<T>`. -/
theorem genericSet (h : ClassifiesTo u s) :
    ClassifiesUpToMark (genericTree "Set" u) (set s .generic false) :=
  generic (fun t => set t .generic false) h
    (fun classify c d hform => by rw [ofNamed, hform]; rfl) fun t => by simp [erased]

/-- `Dictionary<K, V>`. -/
theorem genericDictionary (h : ClassifiesTo u s) (h' : ClassifiesTo v t) :
    ClassifiesUpToMark (genericPairTree "Dictionary" u v) (dictionary s t .generic false) :=
  genericPair (fun k v => dictionary k v .generic false) h h'
    (fun classify c d e hform => by rw [ofNamed, hform]; rfl) fun t t' => by simp [erased]

/-- `Result<S, F>`. -/
theorem genericResult (h : ClassifiesTo u s) (h' : ClassifiesTo v t) :
    ClassifiesUpToMark (genericPairTree "Result" u v) (result s t false) :=
  genericPair (fun s f => result s f false) h h'
    (fun classify c d e hform => by rw [ofNamed, hform]; rfl) fun t t' => by simp [erased]

/-! ### Brackets -/

/-- A type in front of a bracket, colon or comma among the parts of a node that wraps no types. -/
theorem apart_of_mem {k : NodeKind} {v : Token} {front back : List Tree} {e : Cursor}
    (htree : c.tree = .node k (front ++ u :: .leaf v :: back)) (he : e ∈ c.elements)
    (hbehind : e.behind = forestLeaves (.leaf v :: back) ++ c.behind)
    (hk : k ∉ [.optionalType, .implicitlyUnwrappedOptionalType, .attributedType,
      .tupleTypeElement, .tupleType])
    (hv : v.kind ∈ [.comma, .colon, .ellipsis, .gt, .rBracket, .rParen]) : Apart e := by
  refine .of_mem he (k := k) (by rw [htree]; rfl) hk ?_
  rw [hbehind]
  exact .of_kind hv _

/-- `[T]`. -/
theorem bracketArray (h : ClassifiesTo u s) :
    ClassifiesUpToMark (arrayTree u) (array s .bracket false) := by
  refine ⟨rfl, fun n c htree hn => ⟨isMarkedOptional c, ?_, id⟩⟩
  obtain ⟨m, rfl, hlevels⟩ := exists_levels htree hn
  have hchildren : c.tree =
      .node .arrayType ([Tree.leaf ⟨.lBracket, "["⟩] ++ u :: [.leaf ⟨.rBracket, "]"⟩]) := htree
  obtain ⟨e, he, hinner, heu, hbehind⟩ :=
    exists_inner_eq hchildren (by simp [nodeKind?]) h.isType (classifyWithin m)
  have hshape : classifyWithin (m + 1) c =
      (array (inner (classifyWithin m) c) .bracket false).withOptional (isMarkedOptional c) := by
    rw [classifyWithin, classifyWith, htree]
    rfl
  have hapart := apart_of_mem hchildren he hbehind (by decide) (by decide)
  rw [hshape, erased_withOptional, erased, hinner, h.erased_eq m e heu (hlevels e he) hapart]

/-- `[K: V]`. -/
theorem bracketDictionary (h : ClassifiesTo u s) (h' : ClassifiesTo v t) :
    ClassifiesUpToMark (dictionaryTree u v) (dictionary s t .bracket false) := by
  refine ⟨rfl, fun n c htree hn => ⟨isMarkedOptional c, ?_, id⟩⟩
  obtain ⟨m, rfl, hlevels⟩ := exists_levels htree hn
  have hpicked := Cursor.map_filter_elements htree fun t => t.nodeKind?.any NodeKind.isType
  have hleaf : ∀ t : Token, ((leaf t).nodeKind?.any NodeKind.isType) = false := fun _ => rfl
  simp only [Cursor.picked, hleaf, h.isType, h'.isType, blankTree, Bool.false_eq_true, if_false,
    if_true] at hpicked
  obtain ⟨d, ds, htypes, hd, hpicked⟩ := List.map_eq_cons_iff.mp hpicked
  obtain ⟨e, es, rfl, he, hpicked⟩ := List.map_eq_cons_iff.mp hpicked
  obtain rfl := List.map_eq_nil_iff.mp hpicked
  obtain ⟨hdu, hdbehind⟩ := Prod.mk.inj hd
  obtain ⟨hev, hebehind⟩ := Prod.mk.inj he
  have hmem : ∀ x ∈ [d, e], x ∈ c.elements := fun x hx =>
    (List.mem_filter.mp (htypes ▸ hx)).1
  have hdmem := hmem d (by simp)
  have hemem := hmem e (by simp)
  have hapart : ∀ x ∈ c.elements, Sealed x.behind → Apart x := fun x hx =>
    .of_mem hx (k := .dictionaryType) (by rw [htree]; rfl) (by decide)
  have hshape : classifyWithin (m + 1) c =
      (dictionary (classifyWithin m d) (classifyWithin m e) .bracket false).withOptional
        (isMarkedOptional c) := by
    have htypes' : c.children.filter Cursor.isType = [d, e] :=
      c.filter_isType_children.trans htypes
    rw [classifyWithin, classifyWith, htree]
    show (dictionary (((c.children.filter Cursor.isType).map _).head?.getD _) _ _ _).withOptional _
      = _
    rw [htypes']
    rfl
  rw [hshape, erased_withOptional, erased,
    h.erased_eq m d hdu (hlevels d hdmem) (hapart d hdmem (hdbehind ▸ .of_kind (by decide) _)),
    h'.erased_eq m e hev (hlevels e hemem) (hapart e hemem (hebehind ▸ .of_kind (by decide) _))]

end ClassifiesUpToMark

/-! ### Elements of tuples and parameters of functions -/

/-- The elements between parentheses are those that are written, each in front of a comma or the
    closing parenthesis. -/
theorem picked_elementTrees (behind : List Token) (ps : List (Parameter TypeShape)) :
    List.Forall₂ (fun p x => x.1 = elementTree p.label p.type.tree p.isVariadic ∧ Sealed x.2) ps
      (Cursor.picked (fun t => t.nodeKind? == some .tupleTypeElement) behind
        (elementTrees ps ++ [Tree.leaf ⟨.rParen, ")"⟩])) := by
  induction ps with
  | nil => exact .nil
  | cons p ps ih =>
    cases ps with
    | nil =>
      rw [elementTrees]
      exact .cons ⟨rfl, .of_kind (by decide) _⟩ .nil
    | cons q ps =>
      rw [elementTrees]
      exact .cons ⟨rfl, .of_kind (by decide) _⟩ ih

/-- The elements of a tuple type that is written. -/
theorem tupleElements_tupleTree {ps : List (Parameter TypeShape)}
    (htree : c.tree = tupleTree (elementTrees ps)) :
    List.Forall₂ (fun p e => e.tree = elementTree p.label p.type.tree p.isVariadic ∧
      Sealed e.behind) ps (tupleElements c) := by
  have helements := picked_elementTrees c.behind ps
  have hpicked := Cursor.map_filter_elements htree fun t => t.nodeKind? == some .tupleTypeElement
  rw [Cursor.picked, if_neg (by simp [nodeKind?]), ← tupleElements_eq] at hpicked
  rwa [← hpicked, List.forall₂_map_right_iff] at helements

theorem ne_underscore_of_isLabel {l : String} (h : IsLabel l) : l ≠ "_" := by
  rintro rfl
  have hlex : lex "_" = [⟨.underscore, "_"⟩] := Lexer.lex_word rfl rfl nofun
  obtain ⟨k, hk, -, hne⟩ := h
  rw [hlex] at hk
  exact hne (Token.mk.inj (List.cons.inj hk).1).1.symm

/-- The names in front of a type are its label, if it has one, and a colon follows. -/
theorem namesOf_elementTree {label : Option String} (hlabel : ∀ l ∈ label, IsLabel l)
    (hu : u.nodeKind?.any NodeKind.isType = true) (ts : List Tree) :
    Parameter.namesOf (labelTrees label ++ u :: ts) = (label.toList, label.isSome) := by
  obtain ⟨k', children, rfl, hk'⟩ : ∃ k children, u = .node k children ∧ k.isType = true := by
    cases u with
    | leaf t => exact absurd hu (by simp [nodeKind?])
    | node k children => exact ⟨k, children, rfl, by simpa [nodeKind?] using hu⟩
  cases label with
  | none => simp [labelTrees, Parameter.namesOf, hk']
  | some l =>
    obtain ⟨k, hlex, hk, -⟩ := hlabel l rfl
    have hname : k ≠ .colon ∧ k.isTrivia = false ∧ k ≠ .ellipsis := by
      refine ⟨?_, k.isTrivia_of_isArgumentLabel hk, ?_⟩ <;> rintro rfl <;> exact absurd hk (by decide)
    simp [labelTrees, hlex, Parameter.namesOf, hname, Token.isTrivia]

/-- No dots are in front of a type. -/
theorem any_isToken_labelTrees {label : Option String} (hlabel : ∀ l ∈ label, IsLabel l) :
    ((labelTrees label).any fun t => (Cursor.ofTree t).isToken .ellipsis) = false := by
  cases label with
  | none => rfl
  | some l =>
    obtain ⟨k, hlex, hk, -⟩ := hlabel l rfl
    have hdots : k ≠ .ellipsis := by
      rintro rfl
      exact absurd hk (by decide)
    simp [labelTrees, hlex, blankTree, Cursor.isToken, Cursor.token?, Cursor.ofTree, hdots]

/-- An element is a parameter with the label, type and dots that are written. -/
theorem ofElement_elementTree {label : Option String} {variadic : Bool} (h : ClassifiesTo u s)
    (hlabel : ∀ l ∈ label, IsLabel l) (htree : c.tree = elementTree label u variadic)
    (hn : c.tree.height ≤ n) (hbehind : Sealed c.behind)
    (haround : wrapping c.ancestors = (false, false)) :
    (ofElement (classifyWithin n) c).label = label ∧
      (ofElement (classifyWithin n) c).type.erased = s ∧
      (ofElement (classifyWithin n) c).isVariadic = variadic := by
  have hfront : ∀ v ∈ labelTrees label, v.nodeKind?.any NodeKind.isType = false := by
    cases label with
    | none => simp [labelTrees]
    | some l =>
      obtain ⟨k, hlex, -⟩ := hlabel l rfl
      simp [labelTrees, hlex, blankTree, nodeKind?]
  obtain ⟨e, he, hfind, heu, hebehind⟩ := Cursor.exists_find?_elements htree hfront h.isType
  have htype : c.typeIn? .sourceAccurate = some e := (c.typeIn?_eq _).trans hfind
  have hapart : Apart e := by
    refine ⟨?_, ?_⟩
    · rw [Cursor.ancestors_of_mem_elements he, Cursor.path, wrapping, htree]
      exact haround
    · rw [hebehind]
      cases variadic with
      | false => exact hbehind
      | true => exact .of_kind (by decide) _
  have hheight : e.tree.height ≤ n := by
    have := height_lt_of_mem_children (Cursor.tree_mem_children he)
    omega
  have hnames : Parameter.namesOf c.tree.children = (label.toList, label.isSome) := by
    rw [htree]
    exact namesOf_elementTree hlabel h.isType _
  refine ⟨?_, ?_, ?_⟩
  · rw [ofElement, Parameter.ofCursorWith, hnames]
    cases label with
    | none => rfl
    | some l => simp [Parameter.named, ne_underscore_of_isLabel (hlabel l rfl)]
  · rw [ofElement, Parameter.ofCursorWith, hnames, htype]
    exact h.erased_eq n e heu hheight hapart
  · show c.hasToken .ellipsis = variadic
    rw [Cursor.hasToken_eq, htree, elementTree, children, List.any_append, List.any_cons,
      any_isToken_labelTrees hlabel, isToken_of_isType h.isType]
    cases variadic <;> rfl

/-- Elements are the parameters that are written. -/
theorem erasedAll_map_ofElement {ps : List (Parameter TypeShape)} {es : List Cursor}
    (hlabels : ∀ p ∈ ps, ∀ l ∈ p.label, IsLabel l)
    (htypes : ∀ p ∈ ps, ClassifiesTo p.type.tree p.type.erased)
    (helements : List.Forall₂ (fun p e => e.tree = elementTree p.label p.type.tree p.isVariadic ∧
      Sealed e.behind) ps es)
    (hes : ∀ e ∈ es, e.tree.height ≤ n ∧ wrapping e.ancestors = (false, false)) :
    erasedAll (es.map (ofElement (classifyWithin n))) = erasedAll ps := by
  induction helements with
  | nil => rfl
  | @cons p e ps es hhead _ ih =>
    obtain ⟨hlabel, hlabels⟩ := List.forall_mem_cons.mp hlabels
    obtain ⟨htype, htypes⟩ := List.forall_mem_cons.mp htypes
    obtain ⟨⟨hn, haround⟩, hes⟩ := List.forall_mem_cons.mp hes
    obtain ⟨hl, ht, hv⟩ := ofElement_elementTree htype hlabel hhead.1 hn hhead.2 haround
    rw [List.map_cons, erasedAll, erasedAll, ih hlabels htypes hes, hl, ht, hv]

/-- A tuple of several elements. -/
theorem ClassifiesUpToMark.tuple {ps : List (Parameter TypeShape)} (hseveral : 2 ≤ ps.length)
    (hlabels : ∀ p ∈ ps, ∀ l ∈ p.label, IsLabel l)
    (htypes : ∀ p ∈ ps, ClassifiesTo p.type.tree p.type.erased) :
    ClassifiesUpToMark (tupleTree (elementTrees ps)) (tuple (erasedAll ps) false) := by
  refine ⟨rfl, fun n c htree hn => ⟨false, ?_, (absurd · Bool.false_ne_true)⟩⟩
  obtain ⟨m, rfl, hlevels⟩ := exists_levels htree hn
  have helements := tupleElements_tupleTree htree
  obtain ⟨e, e', es, hes⟩ : ∃ e e' es, tupleElements c = e :: e' :: es := by
    have hlength := helements.length_eq
    match htuple : tupleElements c, hlength with
    | [], h => exact absurd hseveral (by simp [h])
    | [_], h => exact absurd hseveral (by simp [h])
    | e :: e' :: es, _ => exact ⟨e, e', es, rfl⟩
  have hshape : classifyWithin (m + 1) c =
      .tuple ((tupleElements c).map (ofElement (classifyWithin m))) false := by
    rw [classifyWithin, classifyWith, htree]
    show ofTuple _ c = _
    rw [ofTuple, hes]
  rw [hshape, erased, erasedAll_map_ofElement hlabels htypes helements]
  · rfl
  · intro d hd
    have hmem := mem_elements_of_mem_tupleElements hd
    refine ⟨hlevels d hmem, ?_⟩
    rw [Cursor.ancestors_of_mem_elements hmem, Cursor.path, wrapping, htree]
    show (if (tupleElements c).length == 1 then _ else _) = _
    rw [hes]
    rfl

/-! ### Functions -/

/-- Where it stands in front of no mark, a tree is a type whose shape depends on what the nodes
    around it make of a function type: whether it is optional, and whether it is escaping. -/
structure ClassifiesByWrapping (u : Tree) (shape : Bool → Bool → TypeShape) : Prop where
  isType : u.nodeKind?.any NodeKind.isType = true
  erased_eq : ∀ n (c : Cursor), c.tree = u → c.tree.height ≤ n → Sealed c.behind →
    (classifyWithin n c).erased = shape (wrapping c.ancestors).1 (wrapping c.ancestors).2

namespace ClassifiesByWrapping

variable {shape : Bool → Bool → TypeShape}

theorem classifiesTo (h : ClassifiesByWrapping u shape) : ClassifiesTo u (shape false false) := by
  refine ⟨h.isType, fun n c htree hn hc => ?_⟩
  rw [h.erased_eq n c htree hn hc.behind, hc.around]

/-- `@escaping` in front of a type. -/
theorem escaping (h : ClassifiesByWrapping u shape) (esc : Bool) :
    ClassifiesByWrapping (escapingTree esc u) fun o e => shape o (e || esc) := by
  cases esc with
  | false =>
    refine ⟨h.isType, fun n c htree hn hbehind => ?_⟩
    rw [Bool.or_false]
    exact h.erased_eq n c htree hn hbehind
  | true =>
    refine ⟨rfl, fun n c htree hn hbehind => ?_⟩
    obtain ⟨m, rfl, hlevels⟩ := exists_levels htree hn
    have hchildren : c.tree = .node .attributedType ([.node .attributeList
      [.node .attributeUse [.leaf ⟨.atSign, "@"⟩, wordTree "escaping"]], blankTree] ++ u :: []) :=
      htree
    obtain ⟨e, he, hinner, heu, hebehind⟩ :=
      exists_inner_eq hchildren (by simp [blankTree, nodeKind?]; decide) h.isType (classifyWithin m)
    have hshape : classifyWithin (m + 1) c = inner (classifyWithin m) c := by
      rw [classifyWithin, classifyWith, htree]
      rfl
    have hattribute : ((Attribute.allIn .sourceAccurate c).any fun x => x.name == "escaping") =
        true := by
      obtain ⟨list, hlist, hlistu⟩ := Cursor.exists_head_elements htree
      obtain ⟨use, huse, huseu⟩ := Cursor.exists_head_elements hlistu
      refine List.any_eq_true.mpr ⟨_, Attribute.mem_allIn hlist huse hlistu huseu, ?_⟩
      rw [Attribute.ofCursor, Cursor.significantTokens_eq, huseu]
      rfl
    rw [hshape, hinner, h.erased_eq m e heu (hlevels e he) (hebehind ▸ hbehind),
      Cursor.ancestors_of_mem_elements he, Cursor.path, wrapping, htree]
    show shape (wrapping c.ancestors).1 ((wrapping c.ancestors).2 || _) = _
    rw [hattribute]

/-- Parentheses around a single type. -/
theorem tupleElements_single (htree : c.tree = tupleTree [elementTree none u false]) :
    ∃ d ∈ c.elements, tupleElements c = [d] ∧ d.tree = elementTree none u false ∧
      Sealed d.behind := by
  have hpicked := Cursor.map_filter_elements htree fun t => t.nodeKind? == some .tupleTypeElement
  rw [← tupleElements_eq] at hpicked
  have hsingle : (tupleElements c).map (fun e => (e.tree, e.behind)) =
      [(elementTree none u false, ⟨.rParen, ")"⟩ :: c.behind)] := hpicked
  obtain ⟨d, hd, hde⟩ := List.map_eq_singleton_iff.mp hsingle
  obtain ⟨hdtree, hdbehind⟩ := Prod.mk.inj hde
  refine ⟨d, mem_elements_of_mem_tupleElements (by rw [hd]; exact List.mem_singleton_self d), hd,
    hdtree, ?_⟩
  rw [hdbehind]
  exact .of_kind (by decide) _

/-- Parentheses around a type with a mark behind them. -/
theorem closure (h : ClassifiesByWrapping u shape)
    (hshape : ∀ e, (shape true e).optional = shape true e) (o : Bool) :
    ClassifiesByWrapping (closureTree o u) fun o' e => shape (o' || o) e := by
  cases o with
  | false =>
    refine ⟨h.isType, fun n c htree hn hbehind => ?_⟩
    rw [Bool.or_false]
    exact h.erased_eq n c htree hn hbehind
  | true =>
    refine ⟨rfl, fun n c htree hn _ => ?_⟩
    obtain ⟨m, rfl, hlevels⟩ := exists_levels htree hn
    have hmarked : c.tree = .node .optionalType
      ([] ++ tupleTree [elementTree none u false] :: [.leaf ⟨.question, "?"⟩]) := htree
    obtain ⟨e, he, hinner, heu, -⟩ := exists_inner_eq hmarked (by simp) rfl (classifyWithin m)
    obtain ⟨m, rfl, hlevels'⟩ := exists_levels (c := e) (n := m) heu (hlevels e he)
    obtain ⟨d, hd, helements, hdu, hdbehind⟩ := tupleElements_single heu
    have helement : d.tree = .node .tupleTypeElement ([] ++ u :: []) := hdu
    obtain ⟨x, hx, hinner', hxu, hxbehind⟩ :=
      exists_inner_eq helement (by simp) h.isType (classifyWithin m)
    have hdots : d.hasToken .ellipsis = false := by
      rw [Cursor.hasToken_eq, helement]
      simp [Tree.children, isToken_of_isType h.isType]
    have htuple : classifyWithin (m + 1) e = classifyWithin m x := by
      rw [classifyWithin, classifyWith, heu]
      show ofTuple _ e = _
      rw [ofTuple, helements]
      simp [hdots, hinner']
    have hmark : classifyWithin (m + 1 + 1) c = (classifyWithin m x).optional := by
      rw [classifyWithin, classifyWith, htree, ← htuple, ← hinner]
      rfl
    have hheight : x.tree.height ≤ m := by
      have hlt := height_lt_of_mem_children (Cursor.tree_mem_children hx)
      have hle := hlevels' d hd
      omega
    have haround : wrapping x.ancestors = (true, (wrapping c.ancestors).2) := by
      rw [Cursor.ancestors_of_mem_elements hx, Cursor.path, wrapping, hdu,
        Cursor.ancestors_of_mem_elements hd, Cursor.path, Cursor.ancestors_of_mem_elements he]
      show wrapping (e :: c.path) = _
      rw [wrapping, heu]
      show (if (tupleElements e).length == 1 then _ else _) = _
      rw [helements]
      show wrapping c.path = _
      rw [Cursor.path, wrapping, htree]
      rfl
    rw [hmark, erased_optional, h.erased_eq m x hxu hheight (hxbehind ▸ hdbehind), haround,
      Bool.or_true]
    exact hshape _

/-! ### Effects -/

/-- `throws` or `rethrows`, with the type that is thrown, is a specifier. -/
theorem exists_specifier_of_thrown {text : String} (h : Thrown text ts) :
    ∃ x : Specifier, x.trees = ts ∧ x.async? = none ∧ x.throws? = some text := by
  cases h with
  | @word _ k hlex hk =>
    have hmem : (⟨k, text⟩ : Token) ∈ lex text := by
      rw [hlex]
      exact List.mem_cons_self
    rcases hk with rfl | rfl
    · obtain rfl : text = "throws" := text_of_mem_lex hmem rfl
      exact ⟨.throws none, rfl, rfl, rfl⟩
    · obtain rfl : text = "rethrows" := text_of_mem_lex hmem rfl
      exact ⟨.rethrows none, rfl, rfl, rfl⟩
  | @typed n name =>
    have hname : (namedTree n).text = n := by
      simp [namedTree, wordTree, Tree.text, leaves, forestLeaves]
    refine ⟨.throwing n, rfl, rfl, ?_⟩
    show some ("throws" ++ ("(" ++ (namedTree n).text ++ ")")) = _
    rw [hname, ← String.append_assoc, ← String.append_assoc]
    rfl

/-- So is `async` or `reasync`. -/
theorem exists_specifier_of_async {e : Effects} (he : e.Printable) : ∀ a ∈ e.async,
    ∃ x : Specifier, x.trees = [wordTree a] ∧ x.async? = some a ∧ x.throws? = none := by
  intro a ha
  obtain h | h | h := he.async
  · rw [h] at ha
    cases ha
  · rw [h] at ha
    obtain rfl := Option.some.inj ha
    exact ⟨.async, rfl, rfl, rfl⟩
  · rw [h] at ha
    obtain rfl := Option.some.inj ha
    exact ⟨.reasync, rfl, rfl, rfl⟩

/-- The specifiers that are written for effects. -/
theorem exists_specifiers {e : Effects} (he : e.Printable) : ∃ es : List Specifier,
    (specifierTrees e).filter (fun t => !t.isTriviaLeaf) = es.flatMap Specifier.trees ∧
    es.foldl Effects.specify {} = e := by
  have hthrown : ∀ text ∈ e.throws, ∃ x : Specifier, x.trees = thrownTrees text ∧
      x.async? = none ∧ x.throws? = some text := fun text htext =>
    exists_specifier_of_thrown (thrown he text htext)
  have hasync := exists_specifier_of_async he
  obtain ⟨async, throws⟩ := e
  cases async with
  | none =>
    cases throws with
    | none => exact ⟨[], rfl, rfl⟩
    | some text =>
      obtain ⟨x, hx, hxasync, hxthrows⟩ := hthrown text rfl
      refine ⟨[x], ?_, by simp [Effects.specify, hxasync, hxthrows]⟩
      rw [List.flatMap_singleton, ← x.filter_trees, hx]
      rfl
  | some a =>
    obtain ⟨y, hy, hyasync, hythrows⟩ := hasync a rfl
    cases throws with
    | none =>
      refine ⟨[y], ?_, by simp [Effects.specify, hyasync, hythrows]⟩
      rw [List.flatMap_singleton, hy]
      rfl
    | some text =>
      obtain ⟨x, hx, hxasync, hxthrows⟩ := hthrown text rfl
      refine ⟨[y, x], ?_, by simp [Effects.specify, hyasync, hythrows, hxasync, hxthrows]⟩
      rw [List.flatMap_cons, List.flatMap_singleton, ← x.filter_trees, hx, hy]
      rfl

/-- Specifiers are read as they are written. -/
theorem ofElements_specifierTrees {e : Effects} (he : e.Printable) :
    Effects.ofElements {} none (specifierTrees e) = e := by
  obtain ⟨es, hes, hread⟩ := exists_specifiers he
  rw [← Effects.ofElements_filter, hes, Effects.ofElements_specifiers (by simp), Effects.settled]
  exact hread

/-- Without specifiers there are no effects. -/
theorem eq_of_specifierTrees_eq_nil {e : Effects} (he : e.Printable) (h : specifierTrees e = []) :
    e = {} := by
  rw [← ofElements_specifierTrees he, h]
  rfl

/-- The effects of a function type are read as they are written. -/
theorem ofCursor_functionTree {e : Effects} {input : List Tree} (he : e.Printable)
    (htree : c.tree = functionTree input e u) : Effects.ofCursor c = e := by
  by_cases hnil : specifierTrees e = []
  · have hnone : c.child? .effectSpecifiers = none := by
      rw [Cursor.child?, List.find?_eq_none]
      intro x hx
      have hmem := Cursor.tree_mem_children hx
      rw [htree, functionTree, effectTrees, hnil] at hmem
      have hkind : x.tree.nodeKind? ≠ some .effectSpecifiers := by
        simp only [Tree.children, List.nil_append, List.mem_cons, List.not_mem_nil, or_false] at hmem
        obtain h | h | h := hmem <;> simp [h, tupleTree, blankTree, returnTree, nodeKind?]
      simpa [Cursor.isKind] using hkind
    rw [Effects.ofCursor, hnone, eq_of_specifierTrees_eq_nil he hnil]
  · have hchildren : c.tree = .node .functionType ([tupleTree input, blankTree] ++
        .node .effectSpecifiers (specifierTrees e) :: [blankTree, returnTree u]) := by
      rw [htree, functionTree, effectTrees_of_ne_nil hnil]
      rfl
    obtain ⟨x, -, hfind, hx, -⟩ := Cursor.exists_find?_elements
      (p := fun t => t.nodeKind? == some .effectSpecifiers) hchildren
      (by simp [tupleTree, blankTree, nodeKind?]) (by simp [nodeKind?])
    have hchild : c.child? .effectSpecifiers = some x := hfind
    rw [Effects.ofCursor, hchild]
    show Effects.ofElements {} none x.tree.children = e
    rw [hx]
    exact ofElements_specifierTrees he

/-! ### Function types -/

/-- No result stands in front of the arrow. -/
theorem nodeKind?_effectTrees (e : Effects) :
    ∀ t ∈ effectTrees e, (t.nodeKind? == some .returnClause) = false := by
  intro t ht
  unfold effectTrees at ht
  split at ht
  · exact absurd ht List.not_mem_nil
  · simp only [List.mem_cons, List.not_mem_nil, or_false] at ht
    obtain rfl | rfl := ht <;> rfl

/-- A function type. -/
theorem function {ps : List (Parameter TypeShape)} {e : Effects}
    (hlabels : ∀ p ∈ ps, ∀ l ∈ p.label, IsLabel l)
    (htypes : ∀ p ∈ ps, ClassifiesTo p.type.tree p.type.erased) (he : e.Printable)
    (hout : ClassifiesTo u s) :
    ClassifiesByWrapping (functionTree (elementTrees ps) e u) fun o esc =>
      .closure (erasedAll ps) s e esc o := by
  refine ⟨rfl, fun n c htree hn hbehind => ?_⟩
  obtain ⟨m, rfl, hlevels⟩ := exists_levels htree hn
  -- the parentheses in front
  have hinput : c.tree = .node .functionType ([] ++ tupleTree (elementTrees ps) ::
    (effectTrees e ++ [blankTree, returnTree u])) := htree
  obtain ⟨i, hi, hichild, hiu, -⟩ := Cursor.exists_find?_elements
    (p := fun t => t.nodeKind? == some .tupleType) hinput (by simp) rfl
  have hparameters : erasedAll ((tupleElements i).map (ofElement (classifyWithin m))) =
      erasedAll ps := by
    refine erasedAll_map_ofElement hlabels htypes (tupleElements_tupleTree hiu) fun d hd => ?_
    have hmem := mem_elements_of_mem_tupleElements hd
    have hlt := height_lt_of_mem_children (Cursor.tree_mem_children hmem)
    have hle := hlevels i hi
    refine ⟨by omega, ?_⟩
    -- a function type is around the parentheses
    have hfunction : wrapping c.path = (false, false) := by
      rw [Cursor.path, wrapping, htree]
      rfl
    rw [Cursor.ancestors_of_mem_elements hmem, Cursor.path, Cursor.ancestors_of_mem_elements hi,
      wrapping, hiu, hfunction]
    exact ite_self _
  -- the result behind the arrow
  have houtput : c.tree = .node .functionType
      ((tupleTree (elementTrees ps) :: (effectTrees e ++ [blankTree])) ++ returnTree u :: []) := by
    rw [htree, functionTree]
    simp
  obtain ⟨r, hr, hrchild, hru, hrbehind⟩ := Cursor.exists_find?_elements
    (p := fun t => t.nodeKind? == some .returnClause) houtput
    (by simpa [tupleTree, blankTree, nodeKind?, or_imp, forall_and] using nodeKind?_effectTrees e)
    rfl
  have hreturn : r.tree = .node .returnClause ([.leaf ⟨.arrow, "->"⟩, blankTree] ++ u :: []) := hru
  obtain ⟨x, hx, hinner, hxu, hxbehind⟩ :=
    exists_inner_eq hreturn (by simp [blankTree, nodeKind?]) hout.isType (classifyWithin m)
  have hresult : (inner (classifyWithin m) r).erased = s := by
    have hlt := height_lt_of_mem_children (Cursor.tree_mem_children hx)
    have hle := hlevels r hr
    rw [hinner]
    refine hout.erased_eq m x hxu (by omega) (.of_mem hx (by rw [hru]; rfl) (by decide) ?_)
    rw [hxbehind, hrbehind]
    exact hbehind
  have hshape : classifyWithin (m + 1) c =
      .closure ((tupleElements i).map (ofElement (classifyWithin m))) (inner (classifyWithin m) r) e
        (wrapping c.ancestors).2 (wrapping c.ancestors).1 := by
    have hichild : c.child? .tupleType = some i := hichild
    have hrchild : c.child? .returnClause = some r := hrchild
    rw [classifyWithin, classifyWith, htree]
    show ofFunction _ c = _
    rw [ofFunction, hichild, hrchild, ofCursor_functionTree he htree]
    rfl
  rw [hshape, erased, hparameters, hresult]

end ClassifiesByWrapping

/-! ## Shapes -/

/-- The tree of a shape that is written has this shape. -/
theorem Printable.classifiesTo {t : TypeShape} (h : Printable t) :
    ClassifiesTo t.tree t.erased := by
  induction h with
  | @void o => cases o <;> exact ClassifiesUpToMark.void.marked
  | @simple n o name notVoid notResult =>
    cases o <;> exact (ClassifiesUpToMark.named name notVoid notResult).marked
  | @array t f o _ ih =>
    rw [erased]
    cases f with
    | bracket => cases o <;> exact (ClassifiesUpToMark.bracketArray ih).marked
    | generic => cases o <;> exact (ClassifiesUpToMark.genericArray ih).marked
  | @dictionary k v f o _ _ ihk ihv =>
    rw [erased]
    cases f with
    | bracket => cases o <;> exact (ClassifiesUpToMark.bracketDictionary ihk ihv).marked
    | generic => cases o <;> exact (ClassifiesUpToMark.genericDictionary ihk ihv).marked
  | @set t o _ ih =>
    rw [erased]
    cases o <;> exact (ClassifiesUpToMark.genericSet ih).marked
  | @result s f o _ _ ihs ihf =>
    rw [erased]
    cases o <;> exact (ClassifiesUpToMark.genericResult ihs ihf).marked
  | @tuple ps o several labels _ ih =>
    rw [erased]
    cases o <;> exact (ClassifiesUpToMark.tuple several labels ih).marked
  | @closure ps out e esc o labels _ _ effects ih ihout =>
    have hfunction := ClassifiesByWrapping.function labels ih effects ihout
    have hclosure := ((hfunction.closure (fun _ => rfl) o).escaping esc).classifiesTo
    rw [Bool.false_or, Bool.false_or] at hclosure
    rwa [erased]

end TypeShape

end SwiftOutline
