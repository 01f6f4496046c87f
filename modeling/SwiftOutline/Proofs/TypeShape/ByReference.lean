/-
  SwiftOutline.Proofs.TypeShape.ByReference

  Types behind `inout`. The word joins the specifiers and attributes that a type
  begins with, or makes a type without any a specified one. Neither changes the
  shape of the type or its attributes.
-/
import SwiftOutline.Proofs.Tree.Written
import SwiftOutline.Proofs.TypeShape.Readings

namespace SwiftOutline

open SwiftOutline.Tree
open TypeShape (blankTree)

/-! ## Trees -/

namespace Tree

variable {front us : List Tree} {u : Tree}

/-- A type behind the specifiers `front`. -/
def specifiedTree (front : List Tree) : Tree → Tree
  | .node .attributedType us => .node .attributedType (front ++ us)
  | u => .node .attributedType (front ++ [u])

theorem specifiedTree_of_ne (hu : u.nodeKind? ≠ some .attributedType) (front : List Tree) :
    specifiedTree front u = .node .attributedType (front ++ [u]) := by
  cases u with
  | leaf t => rfl
  | node k us =>
    rw [specifiedTree]
    rintro vs h
    rw [h] at hu
    exact hu rfl

/-- Either the type begins with specifiers or attributes, or it does not. -/
theorem specifiedTree_cases (front : List Tree) (u : Tree) :
    (∃ us, u = .node .attributedType us ∧
        specifiedTree front u = .node .attributedType (front ++ us)) ∨
      u.nodeKind? ≠ some .attributedType ∧
        specifiedTree front u = .node .attributedType (front ++ [u]) := by
  by_cases hu : u.nodeKind? = some .attributedType
  · obtain ⟨us, rfl⟩ := eq_node_of_nodeKind? hu
    exact .inl ⟨us, rfl, rfl⟩
  · exact .inr ⟨hu, specifiedTree_of_ne hu front⟩

theorem nodeKind?_specifiedTree (front : List Tree) (u : Tree) :
    (specifiedTree front u).nodeKind? = some .attributedType := by
  obtain ⟨us, -, h⟩ | ⟨-, h⟩ := specifiedTree_cases front u <;> rw [h] <;> rfl

theorem leaves_specifiedTree (front : List Tree) (u : Tree) :
    (specifiedTree front u).leaves = forestLeaves front ++ u.leaves := by
  obtain ⟨us, rfl, h⟩ | ⟨-, h⟩ := specifiedTree_cases front u
  · rw [h, leaves, leaves, forestLeaves_append]
  · rw [h, leaves, forestLeaves_append, forestLeaves, forestLeaves, List.append_nil]

theorem withoutTrivia_specifiedTree (hu : u.isTriviaLeaf = false) (front : List Tree) :
    (specifiedTree front u).withoutTrivia =
      specifiedTree (forestWithoutTrivia front) u.withoutTrivia := by
  obtain ⟨us, rfl, h⟩ | ⟨hne, h⟩ := specifiedTree_cases front u
  · rw [h, withoutTrivia, withoutTrivia, specifiedTree, forestWithoutTrivia_append]
  · have hkind : u.withoutTrivia.nodeKind? ≠ some .attributedType := by
      rwa [nodeKind?_withoutTrivia]
    have hsingle : forestWithoutTrivia [u] = [u.withoutTrivia] := by
      rw [forestWithoutTrivia, if_neg (by simp [hu]), forestWithoutTrivia]
    rw [h, withoutTrivia, specifiedTree_of_ne hkind, forestWithoutTrivia_append, hsingle]

/-- A type behind `inout`. -/
def inoutTree (u : Tree) : Tree := specifiedTree [.leaf ⟨.kwInout, "inout"⟩, blankTree] u

theorem Snug.inoutTree (h : u.Snug) : (inoutTree u).Snug := by
  obtain ⟨us, rfl, htree⟩ | ⟨-, htree⟩ :=
    specifiedTree_cases [.leaf ⟨.kwInout, "inout"⟩, blankTree] u
  · rw [Tree.inoutTree, htree]
    cases h with
    | node first rest => exact .node (.leaf rfl) (.trivia rfl (.cons first rest))
  · rw [Tree.inoutTree, htree]
    exact .node (.leaf rfl) (.trivia rfl (.cons h .nil))

end Tree

/-! ## Phrases -/

namespace Grammar

variable {strict : Bool} {p : Phrase} {i : Lexeme} {ls : List Lexeme} {t : Tree} {ts us : List Tree}

theorem Derives.nodeKind?_ne_attributedType (h : Derives strict .bare ls [t]) :
    t.nodeKind? ≠ some .attributedType := by
  obtain ⟨k, hk, -, hne⟩ := h.exists_nodeKind?_of_bare
  rw [hk]
  exact fun heq => hne (Option.some.inj heq)

/-- `inout` stands in front of all specifiers. -/
theorem Derives.inout_specifiers (hi : i.kind = .kwInout) (h : Derives strict .specifiers ls us) :
    Derives strict .specifiers (i :: ls) (i.leaf :: us) := by
  have horder : ∀ m : Lexeme, strict = true → i.kind = .ident → m.kind ≠ .kwInout := by
    intro m _ hident
    rw [hi] at hident
    cases hident
  cases h with
  | specifier h => exact .specifiers (.inl hi) (.specifier h) (horder _)
  | specifiers first rest order =>
    exact .specifiers (.inl hi) (.specifiers first rest order) (horder _)

/-- A type behind `inout` is a type. -/
theorem Derives.inout_type (hi : i.kind = .kwInout) (h : Derives strict .type ls [t]) :
    Derives strict .type (i :: ls) [specifiedTree [i.leaf] t] := by
  have hword : Derives strict .specifiers [i] [i.leaf] := .specifier (.inl hi)
  cases h with
  | attributed front inner apart => exact .type (.specifiedAttributed hword front inner apart)
  | type h =>
    cases h with
    | bare h =>
      rw [specifiedTree_of_ne h.nodeKind?_ne_attributedType]
      exact .type (.specified hword h)
    | specified front inner => exact .type (.specified (front.inout_specifiers hi) inner)
    | specifiedAttributed front middle inner apart =>
      exact .type (.specifiedAttributed (front.inout_specifiers hi) middle inner apart)

end Grammar

theorem FormsTree.byReference {u : Tree} (h : FormsTree .type u) : FormsTree .type (inoutTree u) := by
  refine ⟨h.snug.inoutTree, fun gap => ?_⟩
  obtain ⟨ls, hls, hd⟩ := h.derives ⟨true, false⟩
  have htype := hd.inout_type (i := ⟨.kwInout, "inout", gap⟩) rfl
  refine ⟨⟨.kwInout, "inout", gap⟩ :: ls, ?_, ?_⟩
  · rw [inoutTree, leaves_specifiedTree]
    show Lexeme.ofTokensAfter gap (⟨.kwInout, "inout"⟩ :: ⟨.whitespace, " "⟩ :: u.leaves) = _
    rw [Lexeme.ofTokensAfter_cons rfl, Lexeme.ofTokensAfter_blank, hls]
  · rw [inoutTree, withoutTrivia_specifiedTree h.snug.isTriviaLeaf_eq]
    exact htype

/-! ## The type behind specifiers and attributes -/

namespace Grammar

/-- Specifiers and attributes stand in front of a single type. -/
theorem Derives.exists_last_type {strict : Bool} {ls : List Lexeme} {us : List Tree}
    (h : Derives strict .type ls [.node .attributedType us]) :
    ∃ (front : List Tree) (v : Tree), us = front ++ [v] ∧
      (∀ w ∈ front, w.nodeKind?.any NodeKind.isType = false) ∧
      v.nodeKind?.any NodeKind.isType = true := by
  have hwords : ∀ {ls : List Lexeme} {ws : List Tree}, Derives strict .specifiers ls ws →
      ∀ w ∈ ws, w.nodeKind?.any NodeKind.isType = false := by
    intro ls ws hws w hw
    rw [hws.nodeKind?_of_specifiers w hw]
    rfl
  have hattributes : ∀ ws : List Tree,
      (Tree.node .attributeList ws).nodeKind?.any NodeKind.isType = false := fun _ => rfl
  cases h with
  | @attributed _ _ _ us t front inner apart =>
    refine ⟨[.node .attributeList us], t, rfl, ?_, TypeShape.isType_of_derives (.type inner)⟩
    exact List.forall_mem_singleton.mpr (hattributes us)
  | type h =>
    cases h with
    | bare h => exact absurd rfl h.nodeKind?_ne_attributedType
    | @specified _ _ us t front inner =>
      exact ⟨us, t, rfl, hwords front, TypeShape.isType_of_derives (.type (.bare inner))⟩
    | @specifiedAttributed _ _ _ _ us vs t front middle inner apart =>
      refine ⟨us ++ [Tree.node .attributeList vs], t, by rw [List.append_assoc]; rfl, ?_,
        TypeShape.isType_of_derives (.type inner)⟩
      exact List.forall_mem_append.mpr
        ⟨hwords front, List.forall_mem_singleton.mpr (hattributes vs)⟩

end Grammar

/-- The same with trivia between them. -/
theorem FormsTree.exists_parts {us : List Tree} (h : FormsTree .type (.node .attributedType us)) :
    ∃ (front : List Tree) (v : Tree), (us.filter fun u => !u.isTriviaLeaf) = front ++ [v] ∧
      (∀ w ∈ front, w.nodeKind?.any NodeKind.isType = false) ∧
      v.nodeKind?.any NodeKind.isType = true := by
  obtain ⟨ls, -, hd⟩ := h.derives .none
  rw [withoutTrivia] at hd
  obtain ⟨front, v, hlast, hfront, hv⟩ := hd.exists_last_type
  rw [forestWithoutTrivia_eq] at hlast
  obtain ⟨front', last, hparts, rfl, hmap⟩ := List.map_eq_append_iff.mp hlast
  obtain ⟨v', ws, rfl, rfl, hws⟩ := List.map_eq_cons_iff.mp hmap
  obtain rfl := List.map_eq_nil_iff.mp hws
  refine ⟨front', v', hparts, fun w hw => ?_, by rwa [← nodeKind?_withoutTrivia]⟩
  rw [← nodeKind?_withoutTrivia]
  exact hfront _ (List.mem_map_of_mem hw)

/-! ## Attributes and shapes -/

/-- Words in front do not change the attributes of a type. -/
theorem Attribute.allIn_of_front {c d : Cursor} {m : ViewMode} {front us : List Tree}
    (hc : c.tree = .node .attributedType (front ++ us)) (hd : d.tree = .node .attributedType us)
    (hfront : ∀ u ∈ front, u.nodeKind? = none) (hcshown : ∀ m, c.surroundedIn m = true)
    (hdshown : ∀ m, d.surroundedIn m = true) : allIn m c = allIn m d := by
  have hshows : m.shows .attributeList = true := by cases m <;> rfl
  have htrees : ∀ x : Cursor, (x.childrenOf m .attributeList).map Cursor.tree =
      x.tree.children.filter fun t => t.nodeKind? == some .attributeList := by
    intro x
    rw [Cursor.childrenOf_eq hshows, ← Cursor.map_tree_elements, List.filter_map]
    rfl
  have hmap : (c.childrenOf m .attributeList).map Cursor.tree =
      (d.childrenOf m .attributeList).map Cursor.tree := by
    have hnone : (front.filter fun t => t.nodeKind? == some .attributeList) = [] :=
      List.filter_eq_nil_iff.mpr fun u hu => by simp [hfront u hu]
    rw [htrees, htrees, hc, hd, children, children, List.filter_append, hnone, List.nil_append]
  -- the lists of attributes stand in places that are shown, and are gone through side by side
  have hshown : ∀ {x y : Cursor}, (∀ m, x.surroundedIn m = true) →
      x.tree.nodeKind? = some .attributedType → y ∈ x.childrenOf m .attributeList →
      ∀ m, y.surroundedIn m = true := by
    intro x y hx hk hy m'
    rw [Cursor.childrenOf_eq hshows] at hy
    exact Cursor.surroundedIn_of_mem_elements (List.mem_filter.mp hy).1 (by simp [hk]) (hx m')
  refine forall₂_flatMap_congr (forall₂_of_map_eq hmap) fun x y hxy => ?_
  obtain ⟨⟨hx, hy⟩, htree⟩ := hxy
  have hmirrors := Cursor.Paired.mirrors htree (hshown hcshown (by rw [hc]; rfl) hx)
    (hshown hdshown (by rw [hd]; rfl) hy)
  exact forall₂_map_congr (hmirrors.childrenOf .here m .attributeUse) fun _ _ h =>
    Attribute.ofCursor_mirror hmirrors h

/-- Behind words alone a type has no attributes. -/
theorem Attribute.allIn_of_words {c : Cursor} {m : ViewMode} {front : List Tree} {u : Tree}
    (hc : c.tree = .node .attributedType (front ++ [u])) (hfront : ∀ w ∈ front, w.nodeKind? = none)
    (hu : u.nodeKind?.any NodeKind.isType = true) : allIn m c = [] := by
  refine allIn_eq_nil fun w hw hlist => ?_
  have hmem := mem_children_of_mem_parts hw
  rw [hc, children] at hmem
  rcases List.mem_append.mp hmem with hmem | hmem
  · rw [hfront w hmem] at hlist
    cases hlist
  · rw [← List.mem_singleton.mp hmem, hlist] at hu
    exact absurd hu (by decide)

namespace TypeShape

variable {c : Cursor} {front : List Tree} {u : Tree}

/-- Words in front do not change the shape of a type that stands apart. -/
theorem classify_specifiedTree (hu : FormsTree .type u) (hc : c.tree = specifiedTree front u)
    (hfront : ∀ w ∈ front, w.nodeKind? = none) (hapart : Apart c)
    (hshown : ∀ m, c.surroundedIn m = true) : classify c = classify (.ofAscribed u) := by
  have htype : u.nodeKind?.any NodeKind.isType = true := isType_of_forms hu
  have hascribed : ∀ m, (Cursor.ofAscribed u).surroundedIn m = true := fun m => by cases m <;> rfl
  have hinner : ∀ x : Cursor, x.tree.nodeKind? = some .attributedType →
      classify x = inner classify x := by
    intro x hx
    rw [classify_eq, classifyWith, hx]
  have hckind : c.tree.nodeKind? = some .attributedType := by rw [hc, nodeKind?_specifiedTree]
  have hwords : ∀ w ∈ front.filter fun w => !w.isTriviaLeaf,
      w.nodeKind?.any NodeKind.isType = false := by
    intro w hw
    rw [hfront w (List.mem_filter.mp hw).1]
    rfl
  have hwrapping : ∀ x : Cursor, x.tree.nodeKind? = some .attributedType → Apart x →
      wrapping x.path = (false, (Attribute.allIn .sourceAccurate x).any fun a =>
        a.name == "escaping") := by
    intro x hx hxapart
    rw [Cursor.path, wrapping, hx]
    dsimp only
    rw [hxapart.around, Bool.false_or]
  obtain ⟨us, rfl, htree⟩ | ⟨hne, htree⟩ := specifiedTree_cases front u
  · -- both have the same type as their last child, behind the same attributes
    obtain ⟨inside, v, hparts, hinside, hv⟩ := hu.exists_parts
    have hcparts : c.tree.parts =
        (front.filter fun w => !w.isTriviaLeaf) ++ inside ++ v :: [] := by
      rw [hc, htree, parts, children, List.filter_append, hparts, List.append_assoc]
    obtain ⟨e, he, hchild, hetree, hbehind⟩ :=
      exists_inner_part hcparts (List.forall_mem_append.mpr ⟨hwords, hinside⟩) hv
    have hdparts : (Cursor.ofAscribed (.node .attributedType us)).tree.parts = inside ++ v :: [] :=
      hparts
    obtain ⟨d, hd, hchild', hdtree, hbehind'⟩ := exists_inner_part hdparts hinside hv
    have hattributes : Attribute.allIn .sourceAccurate c =
        Attribute.allIn .sourceAccurate (.ofAscribed (.node .attributedType us)) :=
      Attribute.allIn_of_front (hc.trans htree) rfl hfront hshown hascribed
    have htidy : e.tree.Tidy := by
      have hlast : v ∈ us.filter fun u => !u.isTriviaLeaf := by simp [hparts]
      rw [hetree]
      exact hu.snug.tidy.of_mem_children (List.mem_filter.mp hlast).1
    have haround : wrapping e.ancestors = wrapping d.ancestors := by
      rw [Cursor.ancestors_of_mem_elements he, Cursor.ancestors_of_mem_elements hd,
        hwrapping c hckind hapart, hwrapping _ rfl (apart_ofAscribed _), hattributes]
    rw [hinner c hckind, hinner _ rfl, inner, inner, hchild, hchild']
    show classify e = classify d
    exact classify_eq_of_around (hetree.trans hdtree.symm) htidy haround
      (.congr hbehind hapart.behind)
      (.congr hbehind' (apart_ofAscribed (.node .attributedType us)).behind)
      (fun m => Cursor.surroundedIn_of_mem_elements he (by simp [hckind]) (hshown m))
      fun m => Cursor.surroundedIn_of_mem_elements hd (by simp [Cursor.ofAscribed, nodeKind?])
        (hascribed m)
  · -- the type stands apart behind words that are no attributes
    have hcparts : c.tree.parts = (front.filter fun w => !w.isTriviaLeaf) ++ u :: [] := by
      rw [hc, htree, parts, children, List.filter_append,
        List.filter_cons_of_pos (by simp [hu.snug.isTriviaLeaf_eq]), List.filter_nil]
    obtain ⟨e, he, hchild, hetree, hbehind⟩ := exists_inner_part hcparts hwords htype
    have hattributes : Attribute.allIn .sourceAccurate c = [] :=
      Attribute.allIn_of_words (hc.trans htree) hfront htype
    have heapart : Apart e := by
      refine ⟨?_, .congr hbehind hapart.behind⟩
      rw [Cursor.ancestors_of_mem_elements he, hwrapping c hckind hapart, hattributes]
      rfl
    rw [hinner c hckind, inner, hchild]
    show classify e = _
    exact classify_eq_of_apart hetree (by rw [hetree]; exact hu.snug.tidy) heapart
      (apart_ofAscribed u)
      (fun m => Cursor.surroundedIn_of_mem_elements he (by simp [hckind]) (hshown m)) hascribed

end TypeShape

/-! ## Texts -/

namespace TypeText

theorem lex_inout (t : TypeText) :
    lex ("inout " ++ t.text) = ⟨.kwInout, "inout"⟩ :: ⟨.whitespace, " "⟩ :: lex t.text := by
  have hlex : lex "inout" = [⟨.kwInout, "inout"⟩] := Lexer.lex_word rfl rfl nofun
  have hword : Written "inout" [.leaf ⟨.kwInout, "inout"⟩] := .of_token hlex (by decide)
  have htext : "inout " ++ t.text = "inout" ++ (" " ++ t.text) := by
    rw [← String.append_assoc]
    rfl
  have htokens := hword.spaced t.spells [] .nil
  rw [List.append_nil, ← htext] at htokens
  rw [t.lexed]
  refine htokens.trans ?_
  simp only [forestLeaves, forestLeaves_append, leaves, blankTree, List.append_nil]
  exact List.append_nil _

/-- The type behind `inout`. -/
def byReference (t : TypeText) : TypeText where
  text := "inout " ++ t.text
  tree := inoutTree t.tree
  forms := t.forms.byReference
  lexed := by
    rw [t.lex_inout, inoutTree, leaves_specifiedTree, ← t.lexed]
    rfl
  proper := by
    rw [t.lex_inout]
    exact List.forall_mem_cons.mpr ⟨by decide, List.forall_mem_cons.mpr ⟨by decide, t.proper⟩⟩

/-- The shape of the type. -/
def shape (t : TypeText) : TypeShape := TypeShape.classify (.ofAscribed t.tree)

/-- Inside a node that wraps no types, and in front of what is no mark, the type is read with this
    shape. -/
theorem classify_eq (t : TypeText) {c e : Cursor} {k : NodeKind} (he : e ∈ c.elements)
    (htree : e.tree = t.tree) (hkind : c.tree.nodeKind? = some k)
    (hk : k ∉ [.optionalType, .implicitlyUnwrappedOptionalType, .attributedType,
      .tupleTypeElement, .tupleType, .unexpected])
    (hbehind : TypeShape.Sealed e.behind) (hshown : ∀ m, c.surroundedIn m = true) :
    TypeShape.classify e = t.shape :=
  TypeShape.classify_eq_of_mem he hkind hk htree (by rw [htree]; exact t.forms.snug.tidy) hbehind
    hshown (TypeShape.apart_ofAscribed _) fun m => by cases m <;> rfl

/-- The attributes that the type begins with. -/
def attributes (t : TypeText) (m : ViewMode) : List Attribute :=
  if t.tree.nodeKind? = some .attributedType then Attribute.allIn m (.ofAscribed t.tree) else []

/-- The type begins with `inout`. -/
def isInout (t : TypeText) : Bool := TypeShape.isInoutTree t.tree

theorem isInout_byReference (t : TypeText) : t.byReference.isInout = true := by
  show TypeShape.isInoutTree (inoutTree t.tree) = true
  obtain ⟨us, -, htree⟩ | ⟨-, htree⟩ :=
    specifiedTree_cases [.leaf ⟨.kwInout, "inout"⟩, blankTree] t.tree <;>
  rw [inoutTree, htree] <;> rfl

theorem shape_byReference (t : TypeText) : t.byReference.shape = t.shape := by
  refine TypeShape.classify_specifiedTree t.forms rfl ?_ (TypeShape.apart_ofAscribed _)
    fun m => by cases m <;> rfl
  simp [nodeKind?, blankTree]

theorem attributes_byReference (t : TypeText) (m : ViewMode) :
    t.byReference.attributes m = t.attributes m := by
  have hwords : ∀ w ∈ [.leaf ⟨.kwInout, "inout"⟩, blankTree], w.nodeKind? = none := by
    simp [nodeKind?, blankTree]
  have hself : t.byReference.attributes m = Attribute.allIn m (.ofAscribed (inoutTree t.tree)) :=
    if_pos (nodeKind?_specifiedTree _ _)
  rw [hself, attributes]
  obtain ⟨us, hu, htree⟩ | ⟨hne, htree⟩ :=
    specifiedTree_cases [.leaf ⟨.kwInout, "inout"⟩, blankTree] t.tree
  · rw [if_pos (by rw [hu]; rfl)]
    exact Attribute.allIn_of_front htree hu hwords (fun m => by cases m <;> rfl)
      fun m => by cases m <;> rfl
  · rw [if_neg hne]
    exact Attribute.allIn_of_words htree hwords t.nodeKind?_tree

end TypeText

end SwiftOutline
