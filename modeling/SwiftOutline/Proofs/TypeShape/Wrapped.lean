/-
  SwiftOutline.Proofs.TypeShape.Wrapped

  Function types inside parentheses, attributes and marks of optionality. Whether
  such a type is optional and escaping is looked for upwards, from the function
  type to the nodes around it; the nodes around it are classified downwards. Both
  come to the same, and neither passes what is more than a layer.
-/
import SwiftOutline.Proofs.TypeExpr.Layers
import SwiftOutline.Proofs.TypeShape.Levels

namespace SwiftOutline

namespace Cursor

/-! ## Nodes around a type -/

/-- Whether the node makes the type in it optional. -/
def marksOptional (c : Cursor) : Bool :=
  c.isKind .optionalType || c.isKind .implicitlyUnwrappedOptionalType

/-- Whether the node makes the type in it escaping. -/
def marksEscaping (c : Cursor) : Bool :=
  c.isKind .attributedType
    && (Attribute.allIn .sourceAccurate c).any fun x => x.name == "escaping"

/-- Whether what is around the node counts for a function type inside it: a layer does let
    through, unless it is a tuple type with other than one element. -/
def letsThrough (c : Cursor) : Bool :=
  c.tree.nodeKind?.any NodeKind.isLayer
    && !(c.isKind .tupleType && (TypeShape.tupleElements c).length != 1)

/-- Whether the node is nothing but a layer around one type: it lets through and is no variadic
    element of a tuple type. -/
def isWrapper (c : Cursor) : Bool :=
  c.letsThrough && !(c.isKind .tupleTypeElement && c.hasToken .ellipsis)

/-- Whether the node is a function type, its result, a collection, a generic argument, or a tuple
    type with other than one element. -/
def isBarrier (c : Cursor) : Bool :=
  c.isKind .functionType || c.isKind .returnClause || c.isKind .arrayType
    || c.isKind .dictionaryType || c.isKind .genericArgument
    || (c.isKind .tupleType && (TypeShape.tupleElements c).length != 1)

variable {c e : Cursor} {k : NodeKind}

theorem isKind_eq (h : c.tree.nodeKind? = some k) (k' : NodeKind) :
    c.isKind k' = decide (k = k') := by
  rw [isKind, h, Option.some_beq_some, beq_eq_decide]

theorem letsThrough_eq_false_of_isBarrier (h : c.isBarrier = true) : c.letsThrough = false := by
  cases hk : c.tree.nodeKind? with
  | none => simp [letsThrough, hk]
  | some k =>
    simp only [isBarrier, isKind_eq hk, Bool.or_eq_true, decide_eq_true_eq, Bool.and_eq_true] at h
    simp only [letsThrough, hk, Option.any_some, isKind_eq hk]
    rcases h with ((((rfl | rfl) | rfl) | rfl) | rfl) | ⟨rfl, h⟩
    iterate 5 rfl
    simp [h]

theorem layer_cases (h : c.letsThrough = true) :
    c.tree.nodeKind? = some .optionalType ∨
      c.tree.nodeKind? = some .implicitlyUnwrappedOptionalType ∨
      c.tree.nodeKind? = some .attributedType ∨ c.tree.nodeKind? = some .tupleTypeElement ∨
      (c.tree.nodeKind? = some .tupleType ∧ (TypeShape.tupleElements c).length = 1) := by
  rw [letsThrough, Bool.and_eq_true] at h
  cases hk : c.tree.nodeKind? with
  | none => simp [hk] at h
  | some k =>
    have hlayer : k.isLayer = true := by simpa [hk] using h.1
    have hone := h.2
    rw [isKind_eq hk] at hone
    cases k
    case tupleType => simpa using hone
    all_goals first | exact absurd hlayer (by decide) | simp

end Cursor

namespace TypeShape

/-- How the nodes mark a type inside all of them: as optional, and as escaping. -/
def marksOf (as : List Cursor) : Bool × Bool :=
  (as.any Cursor.marksOptional, as.any Cursor.marksEscaping)

theorem marksOf_cons (a : Cursor) (as : List Cursor) :
    marksOf (a :: as) =
      (a.marksOptional || (marksOf as).1, a.marksEscaping || (marksOf as).2) := rfl

theorem wrapping_of_not_letsThrough {a : Cursor} (h : a.letsThrough = false) (as : List Cursor) :
    wrapping (a :: as) = (false, false) := by
  rw [wrapping]
  unfold Cursor.letsThrough Cursor.isKind at h
  split <;> simp_all [NodeKind.isLayer]

theorem wrapping_of_letsThrough {a : Cursor} (h : a.letsThrough = true) (as : List Cursor) :
    wrapping (a :: as) =
      (a.marksOptional || (wrapping as).1, a.marksEscaping || (wrapping as).2) := by
  rcases Cursor.layer_cases h with hk | hk | hk | hk | ⟨hk, hone⟩
  all_goals simp [wrapping, Cursor.marksOptional, Cursor.marksEscaping, Cursor.isKind_eq hk,
    Bool.or_comm, *]

/-- The way up from a function type ends where a node does not let through. -/
theorem wrapping_eq (as : List Cursor) :
    wrapping as = marksOf (as.takeWhile Cursor.letsThrough) := by
  induction as with
  | nil => rfl
  | cons a as ih =>
    rw [List.takeWhile_cons]
    split
    · next h => rw [wrapping_of_letsThrough h, ih, marksOf_cons]
    · next h => exact wrapping_of_not_letsThrough (by simpa using h) as

/-! ## One layer -/

variable {c e f w : Cursor} {k : NodeKind} {s : TypeShape}

theorem isContent_eq (h : c.tree.nodeKind? = some k) : c.tree.isContent = k.isContent := by
  rw [Tree.isContent, h, Option.any_some]

/-- What is inside a layer is the type that is found there. -/
theorem typeChild?_of_contents
    (h : Tree.contents c.tree.children = [] ∨
      ∃ t, Tree.contents c.tree.children = [t] ∧ t.isType = true)
    (he : e ∈ c.elements) (hcontent : e.tree.isContent = true) :
    e.isType = true ∧ c.typeChild? = some e := by
  have hfilter : (c.elements.filter fun d => d.tree.isContent).map Cursor.tree =
      Tree.contents c.tree.children := by
    rw [← Cursor.map_tree_elements, Tree.contents, List.filter_map]
    rfl
  have hmem : ∀ d ∈ c.elements, d.tree.isContent = true →
      d ∈ c.elements.filter fun d => d.tree.isContent :=
    fun d hd hcontent => List.mem_filter.mpr ⟨hd, hcontent⟩
  rcases h with h | ⟨t, h, ht⟩
  · rw [h, List.map_eq_nil_iff] at hfilter
    exact absurd (hmem e he hcontent) (by rw [hfilter]; exact List.not_mem_nil)
  · rw [h] at hfilter
    obtain ⟨d, hd, rfl⟩ := List.map_eq_singleton_iff.mp hfilter
    have hsole : ∀ x ∈ c.elements, x.tree.isContent = true → x = d := fun x hx hcontent => by
      have hx' := hmem x hx hcontent
      rwa [hd, List.mem_singleton] at hx'
    obtain rfl := hsole e he hcontent
    refine ⟨ht, ?_⟩
    cases hfind : c.typeChild? with
    | none => exact absurd ht (List.find?_eq_none.mp hfind e he)
    | some x =>
      have hx : x.isType = true := List.find?_some hfind
      rw [hsole x (List.mem_of_find?_eq_some hfind) (Tree.isContent_of_isType hx)]

/-- A node that has the shape itself, or an element of a tuple type in which a type has it. -/
inductive Shows (s : TypeShape) (c : Cursor) : Prop where
  | type (isType : c.isType = true) (shape : classify c = s)
  | element (isElement : c.isKind .tupleTypeElement = true)
      (notVariadic : c.hasToken .ellipsis = false) (shape : inner classify c = s)

theorem Shows.isContent (h : Shows s c) : c.tree.isContent = true := by
  cases h with
  | type isType shape => exact Tree.isContent_of_isType isType
  | element isElement notVariadic shape =>
    rw [isContent_eq (Cursor.nodeKind?_of_isKind isElement)]
    rfl

theorem inner_of_contents
    (h : Tree.contents c.tree.children = [] ∨
      ∃ t, Tree.contents c.tree.children = [t] ∧ t.isType = true)
    (he : e ∈ c.elements) (hs : Shows s e) : inner classify c = s := by
  obtain ⟨htype, hchild⟩ := typeChild?_of_contents h he hs.isContent
  rw [inner, hchild, Option.map_some, Option.getD_some]
  cases hs with
  | type isType shape => exact shape
  | element isElement notVariadic shape =>
    rw [Cursor.isType, Cursor.nodeKind?_of_isKind isElement] at htype
    exact absurd htype (by decide)

/-- A layer shows what is shown in it, if it is not made optional by the layer alone. -/
theorem Shows.of_mem_elements
    (hlayered : ∀ k, c.tree.nodeKind? = some k → Tree.Layered k c.tree.children)
    (hc : c.isWrapper = true) (hoptional : c.marksOptional = true → s.optional = s)
    (he : e ∈ c.elements) (hs : Shows s e) : Shows s c := by
  rw [Cursor.isWrapper, Bool.and_eq_true] at hc
  have hshape : classify c = classifyWith classify c := classify_eq c
  rcases Cursor.layer_cases hc.1 with hk | hk | hk | hk | ⟨hk, hone⟩
  all_goals rw [classifyWith, hk] at hshape
  · refine .type (by rw [Cursor.isType, hk]; rfl) ?_
    rw [hshape, inner_of_contents (hlayered _ hk) he hs]
    exact hoptional (by simp [Cursor.marksOptional, Cursor.isKind_eq hk])
  · refine .type (by rw [Cursor.isType, hk]; rfl) ?_
    rw [hshape, inner_of_contents (hlayered _ hk) he hs]
    exact hoptional (by simp [Cursor.marksOptional, Cursor.isKind_eq hk])
  · refine .type (by rw [Cursor.isType, hk]; rfl) ?_
    rw [hshape, inner_of_contents (hlayered _ hk) he hs]
  · refine .element (by simp [Cursor.isKind_eq hk]) ?_ (inner_of_contents (hlayered _ hk) he hs)
    simpa [Cursor.isKind_eq hk] using hc.2
  · refine .type (by rw [Cursor.isType, hk]; rfl) ?_
    cases hs with
    | type isType shape =>
      -- a tuple type has no types among its children
      have hnone : e.tree.isType = false := hlayered _ hk e.tree (Cursor.tree_mem_children he)
      exact absurd (isType.symm.trans hnone) (by decide)
    | element isElement notVariadic shape =>
      have hmem : e ∈ tupleElements c := by
        rw [tupleElements_eq]
        exact List.mem_filter.mpr ⟨he, by simp [Cursor.nodeKind?_of_isKind isElement]⟩
      obtain ⟨d, hd⟩ := List.length_eq_one_iff.mp hone
      rw [hd, List.mem_singleton] at hmem
      rw [hshape, ofTuple, hd, ← hmem]
      simp [notVariadic, shape]

/-! ## All layers -/

/-- Going up from a node through layers, all of which are layered as they should be. -/
theorem Shows.of_ancestors {t : Tree} {below beyond : List Cursor}
    (ht : t.Everywhere Tree.Layered) (hc : Cursor.Within t c)
    (hpath : c.ancestors = below ++ w :: beyond)
    (hwrapper : ∀ a ∈ below ++ [w], a.isWrapper = true)
    (hoptional : ∀ a ∈ below ++ [w], a.marksOptional = true → s.optional = s)
    (hs : Shows s c) : Shows s w := by
  induction below generalizing c with
  | nil =>
    cases hc with
    | root => exact absurd hpath (List.cons_ne_nil _ _).symm
    | child parent mem =>
      rw [Cursor.ancestors_of_mem_elements mem] at hpath
      obtain ⟨rfl, -⟩ := List.cons.inj hpath
      exact hs.of_mem_elements (fun k => ht.here_of_within parent)
        (hwrapper _ (List.mem_singleton_self _)) (hoptional _ (List.mem_singleton_self _)) mem
  | cons a below ih =>
    cases hc with
    | root => exact absurd hpath (List.cons_ne_nil _ _).symm
    | child parent mem =>
      rw [Cursor.ancestors_of_mem_elements mem] at hpath
      obtain ⟨rfl, hrest⟩ := List.cons.inj hpath
      refine ih parent hrest (fun a ha => hwrapper a (List.mem_cons_of_mem _ ha))
        (fun a ha => hoptional a (List.mem_cons_of_mem _ ha)) ?_
      exact hs.of_mem_elements (fun k => ht.here_of_within parent)
        (hwrapper _ List.mem_cons_self) (hoptional _ List.mem_cons_self) mem

/-- A function type with the marks that some nodes around it give it. -/
def IsMarkedBy (as : List Cursor) (s : TypeShape) : Prop :=
  ∃ input output effects,
    s = closure input output effects (as.any Cursor.marksEscaping) (as.any Cursor.marksOptional)

theorem isMarkedBy_of_functionType (hf : f.isKind .functionType = true) :
    IsMarkedBy (f.ancestors.takeWhile Cursor.letsThrough) (classify f) := by
  have hshape : classify f = ofFunction classify f := by
    rw [classify_eq, classifyWith, Cursor.nodeKind?_of_isKind hf]
  rw [hshape, ofFunction, wrapping_eq]
  exact ⟨_, _, _, rfl⟩

theorem IsMarkedBy.optional_eq {as : List Cursor} (h : IsMarkedBy as s)
    (has : as.any Cursor.marksOptional = true) : s.optional = s := by
  obtain ⟨input, output, effects, rfl⟩ := h
  rw [has, optional]

theorem takeWhile_barrier {nearer beyond : List Cursor} {b : Cursor} (hb : b.isBarrier = true) :
    (nearer ++ b :: beyond).takeWhile Cursor.letsThrough = nearer.takeWhile Cursor.letsThrough := by
  induction nearer with
  | nil =>
    rw [List.nil_append, List.takeWhile_cons, Cursor.letsThrough_eq_false_of_isBarrier hb]
    rfl
  | cons a nearer ih =>
    rw [List.cons_append, List.takeWhile_cons, List.takeWhile_cons, ih]

/-- A type around a function type, with nothing but layers in between, has the shape of the function
    type. It is optional and escaping as the layers up to it and the nodes around it say, as far as
    they let through, and nothing counts that is beyond a function type, its result, a collection,
    a generic argument or a tuple type with other than one element. -/
theorem classify_of_wrapped (source : String) {f w : Cursor} {between above : List Cursor}
    (hf : f ∈ (Cursor.ofTree (parse source).tree).nodes) (hfunction : f.isKind .functionType = true)
    (hpath : f.ancestors = between ++ w :: above) (hw : w.isType = true)
    (hwrappers : ∀ a ∈ between ++ [w], a.isWrapper = true) :
    classify w = classify f ∧
    IsMarkedBy (between ++ w :: above.takeWhile Cursor.letsThrough) (classify f) ∧
    ∀ nearer barrier beyond, f.ancestors = nearer ++ barrier :: beyond →
      barrier.isBarrier = true →
      IsMarkedBy (nearer.takeWhile Cursor.letsThrough) (classify f) := by
  have hthrough : ∀ a ∈ between ++ [w], a.letsThrough = true := fun a ha => by
    have h := hwrappers a ha
    rw [Cursor.isWrapper, Bool.and_eq_true] at h
    exact h.1
  have hmarked := isMarkedBy_of_functionType hfunction
  have hseen : f.ancestors.takeWhile Cursor.letsThrough =
      between ++ w :: above.takeWhile Cursor.letsThrough := by
    rw [hpath, ← List.singleton_append, ← List.append_assoc, List.takeWhile_append_of_pos hthrough,
      List.append_assoc, List.singleton_append]
  refine ⟨?_, hseen ▸ hmarked, fun nearer barrier beyond hsplit hbarrier => ?_⟩
  · have hshows : Shows (classify f) w := by
      refine Shows.of_ancestors (layered_parse source) (Cursor.Within.root.of_mem_nodes hf) hpath
        hwrappers (fun a ha hmark => hmarked.optional_eq ?_) (.type ?_ rfl)
      · have hmem : a ∈ between ++ w :: above.takeWhile Cursor.letsThrough :=
          List.mem_append.mpr ((List.mem_append.mp ha).imp_right fun h =>
            List.mem_cons.mpr (.inl (List.mem_singleton.mp h)))
        rw [hseen]
        exact List.any_eq_true.mpr ⟨a, hmem, hmark⟩
      · rw [Cursor.isType, Cursor.nodeKind?_of_isKind hfunction]
        rfl
    cases hshows with
    | type isType shape => exact shape
    | element isElement notVariadic shape =>
      rw [Cursor.isType, Cursor.nodeKind?_of_isKind isElement] at hw
      exact absurd hw (by decide)
  · rw [hsplit, takeWhile_barrier hbarrier] at hmarked
    exact hmarked

/-- The mark behind the parentheses and the attribute inside them count for the function type. -/
theorem classify_of_wrapped_escaping :
    ∃ f ∈ (Cursor.ofTree (parse "func f(a: [(@escaping (Int) -> Void)?])").tree).nodes,
      ∃ w above, f.isKind .functionType = true ∧ f.ancestors = f.ancestors.take 3 ++ w :: above ∧
      w.isKind .optionalType = true ∧ (∀ a ∈ f.ancestors.take 3 ++ [w], a.isWrapper = true) ∧
      classify w = classify f ∧
      IsMarkedBy (f.ancestors.take 3 ++ w :: above.takeWhile Cursor.letsThrough) (classify f) := by
  have hfound : ((Cursor.ofTree (parse "func f(a: [(@escaping (Int) -> Void)?])").tree).nodes.any
      fun f => f.isKind .functionType && (f.ancestors[3]?.any fun w =>
        w.isKind .optionalType && (f.ancestors.take 3 ++ [w]).all Cursor.isWrapper)) = true := by
    decide +kernel
  obtain ⟨f, hf, hcond⟩ := List.any_eq_true.mp hfound
  rw [Bool.and_eq_true, Option.any_eq_true] at hcond
  obtain ⟨hfunction, w, hw, hkinds⟩ := hcond
  rw [Bool.and_eq_true, List.all_eq_true] at hkinds
  have hpath : f.ancestors = f.ancestors.take 3 ++ w :: f.ancestors.drop 4 := by
    obtain ⟨hlt, rfl⟩ := List.getElem?_eq_some_iff.mp hw
    rw [← List.drop_eq_getElem_cons hlt, List.take_append_drop]
  have htype : w.isType = true := by
    rw [Cursor.isType, Cursor.nodeKind?_of_isKind hkinds.1]
    rfl
  obtain ⟨hsame, hmarked, -⟩ := classify_of_wrapped _ hf hfunction hpath htype hkinds.2
  exact ⟨f, hf, w, f.ancestors.drop 4, hfunction, hpath, hkinds.1, hkinds.2, hsame, hmarked⟩

end TypeShape

end SwiftOutline
