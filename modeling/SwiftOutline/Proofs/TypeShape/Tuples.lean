/-
  SwiftOutline.Proofs.TypeShape.Tuples

  Which tuples there are. Parentheses around one type are no tuple and change
  nothing, however many of them there are, and around nothing they are `Void`; so
  wherever a tuple occurs in a shape, it has several elements, or a single one with
  dots.
-/
import SwiftOutline.Proofs.TypeShape.Alone
import SwiftOutline.Proofs.TypeShape.Levels
import SwiftOutline.Proofs.TypeShape.Printable

namespace SwiftOutline

open SwiftOutline.Tree

namespace TypeShape

variable {s t k v : TypeShape} {es ps : List (Parameter TypeShape)} {p : Parameter TypeShape}
  {f : SurfaceForm} {o : Bool}

/-! ## Shapes inside shapes -/

/-- The shape `s` is the given one or occurs somewhere in it. -/
inductive Occurs (s : TypeShape) : TypeShape → Prop where
  | here : Occurs s s
  | element {es : List (Parameter TypeShape)} {o : Bool} {p : Parameter TypeShape} (hp : p ∈ es)
      (h : Occurs s p.type) : Occurs s (tuple es o)
  | input {ps : List (Parameter TypeShape)} {out : TypeShape} {e : Effects} {esc o : Bool}
      {p : Parameter TypeShape} (hp : p ∈ ps) (h : Occurs s p.type) :
      Occurs s (closure ps out e esc o)
  | output {ps : List (Parameter TypeShape)} {out : TypeShape} {e : Effects} {esc o : Bool}
      (h : Occurs s out) : Occurs s (closure ps out e esc o)
  | array {t : TypeShape} {f : SurfaceForm} {o : Bool} (h : Occurs s t) : Occurs s (array t f o)
  | key {k v : TypeShape} {f : SurfaceForm} {o : Bool} (h : Occurs s k) :
      Occurs s (dictionary k v f o)
  | value {k v : TypeShape} {f : SurfaceForm} {o : Bool} (h : Occurs s v) :
      Occurs s (dictionary k v f o)
  | set {t : TypeShape} {f : SurfaceForm} {o : Bool} (h : Occurs s t) : Occurs s (set t f o)
  | success {t u : TypeShape} {o : Bool} (h : Occurs s t) : Occurs s (result t u o)
  | failure {t u : TypeShape} {o : Bool} (h : Occurs s u) : Occurs s (result t u o)

/-- The elements are those of a proper tuple: several, or a single one with dots. -/
def IsProper (es : List (Parameter TypeShape)) : Prop :=
  2 ≤ es.length ∨ ∃ p, es = [p] ∧ p.isVariadic = true

/-- All tuples that occur in the shape are proper. -/
def TuplesProper (t : TypeShape) : Prop := ∀ es o, Occurs (tuple es o) t → IsProper es

namespace TuplesProper

theorem simple (n : String) : TuplesProper (simple n o) := by
  rintro es o ⟨⟩

theorem void : TuplesProper (void o) := by
  rintro es o ⟨⟩

theorem empty : TuplesProper empty := by
  rintro es o ⟨⟩

theorem tuple (hes : IsProper es) (h : ∀ p ∈ es, TuplesProper p.type) :
    TuplesProper (tuple es o) := by
  intro es' o' hoccurs
  cases hoccurs with
  | here => exact hes
  | element hp hoccurs => exact h _ hp _ _ hoccurs

theorem closure {e : Effects} {esc : Bool} (h : ∀ p ∈ ps, TuplesProper p.type)
    (hout : TuplesProper t) : TuplesProper (closure ps t e esc o) := by
  intro es o' hoccurs
  cases hoccurs with
  | input hp hoccurs => exact h _ hp _ _ hoccurs
  | output hoccurs => exact hout _ _ hoccurs

theorem array (h : TuplesProper t) : TuplesProper (array t f o) := by
  intro es o' hoccurs
  cases hoccurs with
  | array hoccurs => exact h _ _ hoccurs

theorem dictionary (hk : TuplesProper k) (hv : TuplesProper v) :
    TuplesProper (dictionary k v f o) := by
  intro es o' hoccurs
  cases hoccurs with
  | key hoccurs => exact hk _ _ hoccurs
  | value hoccurs => exact hv _ _ hoccurs

theorem set (h : TuplesProper t) : TuplesProper (set t f o) := by
  intro es o' hoccurs
  cases hoccurs with
  | set hoccurs => exact h _ _ hoccurs

theorem result (hs : TuplesProper s) (ht : TuplesProper t) : TuplesProper (result s t o) := by
  intro es o' hoccurs
  cases hoccurs with
  | success hoccurs => exact hs _ _ hoccurs
  | failure hoccurs => exact ht _ _ hoccurs

/-- A shape that is made optional has the tuples that it had, and is the same tuple if it was
    one. -/
theorem optional (h : TuplesProper t) : TuplesProper t.optional := by
  cases t with
  | simple n o => exact .simple n
  | tuple es o =>
    exact .tuple (h es o .here) fun p hp es' o' hoccurs => h es' o' (.element hp hoccurs)
  | closure ps out e esc o =>
    exact .closure (fun p hp es o' hoccurs => h es o' (.input hp hoccurs))
      fun es o' hoccurs => h es o' (.output hoccurs)
  | array t f o => exact .array fun es o' hoccurs => h es o' (.array hoccurs)
  | dictionary k v f o =>
    exact .dictionary (fun es o' hoccurs => h es o' (.key hoccurs))
      fun es o' hoccurs => h es o' (.value hoccurs)
  | set t f o => exact .set fun es o' hoccurs => h es o' (.set hoccurs)
  | result s t o =>
    exact .result (fun es o' hoccurs => h es o' (.success hoccurs))
      fun es o' hoccurs => h es o' (.failure hoccurs)
  | void o => exact .void
  | empty => exact .empty

theorem withOptional (h : TuplesProper t) (b : Bool) : TuplesProper (t.withOptional b) := by
  rw [TypeShape.withOptional]
  split
  · exact h.optional
  · exact h

end TuplesProper

/-! ## Tuples in what is classified -/

theorem tuplesProper_getD {t? : Option TypeShape} (h : ∀ t, t? = some t → TuplesProper t) :
    TuplesProper (t?.getD empty) := by
  cases t? with
  | none => exact .empty
  | some t => exact h t rfl

section Classified

variable {classify : Cursor → TypeShape} (h : ∀ e, TuplesProper (classify e)) (c : Cursor)

include h

theorem tuplesProper_map (es : List Cursor) : ∀ t ∈ es.map classify, TuplesProper t := by
  intro t ht
  obtain ⟨e, -, rfl⟩ := List.mem_map.mp ht
  exact h e

theorem tuplesProper_getD_map (e? : Option Cursor) :
    TuplesProper ((e?.map classify).getD empty) :=
  tuplesProper_getD fun t ht => by
    obtain ⟨e, -, rfl⟩ := Option.map_eq_some_iff.mp ht
    exact h e

/-- The first or the second of some types that are classified. -/
theorem tuplesProper_getElem? (es : List Cursor) (i : Nat) :
    TuplesProper ((es.map classify)[i]?.getD empty) :=
  tuplesProper_getD fun t ht => tuplesProper_map h es t (List.mem_of_getElem? ht)

theorem tuplesProper_ofNamed : TuplesProper (ofNamed classify c) := by
  unfold ofNamed
  generalize (genericForm? "" none c.elements).getD (c.description, []) = form
  obtain ⟨name, arguments⟩ := form
  refine TuplesProper.withOptional ?_ _
  have harguments := tuplesProper_map h arguments
  have hat := tuplesProper_getElem? h arguments
  generalize arguments.map classify = types at harguments hat ⊢
  split
  · exact .void
  · rw [List.head?_eq_getElem?]
    exact .result (hat 0) (hat 1)
  · exact .array (harguments _ (by simp))
  · exact .dictionary (harguments _ (by simp)) (harguments _ (by simp))
  · exact .set (harguments _ (by simp))
  · exact (harguments _ (by simp)).optional
  · exact .simple _

theorem tuplesProper_inner : TuplesProper (inner classify c) := tuplesProper_getD_map h _

theorem tuplesProper_ofElement : TuplesProper (ofElement classify c).type :=
  tuplesProper_getD_map h _

theorem tuplesProper_map_ofElement (es : List Cursor) :
    ∀ p ∈ es.map (ofElement classify), TuplesProper p.type := by
  intro p hp
  obtain ⟨e, -, rfl⟩ := List.mem_map.mp hp
  exact tuplesProper_ofElement h e

theorem tuplesProper_ofTuple : TuplesProper (ofTuple classify c) := by
  unfold ofTuple
  split
  · exact .void
  · next e _ =>
    split
    · next hdots =>
      exact .tuple (.inr ⟨_, rfl, hdots⟩) (tuplesProper_map_ofElement h [e])
    · exact tuplesProper_inner h e
  · next es hnil hone =>
    refine .tuple (.inl ?_) (tuplesProper_map_ofElement h _)
    rw [List.length_map]
    match tupleElements c, hnil, hone with
    | [], hnil, _ => exact absurd rfl hnil
    | [e], _, hone => exact absurd rfl (hone e)
    | _ :: _ :: _, _, _ => simp

theorem tuplesProper_ofFunction : TuplesProper (ofFunction classify c) := by
  unfold ofFunction
  refine .closure (fun p hp => ?_) ?_
  · cases hinput : c.child? .tupleType with
    | none => simp [hinput] at hp
    | some t =>
      rw [hinput] at hp
      exact tuplesProper_map_ofElement h _ p hp
  · cases c.child? .returnClause with
    | none => exact .empty
    | some r => exact tuplesProper_inner h r

theorem tuplesProper_classifyWith : TuplesProper (classifyWith classify c) := by
  unfold classifyWith
  split
  · exact tuplesProper_ofNamed h c
  · exact tuplesProper_ofTuple h c
  · exact tuplesProper_ofFunction h c
  · exact (tuplesProper_inner h c).optional
  · exact (tuplesProper_inner h c).optional
  · exact tuplesProper_inner h c
  · exact (TuplesProper.array (tuplesProper_inner h c)).withOptional _
  · refine (TuplesProper.dictionary ?_ (tuplesProper_getElem? h _ 1)).withOptional _
    rw [List.head?_eq_getElem?]
    exact tuplesProper_getElem? h _ 0
  · exact .empty

end Classified

/-- Every tuple that occurs in the shape of a type has several elements, or a single one with
    dots. -/
theorem tuplesProper_classify (c : Cursor) : TuplesProper (classify c) := by
  have hwithin : ∀ n c, TuplesProper (classifyWithin n c) := by
    intro n
    induction n with
    | zero => exact fun _ => .empty
    | succ n ih => exact tuplesProper_classifyWith ih
  exact hwithin _ c

/-! ## Parentheses around a type -/

/-- A type with `k` pairs of parentheses around it. -/
def parenthesizedTree : (k : Nat) → Tree → Tree
  | 0, u => u
  | k + 1, u => tupleTree [elementTree none (parenthesizedTree k u) false]

theorem isType_parenthesizedTree {u : Tree} (hu : u.nodeKind?.any NodeKind.isType = true) (k : Nat) :
    (parenthesizedTree k u).nodeKind?.any NodeKind.isType = true := by
  cases k with
  | zero => exact hu
  | succ k => rfl

/-- A type in parentheses has the shape of the type inside, which stands apart if the parentheses
    do. -/
theorem exists_classify_eq {c : Cursor} {u : Tree} (hc : c.tree = tupleTree [elementTree none u false])
    (hu : u.nodeKind?.any NodeKind.isType = true) (hapart : Apart c) :
    ∃ d : Cursor, d.tree = u ∧ classify c = classify d ∧ Apart d ∧
      ∀ m, c.surroundedIn m = true → d.surroundedIn m = true := by
  obtain ⟨tree, start, above⟩ := c
  obtain rfl : tree = _ := hc
  let f : Frame := ⟨.tupleType, start, [.leaf ⟨.lParen, "("⟩], [.leaf ⟨.rParen, ")"⟩]⟩
  let e : Cursor := ⟨elementTree none u false, start + Tree.size (.leaf ⟨.lParen, "("⟩), f :: above⟩
  let d : Cursor := ⟨u, e.start, ⟨.tupleTypeElement, e.start, [], []⟩ :: f :: above⟩
  have helements : tupleElements ⟨tupleTree [elementTree none u false], start, above⟩ = [e] := rfl
  have hchildren : e.elements = [d] := rfl
  have hdots : e.hasToken .ellipsis = false := by
    rw [Cursor.hasToken, hchildren, List.any_cons, List.any_nil, Bool.or_false]
    exact isToken_of_isType hu .ellipsis
  have htype : e.typeChild? = some d := by
    have hd : d.isType = true := hu
    rw [Cursor.typeChild?, hchildren, List.find?_cons_of_pos hd]
  refine ⟨d, rfl, ?_, ⟨?_, .of_kind (by decide) _⟩, fun m hm => ?_⟩
  · rw [classify_eq]
    show ofTuple classify ⟨tupleTree [elementTree none u false], start, above⟩ = classify d
    rw [ofTuple, helements]
    dsimp only
    rw [if_neg (by simp [hdots]), inner, htype]
    rfl
  · exact hapart.around
  · cases m <;> exact hm

/-- However many parentheses there are around a type, they change nothing. -/
theorem classify_parenthesizedTree {u : Tree} (hu : u.nodeKind?.any NodeKind.isType = true)
    (htidy : u.Tidy) {k : Nat} {c d : Cursor} (hc : c.tree = parenthesizedTree k u) (hd : d.tree = u)
    (hcapart : Apart c) (hdapart : Apart d) (hcshown : ∀ m, c.surroundedIn m = true)
    (hdshown : ∀ m, d.surroundedIn m = true) : classify c = classify d := by
  induction k generalizing c with
  | zero =>
    have htree : c.tree = u := hc
    exact classify_eq_of_apart (htree.trans hd.symm) (htree ▸ htidy) hcapart hdapart hcshown hdshown
  | succ k ih =>
    obtain ⟨e, he, hclassify, heapart, heshown⟩ :=
      exists_classify_eq hc (isType_parenthesizedTree hu k) hcapart
    rw [hclassify]
    exact ih he heapart fun m => heshown m (hcshown m)

end TypeShape

end SwiftOutline
