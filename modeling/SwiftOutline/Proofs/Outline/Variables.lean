/-
  SwiftOutline.Proofs.Outline.Variables

  Types of variables. A binding without annotation and value takes its type from
  the bindings behind it, of which the next one with either decides; so what a
  list of bindings declares for the first of them is a recursion on the list.
-/
import SwiftOutline.Proofs.Outline.Expansion

namespace SwiftOutline

namespace Binding

variable {m : ViewMode} {b : Cursor} {later : List Cursor}

/-- Whether a binding has an annotation, with or without a type behind the colon. -/
def isAnnotated (b : Cursor) : Bool := (b.child? .ascription).isSome

/-- Whether a binding has a value. -/
def isInitialized (b : Cursor) : Bool := (b.child? .initializerClause).isSome

/-- The type that bindings declare for the first of them: that of its annotation if it has one,
    none if it has a value, and else that of the next binding. -/
def declared? : List Cursor → Option Cursor
  | [] => none
  | b :: later =>
    if isAnnotated b then ascribed? b
    else if isInitialized b then none
    else declared? later

/-- Whether a binding has no value and an annotation without a type. -/
def isIncomplete (b : Cursor) : Bool :=
  isAnnotated b && (ascribed? b).isNone && !isInitialized b

/-- The bindings that decide on the type of the first of them. -/
def deciding (b : Cursor) (later : List Cursor) : List Cursor :=
  if isIncomplete b then later else b :: later

/-- The shape of a type; `empty` if there is none. -/
def shapeOf (type : Option Cursor) : TypeShape := (type.map TypeShape.classify).getD .empty

/-- Only an annotation declares a type. -/
theorem ascribed?_eq_none (h : isAnnotated b = false) : ascribed? b = none := by
  rw [isAnnotated, Option.isSome_eq_false_iff, Option.isNone_iff_eq_none] at h
  rw [ascribed?, h, Option.bind_none]

/-- The first binding with an annotation or a value declares the type. -/
theorem declared?_eq_find? (bs : List Cursor) :
    declared? bs = (bs.find? isSettled).bind ascribed? := by
  induction bs with
  | nil => rfl
  | cons b later ih =>
    have hsettled : isSettled b = (isAnnotated b || isInitialized b) := rfl
    rw [declared?, List.find?_cons, hsettled, ih]
    cases hann : isAnnotated b with
    | true => rfl
    | false =>
      cases isInitialized b with
      | true => exact (ascribed?_eq_none hann).symm
      | false => rfl

/-- A binding has the type that it declares together with those behind it, unless its annotation
    is incomplete. Then it counts as if it had none. -/
theorem typeNode?_eq (b : Cursor) (later : List Cursor) :
    typeNode? b later = declared? (deciding b later) := by
  have hinit : (b.child? .initializerClause).isSome = isInitialized b := rfl
  rw [typeNode?, hinit, ← declared?_eq_find?, deciding, isIncomplete]
  cases hasc : ascribed? b with
  | some t =>
    have hann : isAnnotated b = true := by
      cases h : isAnnotated b with
      | true => rfl
      | false => rw [ascribed?_eq_none h] at hasc; cases hasc
    simp [declared?, hann, hasc]
  | none =>
    cases hann : isAnnotated b <;> cases hval : isInitialized b <;> simp [declared?, hann, hval, hasc]

theorem length_allFrom (m : ViewMode) (bs : List Cursor) : (allFrom m bs).length = bs.length := by
  induction bs with
  | nil => rfl
  | cons b later ih => rw [allFrom, List.length_cons, List.length_cons, ih]

/-- Each binding is read with those behind it. -/
theorem getElem?_allFrom {before : List Cursor} :
    (allFrom m (before ++ b :: later))[before.length]? = some (nameOf b, ofCursor m b later) := by
  induction before with
  | nil => rfl
  | cons a before ih => rw [List.cons_append, allFrom, List.length_cons, List.getElem?_cons_succ, ih]

end Binding

namespace Declaration

theorem read_of_variableDecl {m : ViewMode} {c : Cursor} (h : c.isKind .variableDecl = true) :
    read m c = (Binding.allFrom m (c.bindingsIn m)).map fun (name, v) =>
      .mk { Header.ofCursor m c with name := name } c (.binding v) := by
  rw [read_eq_readWith, readWith, if_pos h, variablesOf, Cursor.bindingsIn]
  cases c.child? .patternBindingList with
  | none => rfl
  | some list => rfl

/-- A `let` or `var` declares one variable for each binding. The variable of a binding has the type
    of the annotation of that binding; without annotation and value, it has the type that the next
    binding gets, if there is one. An annotation without a type counts as none where no value
    stands behind it. -/
theorem type_of_binding (m : ViewMode) {c : Cursor} (h : c.isKind .variableDecl = true) :
    (read m c).length = (c.bindingsIn m).length ∧
    ∀ before b later, c.bindingsIn m = before ++ b :: later →
      ∃ header v, (read m c)[before.length]? = some (.mk header c (.binding v)) ∧
        v.span = b.span ∧
        v.type = Binding.shapeOf (Binding.declared? (Binding.deciding b later)) ∧
        v.typeText = (Binding.declared? (Binding.deciding b later)).map Cursor.description := by
  rw [read_of_variableDecl h]
  refine ⟨by rw [List.length_map, Binding.length_allFrom], fun before b later hbs => ?_⟩
  have hread : (Binding.allFrom m (c.bindingsIn m))[before.length]? =
      some (Binding.nameOf b, Binding.ofCursor m b later) := by
    rw [hbs, Binding.getElem?_allFrom]
  rw [List.getElem?_map, hread, Option.map_some, ← Binding.typeNode?_eq]
  exact ⟨{ Header.ofCursor m c with name := Binding.nameOf b }, Binding.ofCursor m b later, rfl,
    rfl, rfl, rfl⟩

/-- Three variables, the first of which has the type of the second. -/
theorem type_of_binding_shared :
    ∃ c ∈ (Cursor.ofTree (parse "var x, y: Int, z = 0").tree).nodes,
      c.isKind .variableDecl = true ∧ (read .fixedUp c).length = 3 ∧
      ∃ header v, (read .fixedUp c)[0]? = some (.mk header c (.binding v)) ∧
        v.typeText = some "Int" := by
  have hfound : ((Cursor.ofTree (parse "var x, y: Int, z = 0").tree).nodes.any fun c =>
      c.isKind .variableDecl && ((c.bindingsIn .fixedUp).length == 3 &&
        match c.bindingsIn .fixedUp with
        | [] => false
        | b :: later => (Binding.declared? (Binding.deciding b later)).map Cursor.description ==
            some "Int")) = true := by
    decide +kernel
  obtain ⟨c, hc, hcond⟩ := List.any_eq_true.mp hfound
  simp only [Bool.and_eq_true, beq_iff_eq] at hcond
  obtain ⟨hkind, hlength, hfirst⟩ := hcond
  have htypes := type_of_binding .fixedUp hkind
  cases hbs : c.bindingsIn .fixedUp with
  | nil => rw [hbs] at hlength; cases hlength
  | cons b later =>
    rw [hbs] at hfirst
    obtain ⟨header, v, hread, -, -, htext⟩ := htypes.2 [] b later hbs
    refine ⟨c, hc, hkind, htypes.1.trans hlength, header, v, hread, ?_⟩
    rw [htext]
    exact beq_iff_eq.mp hfirst

/-- The annotation of `a` is incomplete, and yet `a` has the type of `b`. So what a list of bindings
    declares for the first of them is not always the type of its variable. -/
theorem type_of_binding_incomplete :
    ¬ ∀ c ∈ (Cursor.ofTree (parse "var a:, b: Int").tree).nodes, c.isKind .variableDecl = true →
      ∀ b later, c.bindingsIn .sourceAccurate = b :: later →
        (Binding.ofCursor .sourceAccurate b later).type =
          Binding.shapeOf (Binding.declared? (b :: later)) := by
  have hfound : ((Cursor.ofTree (parse "var a:, b: Int").tree).nodes.any fun c =>
      c.isKind .variableDecl &&
        match c.bindingsIn .sourceAccurate with
        | [] => false
        | b :: later => !(Binding.ofCursor .sourceAccurate b later).type.isEmpty &&
            (Binding.shapeOf (Binding.declared? (b :: later))).isEmpty) = true := by
    decide +kernel
  intro hall
  obtain ⟨c, hc, hcond⟩ := List.any_eq_true.mp hfound
  rw [Bool.and_eq_true] at hcond
  obtain ⟨hkind, hfirst⟩ := hcond
  cases hbs : c.bindingsIn .sourceAccurate with
  | nil => rw [hbs] at hfirst; cases hfirst
  | cons b later =>
    rw [hbs] at hfirst
    simp [hall c hc hkind b later hbs] at hfirst

end Declaration

end SwiftOutline
