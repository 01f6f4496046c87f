/-
  SwiftOutline.Outline.Generics

  Generic parameters, requirements and inheritance, as values read from a tree.
-/
import SwiftOutline.Tree.ViewMode

namespace SwiftOutline

/-! ## Parameters -/

/-- A generic parameter. -/
structure GenericParameter where
  name : String
  /-- The type it has to conform to. -/
  bound : Option String
  /-- It is declared with `each`. -/
  isPack : Bool
  deriving DecidableEq, Repr, Inhabited

namespace GenericParameter

/-- Reads a generic parameter; without a name there is none. -/
def ofCursor? (m : ViewMode) (c : Cursor) : Option GenericParameter :=
  (c.child? .declaredName).map fun name =>
    { name := name.description
      bound := (c.typeIn? m).map Cursor.description
      isPack := (c.tokenOf? .ident).any fun t => t.text == "each" }

end GenericParameter

/-! ## Requirements -/

/-- How a requirement relates its two sides. -/
inductive Relation where
  /-- The sides are the same type. -/
  | sameType
  /-- The left side conforms to the right one. -/
  | conformance
  /-- The type has the layout on the right side. -/
  | layout
  deriving DecidableEq, Repr, Inhabited

/-- A requirement of a `where` clause. The left side of a layout requirement is always `Self`. -/
structure Requirement where
  left : String
  right : String
  relation : Relation
  deriving DecidableEq, Repr, Inhabited

namespace Requirement

/-- The relation that a node states. -/
def relation? : NodeKind → Option Relation
  | .sameTypeRequirement => some .sameType
  | .conformanceRequirement => some .conformance
  | .layoutRequirement => some .layout
  | _ => none

/-- Reads a requirement. -/
def ofCursor? (m : ViewMode) (c : Cursor) : Option Requirement := do
  let relation ← c.tree.nodeKind?.bind relation?
  let types := (c.childrenIn m).filter Cursor.isType
  let left ← types.head?
  if relation == .layout then
    if c.hasToken .colon then some ⟨"Self", Text.trim (c.textAfter .colon), relation⟩ else none
  else
    some ⟨left.description, (types[1]?.map Cursor.description).getD "", relation⟩

end Requirement

/-- The generic parameters of a declaration and what is required of them. -/
structure Generics where
  parameters : List GenericParameter
  requirements : List Requirement
  deriving DecidableEq, Repr, Inhabited

namespace Generics

/-- Reads the generic parameters of a declaration. -/
def parametersOf (m : ViewMode) (c : Cursor) : List GenericParameter :=
  match c.child? .genericParameterClause with
  | some clause => (clause.childrenOf m .genericParameter).filterMap (GenericParameter.ofCursor? m)
  | none => []

/-- Reads the requirements of a declaration: those among its generic parameters and those of its
    own `where` clause. -/
def requirementsOf (m : ViewMode) (c : Cursor) : List Requirement :=
  let inner := (c.child? .genericParameterClause).bind fun p => p.child? .genericWhereClause
  let clauses := inner.toList ++ (c.child? .genericWhereClause).toList
  clauses.flatMap fun clause => (clause.childrenIn m).filterMap (Requirement.ofCursor? m)

/-- Reads the generic parameters and requirements of a declaration. -/
def ofCursor (m : ViewMode) (c : Cursor) : Generics := ⟨parametersOf m c, requirementsOf m c⟩

end Generics

/-! ## Inheritance -/

/-- The inherited types of a declaration, as they are written. -/
def inheritanceOf (m : ViewMode) (c : Cursor) : List String :=
  match c.child? .inheritanceClause with
  | some clause =>
    ((clause.childrenOf m .inheritedType).map Cursor.description).filter fun t => !t.isEmpty
  | none => []

end SwiftOutline
