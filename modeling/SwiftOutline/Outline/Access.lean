/-
  SwiftOutline.Outline.Access

  Ways into an outline: which declaration, at which depth, and which of its
  properties. What a search has found is kept by place, and read later.
-/
import SwiftOutline.Outline.Collect

namespace SwiftOutline

/-! ## Nested declarations -/

namespace Branch

/-- The declarations of a branch. -/
def declarations : Branch → List Declaration
  | mk _ _ ds => ds

end Branch

namespace Details

/-- The declarations that are nested directly in one with these details. -/
def nested : Details → List Declaration
  | nominal _ _ _ ds | function _ _ _ ds | initializer _ _ _ ds | deinitializer _ ds
  | subscript _ _ _ ds | switch _ ds => ds
  | conditional branches => branches.flatMap Branch.declarations
  | binding _ | typeAlias _ _ _ | moduleImport _ _ | operator _ _ | precedenceGroup _ => []

end Details

namespace Declaration

/-- The declaration at a path: at each depth, which of the nested ones. -/
def at? (d : Declaration) : (path : List Nat) → Option Declaration
  | [] => some d
  | i :: path => d.details.nested[i]?.bind fun d => d.at? path

end Declaration

namespace Outline

/-- The declaration at a path. -/
def at? (o : Outline) : (path : List Nat) → Option Declaration
  | [] => none
  | i :: path => o[i]?.bind fun d => d.at? path

end Outline

/-! ## Properties -/

/-- What can be asked of a declaration. -/
inductive Property where
  | keyword | name | attributes | modifiers | description | details
  deriving DecidableEq, Repr, Inhabited

/-- The value of a property. -/
inductive Reading where
  | text (s : String)
  | attributes (as : List Attribute)
  | modifiers (ms : List Modifier)
  | details (d : Details)

namespace Property

/-- The value of a property of a declaration. -/
def of (p : Property) (d : Declaration) : Reading :=
  match p with
  | keyword => .text d.header.keyword
  | name => .text d.header.name
  | attributes => .attributes d.header.attributes
  | modifiers => .modifiers d.header.modifiers
  | description => .text d.header.description
  | details => .details d.details

end Property

/-! ## Handles -/

/-- A declaration that is not read yet: the place that it stands at, and which one it is of those
    that the place introduces. -/
structure Handle where
  place : Cursor
  index : Nat

namespace Handle

/-- How many declarations a node introduces: a `let` or `var` one for each binding. -/
def countAt (m : ViewMode) (c : Cursor) : Nat :=
  if c.isKind .variableDecl then
    ((c.child? .patternBindingList).map fun list =>
      (list.childrenOf m .patternBinding).length).getD 0
  else 1

/-- The declarations that a node introduces. -/
def allAt (m : ViewMode) (c : Cursor) : List Handle := (List.range (countAt m c)).map (mk c)

/-- All declarations at and below a cursor, in the order of an outline. -/
def allIn (m : ViewMode) (root : Cursor) : List Handle :=
  let nodes := root.gather (visitDeclarations m)
  DeclarationKind.all.flatMap fun k =>
    (nodes.filter fun c => c.tree.nodeKind?.bind DeclarationKind.ofNode? == some k).flatMap
      (allAt m)

/-- Reads a declaration. -/
def declaration? (m : ViewMode) (e : Handle) : Option Declaration :=
  (Declaration.read m e.place)[e.index]?

end Handle

end SwiftOutline
