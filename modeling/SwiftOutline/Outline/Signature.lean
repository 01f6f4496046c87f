/-
  SwiftOutline.Outline.Signature

  Signatures and accessors, as values read from a tree.
-/
import SwiftOutline.TypeShape.Classify

namespace SwiftOutline

/-! ## Signatures -/

/-- Parameters, effects and result of a function. -/
structure Signature where
  input : List (Parameter TypeShape) := []
  /-- The result type; none if no arrow is written. -/
  output : Option TypeShape := none
  /-- The result type as it is written. -/
  outputText : Option String := none
  effects : Effects := {}
  deriving Repr, Inhabited, BEq

namespace Signature

/-- Reads the signature of a declaration. -/
def ofCursor (m : ViewMode) (c : Cursor) : Signature :=
  match c.child? .functionSignature with
  | some signature =>
    let output := (signature.child? .returnClause).bind (Cursor.typeIn? m)
    { input := ((signature.child? .parameterClause).map (Parameter.ofClause m)).getD []
      output := output.map TypeShape.classify
      outputText := output.map Cursor.description
      effects := Effects.ofCursor signature }
  | none => {}

end Signature

/-! ## Accessors -/

/-- What an accessor does. -/
inductive AccessorKind where
  | get | set | willSet | didSet | modify | read | initial | address | mutableAddress
  deriving DecidableEq, Repr, Inhabited

namespace AccessorKind

/-- The accessor that a word introduces. -/
def ofWord? : String → Option AccessorKind
  | "get" => some get
  | "set" => some set
  | "willSet" => some willSet
  | "didSet" => some didSet
  | "_modify" | "modify" => some modify
  | "_read" | "read" => some read
  | "init" => some initial
  | "unsafeAddress" => some address
  | "unsafeMutableAddress" => some mutableAddress
  | _ => none

/-- Accessors that write the value. -/
def isMutating : AccessorKind → Bool
  | set | modify | initial | mutableAddress => true
  | _ => false

/-- Accessors that give the value. -/
def isReading : AccessorKind → Bool
  | get | read | address => true
  | _ => false

/-- Accessors that make a computed property assignable. -/
def isAssigning : AccessorKind → Bool
  | set | modify | mutableAddress => true
  | _ => false

end AccessorKind

/-- An accessor of a property or subscript. -/
structure Accessor where
  kind : AccessorKind
  modifier : Option String := none
  effects : Effects := {}
  /-- The name that it gives the new value. -/
  parameter : Option String := none
  hasBody : Bool
  deriving DecidableEq, Repr, Inhabited

namespace Accessor

/-- Reads an accessor; none if it begins with no accessor's word. -/
def ofCursor? (m : ViewMode) (c : Cursor) : Option Accessor := do
  let word ← c.significantTokens.head?
  let kind ← AccessorKind.ofWord? word.text
  let parameter := (c.child? .accessorParameter).bind fun p => p.tokenOf? .ident
  pure
    { kind := kind
      modifier := (Modifier.allIn m c).head?.map Modifier.name
      effects := Effects.ofCursor c
      parameter := parameter.map Token.text
      hasBody := (c.child? .codeBlock).isSome }

/-- Reads an accessor block. Statements in place of accessors make a getter. -/
def ofBlock (m : ViewMode) (c : Cursor) : List Accessor :=
  match (c.childrenOf m .accessor).filterMap (ofCursor? m) with
  | [] => [{ kind := .get, hasBody := true }]
  | accessors => accessors

/-- The accessors of a binding or subscript; none without an accessor block. -/
def allIn (m : ViewMode) (c : Cursor) : List Accessor :=
  ((c.child? .accessorBlock).map (ofBlock m)).getD []

end Accessor

end SwiftOutline
