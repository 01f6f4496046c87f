/-
  SwiftOutline.Outline.Attribute

  Attributes, modifiers and effect specifiers, as values read from a tree.
-/
import SwiftOutline.Tree.ViewMode

namespace SwiftOutline

/-! ## Attributes -/

/-- An argument of an attribute. -/
structure AttributeArgument where
  label : Option String
  value : String
  deriving DecidableEq, Repr, Inhabited

/-- An attribute, named without its `@`. -/
structure Attribute where
  name : String
  arguments : List AttributeArgument
  deriving DecidableEq, Repr, Inhabited

namespace AttributeArgument

/-- Reads an argument. It has a label if its second token is a colon. -/
def ofCursor (c : Cursor) : AttributeArgument :=
  match c.tokensIn .sourceAccurate with
  | first :: second :: _ =>
    if second.kind == .colon then ⟨some first.text, Text.trim (c.textAfter .colon)⟩
    else ⟨none, c.description⟩
  | _ => ⟨none, c.description⟩

end AttributeArgument

namespace Attribute

/-- Reads an attribute. -/
def ofCursor (m : ViewMode) (c : Cursor) : Attribute where
  name := String.join ((c.significantTokens.filter fun t => t.kind != .atSign).map Token.text)
  arguments :=
    match c.child? .attributeArguments with
    | some list => (list.childrenOf m .attributeArgument).map AttributeArgument.ofCursor
    | none => []

/-- The attributes in front of a declaration, parameter or type. -/
def allIn (m : ViewMode) (c : Cursor) : List Attribute :=
  (c.childrenOf m .attributeList).flatMap fun list =>
    (list.childrenOf m .attributeUse).map (ofCursor m)

end Attribute

/-! ## Modifiers -/

/-- A modifier, with the detail that may stand behind it in parentheses. -/
structure Modifier where
  name : String
  detail : Option String
  deriving DecidableEq, Repr, Inhabited

namespace Modifier

/-- Reads a modifier. -/
def ofCursor? (m : ViewMode) (c : Cursor) : Option Modifier := do
  let first ← c.firstSignificant?
  let detail := do
    let detail ← c.child? .modifierDetail
    let word ← (detail.tokensIn m).find? fun t => t.kind == .ident
    pure word.text
  pure ⟨first.text, detail⟩

/-- The modifiers of a declaration. -/
def allIn (m : ViewMode) (c : Cursor) : List Modifier :=
  match c.child? .modifierList with
  | some list => (list.childrenOf m .modifier).filterMap (ofCursor? m)
  | none => []

end Modifier

/-! ## Effects -/

/-- Effect specifiers as they are written: `async` or `reasync`, and `throws` or `rethrows` with
    the type of what is thrown. -/
structure Effects where
  async : Option String := none
  throws : Option String := none
  deriving DecidableEq, Repr, Inhabited

namespace Effects

/-- Whether no effect is specified. -/
def isEmpty (e : Effects) : Bool := e.async.isNone && e.throws.isNone

/-- Reads specifiers from elements; `pending` is the text of a `throws` whose type may follow. -/
def ofElements (e : Effects) (pending : Option String) : List Tree → Effects
  | [] =>
    match pending with
    | some text => { e with throws := some (Text.trim text) }
    | none => e
  | .leaf t :: rest =>
    if t.isTrivia then ofElements e pending rest
    else if t.kind == .kwThrows || t.kind == .kwRethrows then ofElements e (some t.text) rest
    else if t.kind == .ident && (t.text == "async" || t.text == "reasync") then
      ofElements { async := some t.text, throws := pending.or e.throws } none rest
    else ofElements e (pending.map (· ++ t.text)) rest
  | .node k children :: rest =>
    ofElements e (pending.map (· ++ (Tree.node k children).text)) rest

/-- The effect specifiers of a function, accessor or function type. -/
def ofCursor (c : Cursor) : Effects :=
  match c.child? .effectSpecifiers with
  | some list => ofElements {} none list.tree.children
  | none => {}

end Effects

/-! ## Initial values -/

/-- The text of the value behind the `=` of a binding, parameter or enum case. -/
def initialValue? (m : ViewMode) (c : Cursor) : Option String := do
  let clause ← c.child? .initializerClause
  let value ← (clause.childrenIn m).head?
  pure value.description

end SwiftOutline
