/-
  SwiftOutline.Grammar.Attribute

  Attributes, modifiers and generic arguments, which other rules build on.
-/
import SwiftOutline.Grammar.Lookahead

namespace SwiftOutline

namespace Grammar

open SwiftOutline.Parser

/-- Generic arguments: `<A, B>`. -/
def genericArguments : Parser Unit :=
  node .genericArgumentClause do
    bump
    separatedUntil .gt (node .genericArgument (follow .type))
    require .gt .openGenericArguments

/-- Generic arguments if they directly follow. -/
def joinedGenericArguments : Parser Unit := do
  if ← seesJoined .lt then genericArguments

/-- Consumes a lexeme or a bracketed group of an attribute argument; tells whether there is one. -/
def attributeArgumentPart : Parser Bool := do
  match ← kind with
  | .comma | .rParen | .eof => pure false
  | _ =>
    bumpBalanced
    pure true

/-- One argument of an attribute, with or without label; it may be empty. -/
def attributeArgument : Parser Unit :=
  node .attributeArgument do
    let v ← view
    if v.kind.isNameLike && v.kindAt 1 == .colon then
      bump
      bump
    repeating attributeArgumentPart

/-- Arguments of an attribute: `(a, label: b)`. -/
def attributeArguments : Parser Unit :=
  node .attributeArguments do
    bump
    separatedUntil .rParen do
      attributeArgument
      pure true
    require .rParen .openAttributeArguments

/-- Arguments of an attribute if they directly follow. -/
def joinedAttributeArguments : Parser Unit := do
  if ← seesJoined .lParen then attributeArguments

/-- Consumes a member of the name of an attribute; tells whether there is one. -/
def attributeMember : Parser Bool := do
  let v ← view
  if v.kind == .dot && (v.kindAt 1).isNameLike then
    bump
    bump
    pure true
  else
    pure false

/-- One attribute: `@Name.Member<T>(arguments)`. -/
def attributeUse : Parser Unit :=
  node .attributeUse do
    bump
    if (← kind).isNameLike then
      bump
      repeating attributeMember
    else
      report .noAttributeName
    joinedGenericArguments
    joinedAttributeArguments

/-- The next attribute; tells whether there is one. -/
def nextAttribute : Parser Bool := do
  if ← sees .atSign then
    attributeUse
    pure true
  else
    pure false

/-- Attributes, if there are any. -/
def attributes : Parser Unit := do
  if ← sees .atSign then
    node .attributeList (repeating nextAttribute)

/-- One modifier with its detail: `private(set)`. -/
def modifier : Parser Unit :=
  node .modifier do
    bump
    if Lookahead.atModifierDetail (← view).lexemes then
      node .modifierDetail do
        bump
        bump
        bump

/-- The next modifier; tells whether there is one. -/
def nextModifier : Parser Bool := do
  if Lookahead.atModifier (← view).lexemes then
    modifier
    pure true
  else
    pure false

/-- Modifiers, if there are any. -/
def modifiers : Parser Unit := do
  if Lookahead.atModifier (← view).lexemes then
    node .modifierList (repeating nextModifier)

end Grammar

end SwiftOutline
