/-
  SwiftOutline.Grammar.Signature

  Generic clauses, inheritance, initial values and function signatures.
-/
import SwiftOutline.Grammar.TypeExpr

namespace SwiftOutline

namespace Grammar

open SwiftOutline.Parser

/-! ## Names and values -/

/-- A declared name. -/
def name : Parser Unit := do
  if ← sees .ident then node .declaredName bump else report .noName

/-- The value behind the next lexeme, a `=`. -/
def initializerClause (place : Place) : Parser Unit :=
  node .initializerClause do
    bump
    follow' (.expr place)

/-- An initial value, if there is one. -/
def initialValue : Parser Unit := do
  if ← sees .eq then initializerClause .initializer

/-! ## Generics -/

/-- Names of layout constraints. -/
def layoutConstraints : List String :=
  ["_Trivial", "_TrivialAtMost", "_TrivialStride", "_UnknownLayout", "_RefCountedObject",
    "_NativeRefCountedObject", "_Class", "_NativeClass", "_BridgeObject"]

/-- One requirement of a `where` clause: `A == B`, `A: B`, or a layout constraint. -/
def requirement : Parser Unit := do
  let _ ← node? do
    if ← follow .type then
      let v ← view
      if v.kind == .colon then
        bump
        let v ← view
        if v.kind == .ident && layoutConstraints.contains v.text then
          bump
          if ← sees .lParen then bumpBalanced
          pure (some .layoutRequirement)
        else
          follow' .type
          pure (some .conformanceRequirement)
      else if v.kind == .operator && v.text == "==" then
        bump
        follow' .type
        pure (some .sameTypeRequirement)
      else
        report .noRequirementRelation
        pure none
    else
      pure none

/-- A `where` clause, if there is one. -/
def whereRequirements : Parser Unit := do
  if ← sees .kwWhere then
    node .genericWhereClause do
      bump
      separated do
        requirement
        pure true

/-- One generic parameter: `each T: Bound`. -/
def genericParameter : Parser Unit :=
  node .genericParameter do
    attributes
    let v ← view
    if v.spells "each" && v.kindAt 1 == .ident then bump
    name
    if ← eat .colon then follow' .type

/-- Generic parameters: `<T, U: Bound>`. -/
def genericParameterClause : Parser Unit :=
  node .genericParameterClause do
    bump
    separatedUntil .gt do
      genericParameter
      pure true
    whereRequirements
    require .gt .openGenericParameters

/-- Generic parameters, if there are any. -/
def genericParameters : Parser Unit := do
  if ← sees .lt then genericParameterClause

/-- Primary associated types of a protocol: `<Element, Failure>`. -/
def primaryAssociatedTypes : Parser Unit :=
  node .primaryAssociatedTypeClause do
    bump
    separatedUntil .gt do
      let named ← sees .ident
      name
      pure named
    require .gt .openPrimaryTypes

/-- One inherited type; `class` and a suppressed `~Protocol` are such too. -/
def inheritedType : Parser Unit :=
  node .inheritedType do
    let v ← view
    if v.kind == .operator && v.text == "~" then bump
    if ← sees .kwClass then bump else follow' .type

/-- An inheritance clause, if there is one. -/
def inheritance : Parser Unit := do
  if ← sees .colon then
    node .inheritanceClause do
      bump
      separated do
        inheritedType
        pure true

/-! ## Parameters -/

/-- The names of a parameter: an external and an internal one, or one for both. A parameter of a
    closure may consist of its name alone. -/
def parameterNames : Parser Unit := do
  let v ← view
  if v.kind.isArgumentLabel then
    let second := v.kindAt 1
    if second == .colon then bump
    else if second.isArgumentLabel && v.kindAt 2 == .colon then
      bump
      bump
    else if second == .comma || second == .rParen then bump

/-- One parameter: `@attribute label name: T... = value`. -/
def parameter : Parser Unit :=
  node .parameter do
    attributes
    parameterNames
    if ← eat .colon then follow' .type
    else
      match ← kind with
      | .comma | .rParen => pure ()
      | _ => report .noParameterType
    let _ ← eat .ellipsis
    initialValue

/-- A parameter list, which begins with the next lexeme. -/
def parameterClause : Parser Unit :=
  node .parameterClause do
    bump
    separatedUntil .rParen do
      let before ← view
      parameter
      let after ← view
      pure (after.lexemes.length != before.lexemes.length)
    require .rParen .openParameterList

/-- Parameters, effects and result: `(a: A) async throws -> B`. -/
def functionSignature : Parser Unit :=
  node .functionSignature do
    if ← sees .lParen then parameterClause else report .noParameterList
    effects
    optionalReturnClause

end Grammar

end SwiftOutline
