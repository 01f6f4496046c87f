/-
  SwiftOutline.Grammar.TypeExpr

  Type expressions: names with generic arguments, `[T]`, `[K: V]`, tuples,
  function types, `T?`, `T!`, `T.Type`, `A & B`, `some P`, and types with
  specifiers or attributes in front.
-/
import SwiftOutline.Grammar.Attribute

namespace SwiftOutline

namespace Grammar

open SwiftOutline.Parser

/-! ## Function tails -/

/-- Effect specifiers: `async throws(Failure)`. -/
def effectSpecifiers : Parser Unit :=
  node .effectSpecifiers do
    repeating do
      let ls := (← view).lexemes
      if Lookahead.atEffect ls then
        bump
        if Lookahead.atThrows ls then
          if ← seesJoined .lParen then
            bump
            follow' .type
            require .rParen .openThrownType
        pure true
      else
        pure false

/-- Effect specifiers, if there are any. -/
def effects : Parser Unit := do
  if Lookahead.atEffect (← view).lexemes then effectSpecifiers

/-- The result type behind the next lexeme, an arrow. -/
def returnClause : Parser Unit :=
  node .returnClause do
    bump
    follow' .type

/-- A result type, if there is one. -/
def optionalReturnClause : Parser Unit := do
  if ← sees .arrow then returnClause

/-! ## Labels -/

/-- One or two labels with a colon, if they come next. -/
def labels : Parser Unit := do
  let v ← view
  if v.kind.isArgumentLabel then
    if v.kindAt 1 == .colon then
      bump
      bump
    else if (v.kindAt 1).isArgumentLabel && v.kindAt 2 == .colon then
      bump
      bump
      bump

/-! ## Types -/

/-- Words that specify how a value of the type is passed. -/
def typeSpecifiers : List String :=
  ["borrowing", "consuming", "__owned", "__shared", "sending", "isolated"]

/-- Whether a lexeme of this kind begins a type. -/
def beginsType : TokenKind → Bool
  | .ident | .kwCapitalSelf | .lParen | .lBracket => true
  | _ => false

/-- Whether a type specifier comes next. The specifying words are ordinary names unless a type or
    an attribute follows. -/
def atTypeSpecifier (v : View) : Bool :=
  v.kind == .kwInout
    || (v.kind == .ident && typeSpecifiers.contains v.text
      && (beginsType (v.kindAt 1) || v.kindAt 1 == .atSign))

/-- A name with generic arguments and members: `Swift.Array<Int>.Index`. -/
def simpleType : Parser Unit :=
  node .simpleType do
    bump
    joinedGenericArguments
    repeating do
      let v ← view
      if v.kind == .dot && (v.kindAt 1 == .ident || v.kindAt 1 == .kwCapitalSelf)
          && !v.spellsAt 1 "Type" && !v.spellsAt 1 "Protocol" then
        bump
        bump
        joinedGenericArguments
        pure true
      else
        pure false

/-- An array or dictionary type: `[T]`, `[K: V]`. -/
def collectionType : Parser Unit := do
  let _ ← node? do
    bump
    follow' .type
    let keyed ← eat .colon
    if keyed then follow' .type
    require .rBracket .openCollectionType
    pure (some (if keyed then .dictionaryType else .arrayType))

/-- One element of a tuple type: `first second: T...`. -/
def tupleTypeElement : Parser Bool :=
  node .tupleTypeElement do
    labels
    let parsed ← follow .type
    let _ ← eat .ellipsis
    pure parsed

/-- A tuple type: `(A, label: B)`. -/
def tupleType : Parser Unit :=
  node .tupleType do
    bump
    separatedUntil .rParen tupleTypeElement
    require .rParen .openTupleType

/-- A type without anything behind it. -/
def primaryType : Parser Bool := do
  match ← kind with
  | .ident | .kwCapitalSelf | .underscore =>
    simpleType
    pure true
  | .lBracket =>
    collectionType
    pure true
  | .lParen =>
    tupleType
    pure true
  | _ =>
    report .noType
    pure false

/-- One mark behind a type: `?` and `!` only directly behind it, `.Type`, `.Protocol`. -/
def typeSuffix : Parser Bool := do
  let v ← view
  match v.kind with
  | .question =>
    if v.gap.trivia then pure false
    else
      wrap .optionalType bump
      pure true
  | .exclamation =>
    if v.gap.trivia then pure false
    else
      wrap .implicitlyUnwrappedOptionalType bump
      pure true
  | .dot =>
    if v.spellsAt 1 "Type" || v.spellsAt 1 "Protocol" then
      wrap .metatypeType do
        bump
        bump
      pure true
    else
      pure false
  | _ => pure false

/-- What follows a type: an arrow makes a tuple type the input of a function type. -/
def typeTail (tuple : Bool) : Parser Unit := do
  if tuple && Lookahead.atFunctionTail (← view).lexemes then
    wrap .functionType do
      effects
      returnClause
  repeating typeSuffix

/-- A type with the marks behind it. -/
def postfixType : Parser Bool := do
  let tuple ← sees .lParen
  if ← primaryType then
    typeTail tuple
    pure true
  else
    pure false

/-- An `&` with the type behind it; tells whether there is one. -/
def joinedType : Parser Bool := do
  if ← eat .amp then
    let _ ← postfixType
    pure true
  else
    pure false

/-- Types joined by `&`. -/
def compositionType : Parser Bool := do
  if ← postfixType then
    if ← sees .amp then
      wrap .compositionType (repeating joinedType)
    pure true
  else
    pure false

/-- Consumes a type specifier; tells whether there is one. -/
def typeSpecifier : Parser Bool := do
  if atTypeSpecifier (← view) then
    bump
    pure true
  else
    pure false

/-- A type. Tells whether there is one; if not, that is reported. -/
def typeExpr : Parser Bool := do
  let v ← view
  if atTypeSpecifier v || v.kind == .atSign then
    node .attributedType do
      repeating typeSpecifier
      attributes
      follow' .type
    pure true
  else if (v.spells "some" || v.spells "any") && beginsType (v.kindAt 1)
      && !(v.gapAt 1).newline then
    node .someOrAnyType do
      bump
      let _ ← compositionType
    pure true
  else
    compositionType

/-- The type of a binding behind the next lexeme, a colon. -/
def ascription : Parser Unit :=
  node .ascription do
    bump
    follow' .type

/-- The type of a binding, if there is one. -/
def optionalAscription : Parser Unit := do
  if ← sees .colon then ascription

end Grammar

end SwiftOutline
