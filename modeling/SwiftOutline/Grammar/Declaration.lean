/-
  SwiftOutline.Grammar.Declaration

  Declarations, one rule for what follows the attributes and modifiers of each
  kind.
-/
import SwiftOutline.Grammar.Expression

namespace SwiftOutline

namespace Grammar

open SwiftOutline.Parser

/-! ## Types and extensions -/

/-- The members of a type or extension. -/
def memberBlock : Parser Unit := do
  if ← sees .lBrace then
    node .memberBlock do
      bump
      follow' (.items .member)
      require .rBrace .openMemberBlock
  else
    report .noMemberBlock

/-- A class, structure, enumeration, actor or protocol. -/
def nominal (k : NodeKind) : Parser Unit := do
  bump
  name
  if ← sees .lt then
    if k == .protocolDecl then primaryAssociatedTypes else genericParameterClause
  inheritance
  whereRequirements
  memberBlock

/-- An extension. -/
def extensionRest : Parser Unit := do
  bump
  follow' .type
  inheritance
  whereRequirements
  memberBlock

/-- The type behind the next lexeme, a `=`. -/
def typeInitializer : Parser Unit :=
  node .typeInitializerClause do
    bump
    follow' .type

/-- A type alias. -/
def typeAlias : Parser Unit := do
  bump
  name
  genericParameters
  if ← sees .eq then typeInitializer else report .noTypealiasValue
  whereRequirements

/-- An associated type. -/
def associatedType : Parser Unit := do
  bump
  name
  inheritance
  if ← sees .eq then typeInitializer
  whereRequirements

/-! ## Functions -/

/-- Consumes a lexeme of an operator up to one that `stops` it; tells whether there is one. -/
def operatorPart (stops : TokenKind → Bool) : Parser Bool := do
  let v ← view
  if !v.gap.trivia && (v.kind.isOperatorLike || v.kind == .dot) && !stops v.kind then
    bump
    pure true
  else
    pure false

/-- An operator as a declared name. It goes on as long as its lexemes touch each other. -/
def operatorName (stops : TokenKind → Bool) : Parser Unit :=
  node .declaredName do
    bump
    repeating (operatorPart stops)

/-- The name of a function: an identifier or an operator. A `<` ends an operator, because generic
    parameters begin with it. -/
def functionName : Parser Unit := do
  let k ← kind
  if k == .ident then name
  else if k.isOperatorLike || k == .dot then operatorName (· == .lt)
  else
    report .noFunctionName

/-- What follows the name of a function. -/
def functionRest : Parser Unit := do
  genericParameters
  functionSignature
  whereRequirements
  optionalCodeBlock

/-- A function. -/
def function : Parser Unit := do
  bump
  functionName
  functionRest

/-- An initializer. -/
def initializer : Parser Unit := do
  bump
  let v ← view
  if v.seesJoined .question || v.seesJoined .exclamation then bump
  functionRest

/-- A deinitializer. -/
def deinitializer : Parser Unit := do
  bump
  effects
  optionalCodeBlock

/-- A subscript. -/
def subscript : Parser Unit := do
  bump
  genericParameters
  functionSignature
  whereRequirements
  if ← sees .lBrace then accessorBlock

/-! ## Variables -/

/-- The accessors of a binding, if there are any. Behind a value only observers follow. -/
def bindingAccessors (initialized : Bool) : Parser Unit := do
  let v ← view
  if v.kind == .lBrace && (!initialized || Lookahead.atObservers v.lexemes) then accessorBlock

/-- One binding: `name: Type = value { accessors }`. -/
def patternBinding : Parser Unit :=
  node .patternBinding do
    bindingPattern
    optionalAscription
    let initialized ← sees .eq
    if initialized then initializerClause .initializer
    bindingAccessors initialized

/-- Variables: `let a = 1, b = 2`. -/
def bindings : Parser Unit := do
  bump
  node .patternBindingList do
    separated do
      patternBinding
      pure true

/-! ## Imports, operators and precedence groups -/

/-- Whether what an import imports is named next, such as `func`. -/
def atImportKind (v : View) : Bool :=
  match v.kind with
  | .kwStruct | .kwClass | .kwEnum | .kwProtocol | .kwTypealias | .kwFunc | .kwLet | .kwVar => true
  | _ => v.spells "actor" && v.kindAt 1 == .ident

/-- Consumes a component of an import path, else reports `p`; tells which. -/
def importComponent (p : Problem) : Parser Bool := do
  let k ← kind
  if k == .ident || k.isOperatorLike then
    bump
    pure true
  else
    report p
    pure false

/-- A point with the component behind it; tells whether there is one. -/
def importMember : Parser Bool := do
  if ← eat .dot then importComponent .noImportComponent else pure false

/-- An import. -/
def importRest : Parser Unit := do
  bump
  if atImportKind (← view) then bump
  node .importPath do
    let _ ← importComponent .noModuleName
    repeating importMember

/-- Consumes a comma with the name behind it; tells whether there is one. -/
def commaName : Parser Bool := do
  let v ← view
  if v.kind == .comma && v.kindAt 1 == .ident then
    bump
    bump
    pure true
  else
    pure false

/-- The precedence groups of an operator. -/
def operatorPrecedence : Parser Unit :=
  node .operatorPrecedenceClause do
    bump
    require .ident .noPrecedenceGroup
    repeating commaName

/-- What follows the name of an operator. -/
def operatorRest : Parser Unit := do
  match ← kind with
  | .colon => operatorPrecedence
  | .lBrace => recover .operatorBody
  | _ => pure ()

/-- An operator. -/
def operator : Parser Unit := do
  bump
  let k ← kind
  if k.isOperatorLike || k == .ident || k == .dot then operatorName fun _ => false
  else report .noOperatorName
  operatorRest

/-- Consumes the comma before another value of a precedence group; tells whether there is one. -/
def groupComma : Parser Bool := do
  let v ← view
  if v.kind == .comma && v.kindAt 1 == .ident then
    bump
    pure true
  else
    pure false

/-- The values of an attribute of a precedence group. -/
def groupValues : Parser Unit :=
  repeating do
    match ← kind with
    | .ident | .kwTrue | .kwFalse => bump
    | _ => pure ()
    groupComma

/-- An attribute of a precedence group. -/
def groupAttribute : Parser Unit := do
  let v ← view
  if v.kind == .ident && v.kindAt 1 == .colon then
    node .precedenceGroupAttribute do
      bump
      bump
      groupValues
  else
    recover .noGroupAttribute

/-- A precedence group. -/
def precedenceGroup : Parser Unit := do
  bump
  name
  if ← expect .lBrace .noGroupBody then
    repeating do
      let v ← view
      if v.kind == .rBrace || v.atEnd then pure false
      else
        groupAttribute
        pure true
    require .rBrace .openGroupBody

/-! ## Cases of enumerations -/

/-- Associated values of an enum case, which begin with the next lexeme. -/
def associatedValues : Parser Unit :=
  node .enumCaseParameterClause do
    bump
    separatedUntil .rParen do
      node .enumCaseParameter do
        labels
        follow' .type
        initialValue
      pure true
    require .rParen .openAssociatedValues

/-- Cases of an enumeration: `case a, b(Int), c = 3`. -/
def enumCases : Parser Unit := do
  bump
  separated do
    node .enumCaseElement do
      name
      if ← sees .lParen then associatedValues
      initialValue
    pure true

/-! ## All declarations -/

/-- What follows the attributes and modifiers of a declaration of kind `k`. -/
def declarationRest (k : NodeKind) : Parser Unit :=
  match k with
  | .classDecl | .structDecl | .enumDecl | .actorDecl | .protocolDecl => nominal k
  | .extensionDecl => extensionRest
  | .functionDecl => function
  | .initializerDecl => initializer
  | .deinitializerDecl => deinitializer
  | .subscriptDecl => subscript
  | .variableDecl => bindings
  | .typeAliasDecl => typeAlias
  | .associatedTypeDecl => associatedType
  | .importDecl => importRest
  | .operatorDecl => operator
  | .precedenceGroupDecl => precedenceGroup
  | .enumCaseDecl => enumCases
  | _ => report .unsupportedDeclaration

/-- A declaration of kind `k`. -/
def declaration (k : NodeKind) : Parser Unit :=
  node k do
    attributes
    modifiers
    declarationRest k

end Grammar

end SwiftOutline
