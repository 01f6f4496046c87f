/-
  SwiftOutline.Grammar.Pattern

  Patterns of `case` labels, `catch` clauses, loops and conditions, and the
  simpler patterns of variable declarations.

  Under `let` or `var` a bare name is bound; elsewhere it is an expression to
  compare with. Patterns such as `.some(let x)` keep their structure: a member,
  a call, and arguments that are patterns again.
-/
import SwiftOutline.Grammar.Block

namespace SwiftOutline

namespace Grammar

open SwiftOutline.Parser

/-- Whether a lexeme of this kind ends a pattern. -/
def endsPattern : TokenKind → Bool
  | .comma | .colon | .rParen | .rBracket | .rBrace | .lBrace | .eq | .kwWhere | .kwIn | .kwElse
  | .kwAs | .semicolon | .eof => true
  | _ => false

/-! ## Matching patterns -/

/-- The label of an element or argument, if there is one. -/
def patternLabel : Parser Unit := do
  let v ← view
  if v.kind.isArgumentLabel && v.kind != .underscore && v.kindAt 1 == .colon then
    bump
    bump

/-- A tuple pattern, which begins with the next lexeme. -/
def tuplePattern (binding : Bool) : Parser Unit :=
  node .tuplePattern do
    bump
    separatedUntil .rParen (node .tuplePatternElement do
      patternLabel
      follow (.pattern binding))
    require .rParen .openTuplePattern

/-- Arguments of a call in a pattern, which begin with the next lexeme. -/
def patternArguments (binding : Bool) : Parser Unit :=
  node .labeledExprList do
    bump
    separatedUntil .rParen (node .labeledExpr do
      patternLabel
      follow (.pattern binding))
    require .rParen .openPatternArguments

/-- Members and calls behind what an expression pattern begins with. -/
def patternSuffixes (binding : Bool) : Parser Unit :=
  repeating do
    let v ← view
    if v.kind == .dot && (v.kindAt 1).isNameLike then
      wrap .memberAccessExpr do
        bump
        bump
      pure true
    else if v.seesJoined .lParen then
      wrap .functionCallExpr (patternArguments binding)
      pure true
    else
      pure false

/-- What an expression pattern begins with: a literal, or a name with members and calls. Tells
    whether there is such a beginning. -/
def patternPrimary (binding : Bool) : Parser Bool := do
  let v ← view
  if v.kind.isLiteral then
    node .literalExpr bump
    pure true
  else if v.kind == .operator && v.text == "-" && !(v.gapAt 1).trivia
      && (v.kindAt 1 == .intLiteral || v.kindAt 1 == .floatLiteral) then
    node .literalExpr do
      bump
      bump
    pure true
  else if v.kind == .dot && (v.kindAt 1).isNameLike then
    node .memberAccessExpr do
      bump
      bump
    patternSuffixes binding
    pure true
  else
    match v.kind with
    | .ident | .kwSelf | .kwCapitalSelf | .kwSuper =>
      node .declReferenceExpr bump
      patternSuffixes binding
      pure true
    | _ => pure false

/-- Consumes a lexeme or closure of a pattern; what ends the pattern does so outside brackets. -/
def patternToken (depth : Nat) : Parser (Step Nat) := do
  let v ← view
  match v.kind with
  | .eof | .rBrace => pure (.stop depth)
  | .lBrace =>
    if depth == 0 then pure (.stop depth)
    else
      closure
      pure (.again depth)
  | .lParen | .lBracket =>
    bump
    pure (.again (depth + 1))
  | k =>
    if depth == 0 && endsPattern k then pure (.stop depth)
    else
      bump
      pure (.again (if k == .rParen || k == .rBracket then depth - 1 else depth))

/-- Everything up to the end of the pattern. -/
def patternTokens : Parser Unit :=
  .loop patternToken 0 fun _ => .done ()

/-- An expression to compare with. -/
def expressionPattern (binding : Bool) : Parser Bool := do
  if endsPattern (← kind) then
    report .noPattern
    pure false
  else
    node .expressionPattern do
      let structured ← patternPrimary binding
      unless endsPattern (← kind) do
        if structured then wrap .expr patternTokens else node .expr patternTokens
    pure true

/-- A pattern without `as` behind it. -/
def primaryPattern (binding : Bool) : Parser Bool := do
  let v ← view
  match v.kind with
  | .kwLet | .kwVar =>
    node .valueBindingPattern do
      bump
      follow' (.pattern true)
    pure true
  | .kwIs =>
    node .isTypePattern do
      bump
      follow' .type
    pure true
  | .lParen =>
    tuplePattern binding
    pure true
  | .underscore =>
    if endsPattern (v.kindAt 1) then
      node .wildcardPattern bump
      pure true
    else
      expressionPattern binding
  | .ident =>
    if binding && endsPattern (v.kindAt 1) then
      node .identifierPattern bump
      pure true
    else
      expressionPattern binding
  | _ => expressionPattern binding

/-- A pattern; `binding` under `let` or `var`. Tells whether there is one; if not, that is
    reported. -/
def pattern (binding : Bool) : Parser Bool := do
  if ← primaryPattern binding then
    if ← sees .kwAs then
      wrap .asPattern do
        bump
        follow' .type
    pure true
  else
    pure false

/-! ## Patterns of declarations -/

/-- What a variable declaration binds: a name, `_`, or a tuple of such. -/
def bindingPattern : Parser Unit := do
  match ← kind with
  | .ident => node .identifierPattern bump
  | .underscore => node .wildcardPattern bump
  | .lParen =>
    node .tuplePattern do
      bump
      separatedUntil .rParen (node .tuplePatternElement do
        follow' .bindingPattern
        pure true)
      require .rParen .openTuplePattern
  | _ => report .noVariableName

end Grammar

end SwiftOutline
