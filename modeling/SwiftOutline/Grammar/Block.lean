/-
  SwiftOutline.Grammar.Block

  Braced blocks: code blocks, accessor blocks and closures.
-/
import SwiftOutline.Grammar.Signature

namespace SwiftOutline

namespace Grammar

open SwiftOutline.Parser

/-! ## Code blocks -/

/-- A block of statements. -/
def codeBlock : Parser Unit := do
  if ← sees .lBrace then
    node .codeBlock do
      bump
      follow' (.items .block)
      require .rBrace .openBlock
  else
    report .noBlock

/-- A block of statements, if there is one. -/
def optionalCodeBlock : Parser Unit := do
  if ← sees .lBrace then codeBlock

/-! ## Accessors -/

/-- The parameter of an accessor, if there is one. -/
def accessorParameter : Parser Unit := do
  if ← sees .lParen then
    node .accessorParameter do
      bump
      require .ident .noAccessorParameter
      require .rParen .openAccessorParameter

/-- One accessor: `mutating set(newValue) throws { ... }`. -/
def accessor : Parser Unit :=
  node .accessor do
    attributes
    modifiers
    bump
    accessorParameter
    effects
    optionalCodeBlock

/-- An accessor block, which begins with the next lexeme: accessors, or the statements of a
    getter. -/
def accessorBlock : Parser Unit :=
  node .accessorBlock do
    bump
    if Lookahead.atAccessor (← view).lexemes then
      repeating do
        let v ← view
        if v.kind == .rBrace || v.atEnd then pure false
        else
          if Lookahead.atAccessor v.lexemes then accessor
          else if v.kind == .poundIf then recover .conditionalAccessor
          else recover .noAccessor
          pure true
    else
      follow' (.items .block)
    require .rBrace .openAccessorBlock

/-! ## Closures -/

/-- Parameter names of a closure without parentheses. -/
def closureNames : Parser Unit :=
  repeating do
    match ← kind with
    | .ident | .underscore =>
      bump
      eat .comma
    | _ => pure false

/-- The signature of a closure: attributes, captures, parameters, effects and result. -/
def closureSignature : Parser Unit :=
  node .closureSignature do
    attributes
    if ← sees .lBracket then bumpBalanced
    if ← sees .lParen then parameterClause else closureNames
    effects
    optionalReturnClause
    require .kwIn .noClosureIn

/-- What follows the opening brace of a closure. -/
def closureRest : Parser Unit := do
  if Lookahead.atClosureSignature (← view).lexemes then closureSignature
  follow' (.items .block)
  require .rBrace .openClosure

/-- A closure, which begins with the next lexeme. -/
def closure : Parser Unit :=
  node .closureExpr do
    bump
    closureRest

/-- Labelled closures behind a closure: `label: { ... }`. -/
def trailingClosures : Parser Unit :=
  repeating do
    let v ← view
    if (v.kind == .ident || v.kind == .underscore) && !v.gap.newline
        && v.kindAt 1 == .colon && v.kindAt 2 == .lBrace then
      bump
      bump
      closure
      pure true
    else
      pure false

end Grammar

end SwiftOutline
