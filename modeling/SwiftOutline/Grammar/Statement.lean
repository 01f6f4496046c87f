/-
  SwiftOutline.Grammar.Statement

  Statements, and the cases of a `switch`.
-/
import SwiftOutline.Grammar.Declaration

namespace SwiftOutline

namespace Grammar

open SwiftOutline.Parser

/-! ## Cases -/

/-- Patterns with conditions: `pattern where condition, ...`. -/
def caseItems : Parser Unit :=
  separated do
    node .caseItem do
      let _ ← follow (.pattern false)
      optionalWhereClause
    pure true

/-- One case of a `switch`: its label and the statements behind it. -/
def switchCase : Parser Unit :=
  node .switchCase do
    attributes
    match ← kind with
    | .kwCase =>
      node .switchCaseLabel do
        bump
        caseItems
        require .colon .noCaseColon
    | .kwDefault =>
      node .switchDefaultLabel do
        bump
        require .colon .noDefaultColon
    | _ => report .noCaseLabel
    follow' (.items .caseBody)

/-! ## Statements -/

/-- What makes a `guard`. -/
def guardBody : Parser Unit := do
  bump
  conditions
  require .kwElse .noGuardElse
  codeBlock

/-- What makes a `while`. -/
def whileBody : Parser Unit := do
  bump
  conditions
  codeBlock

/-- What makes a `repeat`. -/
def repeatBody : Parser Unit := do
  bump
  codeBlock
  if ← expect .kwWhile .noRepeatWhile then follow' (.expr .statement)

/-- What makes a `for`. -/
def forBody : Parser Unit := do
  bump
  let _ ← eat .kwTry
  if (← view).spells "await" then bump
  let matching ← eat .kwCase
  let _ ← follow (.pattern (!matching))
  optionalAscription
  if ← expect .kwIn .noForIn then follow' (.expr .condition)
  optionalWhereClause
  codeBlock

/-- What makes a `do`, its `catch` clauses included. -/
def doBody : Parser Unit := do
  bump
  effects
  codeBlock
  repeating do
    if ← sees .kwCatch then
      node .catchClause do
        bump
        unless ← sees .lBrace do caseItems
        codeBlock
      pure true
    else
      pure false

/-- What makes a `return`. -/
def returnBody : Parser Unit := do
  bump
  let v ← view
  unless v.gap.newline || v.kind == .rBrace || v.kind == .semicolon || v.atEnd do
    follow' (.expr .statement)

/-- What makes a `break` or `continue`, its label included. -/
def jumpBody : Parser Unit := do
  bump
  let v ← view
  if v.kind == .ident && !v.gap.newline then bump

/-- Whether the label of a statement comes next. -/
def atStatementLabel (v : View) : Bool :=
  v.kind == .ident && v.kindAt 1 == .colon
    && match v.kindAt 2 with
      | .kwFor | .kwWhile | .kwRepeat | .kwDo | .kwIf | .kwSwitch => true
      | _ => false

/-- What makes a statement behind its label, and the kind of the statement; `none` if there is no
    statement. -/
def statementBody : Parser (Option NodeKind) := do
  let k ← kind
  match k with
  | .kwIf => ifBody; pure (some .ifStmt)
  | .kwGuard => guardBody; pure (some .guardStmt)
  | .kwWhile => whileBody; pure (some .whileStmt)
  | .kwRepeat => repeatBody; pure (some .repeatStmt)
  | .kwFor => forBody; pure (some .forStmt)
  | .kwDo => doBody; pure (some .doStmt)
  | .kwSwitch => switchBody; pure (some .switchExpr)
  | .kwDefer => bump; codeBlock; pure (some .deferStmt)
  | .kwReturn => returnBody; pure (some .returnStmt)
  | .kwThrow => bump; follow' (.expr .statement); pure (some .throwStmt)
  | .kwBreak => jumpBody; pure (some .breakStmt)
  | .kwContinue => jumpBody; pure (some .continueStmt)
  | .kwFallthrough => bump; pure (some .fallthroughStmt)
  | k =>
    if beginsExpr .statement k then
      follow' (.expr .statement)
      pure (some .exprStmt)
    else
      pure none

/-- A statement. A `case` outside an enumeration and a stray closing bracket are set aside. -/
def statement : Parser Unit := do
  let k ← kind
  if k == .kwCase then
    report .strayCase
    node .unexpected (declaration .enumCaseDecl)
  else if k.isCloser then recover .strayCloser
  else
    let found ← node? do
      if atStatementLabel (← view) then
        bump
        bump
      statementBody
    unless found do recover .noStatement

end Grammar

end SwiftOutline
