/-
  SwiftOutline.Grammar.Item

  Lists of declarations and statements, conditional compilation, and the whole
  grammar put together.
-/
import SwiftOutline.Grammar.Statement

namespace SwiftOutline

namespace Grammar

open SwiftOutline.Parser

/-! ## Conditional compilation -/

/-- The condition of a directive, which ends with the line. -/
def directiveCondition : Parser Unit :=
  node .ifConfigCondition do
    let v ← view
    if v.atEnd || v.gap.newline then report .noDirectiveCondition
    else
      bumpBalanced
      repeating do
        let v ← view
        if v.atEnd || v.gap.newline then pure false
        else
          bumpBalanced
          pure true

/-- One branch: a directive and the items up to the next one. -/
def directiveBranch (scope : Scope) : Parser Unit :=
  node .ifConfigClause do
    let unconditional ← sees .poundElse
    bump
    unless unconditional do directiveCondition
    follow' (.items scope)

/-- A block of branches: `#if ... #elseif ... #else ... #endif`. -/
def directiveBlock (scope : Scope) : Parser Unit :=
  node .ifConfigDecl do
    inDirective do
      directiveBranch scope
      repeating do
        match ← kind with
        | .poundElseif | .poundElse =>
          directiveBranch scope
          pure true
        | _ => pure false
    require .poundEndif .noEndif

/-! ## Items -/

/-- Whether a list of items ends before the next lexeme. -/
def endsItems (scope : Scope) (v : View) : Bool :=
  match v.kind with
  | .rBrace => true
  | .poundElseif | .poundElse | .poundEndif => 0 < v.directives
  | .kwCase | .kwDefault => scope == .caseBody
  | .atSign => scope == .caseBody && v.spellsAt 1 "unknown"
  | _ => false

/-- A declaration or, where they are allowed, a statement. Among members a statement is set
    aside. -/
def declarationOrStatement (scope : Scope) : Parser Unit := do
  let v ← view
  match Lookahead.declaration? scope v.lexemes with
  | some k => declaration k
  | none =>
    if scope != .member then statement
    else if v.kind.isCloser then recover .strayCloser
    else
      report .noDeclaration
      node .unexpected statement

/-- One item. -/
def item (scope : Scope) : Parser Unit := do
  match ← kind with
  | .semicolon => bump
  | .poundIf => directiveBlock scope
  | .poundElseif | .poundElse | .poundEndif => recover .strayDirective
  | k =>
    if scope != .switchCases then declarationOrStatement scope
    else if k == .kwCase || k == .kwDefault || k == .atSign then switchCase
    else recover .noSwitchCase

/-- Items up to the end of the list. An item that consumes nothing is set aside. -/
def items (scope : Scope) : Parser Unit :=
  repeating do
    let before ← view
    if before.atEnd || endsItems scope before then pure false
    else
      item scope
      let after ← view
      if after.lexemes.length == before.lexemes.length then recover .strayToken
      pure true

/-- The items of a whole file. What ends a list of items has nothing to end here and is set
    aside. -/
def file : Parser Unit := do
  follow' (.items .topLevel)
  repeating do
    if (← view).atEnd then pure false
    else
      recover .topLevelToken
      follow' (.items .topLevel)
      pure true

/-! ## The grammar -/

/-- What each rule stands for. -/
def body : Rule → Parser Bool
  | .items scope => do
    items scope
    pure true
  | .type => typeExpr
  | .pattern binding => pattern binding
  | .bindingPattern => do
    bindingPattern
    pure true
  | .expr place => expression place
  | .ifStmt => do
    ifStmt
    pure true

/-- Follows a rule, with rules called inside each other at most `depth` deep. -/
def runRule : (depth : Nat) → Rule → State → Bool × State
  | 0, _, s => (false, s)
  | depth + 1, r, s => (body r).run (runRule depth) s

/-- How deep rules can be called inside each other when `n` lexemes are left: no more than three
    rules follow each other without a lexeme consumed in between. -/
def depthBound (n : Nat) : Nat := 4 * (n + 1)

end Grammar

end SwiftOutline
