/-
  SwiftOutline.Grammar.Expression

  Expressions, which are kept as runs of tokens with balanced brackets; only
  closures, `if` and `switch` inside them get a structure. What has to be
  decided is where a run ends.
-/
import SwiftOutline.Grammar.Pattern

namespace SwiftOutline

namespace Grammar

open SwiftOutline.Parser

/-! ## Where expressions begin and end -/

/-- Whether a lexeme of this kind begins an expression. -/
def beginsExpr (place : Place) (k : TokenKind) : Bool :=
  match k with
  | .eof | .comma | .semicolon | .colon | .rParen | .rBracket | .rBrace | .kwElse | .kwCatch
  | .kwIn | .kwWhere | .kwCase | .kwDefault | .kwStatic => false
  | .lBrace => !place.endsAtBrace
  | .kwIf | .kwSwitch => true
  | k => !k.isDirective && !k.isDeclKeyword && !k.isStatementKeyword

/-- An expression under way. -/
structure Run where
  /-- Number of open parentheses and brackets. -/
  depth : Nat := 0
  /-- Number of ternary operators whose colon is to come. -/
  ternaries : Nat := 0
  /-- An operand has to follow. -/
  wantsOperand : Bool := true
  /-- Kind of the last lexeme of the run. -/
  last : Option TokenKind := none
  deriving Repr, Inhabited

namespace Run

/-- Whether the run holds nothing yet. -/
def isEmpty (r : Run) : Bool := r.last.isNone

/-- Whether the run ends with a point, behind which a reserved word is a name. -/
def afterDot (r : Run) : Bool := r.last == some .dot

/-- The run behind a lexeme of kind `k`. -/
def push (r : Run) (k : TokenKind) (wantsOperand : Bool) : Run :=
  { r with wantsOperand := wantsOperand, last := some k }

end Run

/-- Whether a lexeme that begins a line continues the expression of the line before. -/
def continuesExpr (v : View) (r : Run) : Bool :=
  match v.kind with
  | .dot | .question | .kwAs | .kwIs => true
  | .colon => 0 < r.ternaries
  | .operator | .eq | .lt | .gt | .amp | .ellipsis | .arrow => (v.gapAt 1).trivia
  | _ => false

/-- Whether a reserved word ends an expression that is not inside brackets. -/
def wordEndsExpr (k : TokenKind) (r : Run) : Bool :=
  match k with
  | .kwElse | .kwCatch | .kwIn | .kwWhere | .kwCase | .kwDefault | .kwStatic => true
  | .kwIf | .kwSwitch => !r.wantsOperand
  | k => k.isDeclKeyword || k.isStatementKeyword

/-- Whether an expression that is not inside brackets ends before the next lexeme. -/
def exprEnds (place : Place) (v : View) (r : Run) : Bool :=
  match v.kind with
  | .comma | .semicolon | .rParen | .rBracket | .rBrace => true
  | k =>
    (k == .colon && r.ternaries == 0)
      || (k.isKeyword && !r.afterDot && wordEndsExpr k r)
      || (place.endsAtLine && v.gap.newline && !r.wantsOperand && !continuesExpr v r)

/-- Whether an operand has to follow the next lexeme. -/
def wantsOperandAfter (v : View) : Bool :=
  match v.kind with
  | .dot | .kwAs | .kwIs | .kwTry | .eq | .arrow | .amp | .lt | .ellipsis | .operator | .comma
  | .colon => true
  | .question | .exclamation | .gt => v.gap.trivia
  | .ident => v.spells "await"
  | _ => false

/-! ## Statements inside expressions -/

/-- A `where` clause with a condition, which begins with the next lexeme. -/
def whereClause : Parser Unit :=
  node .whereClause do
    bump
    follow' (.expr .condition)

/-- A `where` clause with a condition, if there is one. -/
def optionalWhereClause : Parser Unit := do
  if ← sees .kwWhere then whereClause

/-- The value of a pattern in a condition; `required` tells that it must be there. -/
def conditionValue (required : Bool) : Parser Unit := do
  if ← sees .eq then initializerClause .condition
  else if required then report .noCaseValue

/-- A pattern with the type and value that a condition gives it. -/
def patternCondition (required : Bool) : Parser Unit := do
  let _ ← follow (.pattern false)
  optionalAscription
  conditionValue required

/-- Conditions of an `if`, `guard` or `while`. -/
def conditions : Parser Unit :=
  separated do
    node .condition do
      match ← kind with
      | .kwLet | .kwVar => patternCondition false
      | .kwCase =>
        bump
        patternCondition true
      | _ => follow' (.expr .condition)
    pure true

/-- The `else` of an `if`, if there is one. -/
def elseBranch : Parser Unit := do
  if ← eat .kwElse then
    if ← sees .kwIf then follow' .ifStmt else codeBlock

/-- What makes an `if`, from the `if` on. -/
def ifBody : Parser Unit := do
  bump
  conditions
  codeBlock
  elseBranch

/-- An `if`, which begins with the next lexeme. -/
def ifStmt : Parser Unit := node .ifStmt ifBody

/-- What makes a `switch`, from the `switch` on. -/
def switchBody : Parser Unit := do
  bump
  follow' (.expr .condition)
  if ← expect .lBrace .noSwitchBody then
    follow' (.items .switchCases)
    require .rBrace .openSwitch

/-- A `switch`, which begins with the next lexeme. -/
def switchExpr : Parser Unit := node .switchExpr switchBody

/-! ## Expressions -/

/-- Takes a lexeme without any structure into the run. -/
def plainLexeme (v : View) (r : Run) : Parser (Step Run) := do
  bump
  pure (.again (r.push v.kind (wantsOperandAfter v)))

/-- Takes what comes next into the run, or ends it. -/
def exprStep (place : Place) (r : Run) : Parser (Step Run) := do
  let v ← view
  let k := v.kind
  if r.depth == 0 && !r.isEmpty && exprEnds place v r then pure (.stop r)
  else
    match k with
    | .eof | .rBrace | .poundIf | .poundElseif | .poundElse | .poundEndif => pure (.stop r)
    | .lParen | .lBracket =>
      bump
      pure (.again { r.push k true with depth := r.depth + 1 })
    | .rParen | .rBracket =>
      if r.depth == 0 then pure (.stop r)
      else
        bump
        pure (.again { r.push k false with depth := r.depth - 1 })
    | .lBrace =>
      if r.depth == 0 && !r.isEmpty
          && (place.endsAtBrace
            || (place.endsAtObservers && Lookahead.atObservers v.lexemes)) then
        pure (.stop r)
      else
        closure
        trailingClosures
        pure (.again (r.push k false))
    | .kwIf =>
      if r.wantsOperand && !r.afterDot then
        follow' .ifStmt
        pure (.again (r.push k false))
      else plainLexeme v r
    | .kwSwitch =>
      if r.wantsOperand && !r.afterDot then
        switchExpr
        pure (.again (r.push k false))
      else plainLexeme v r
    | .question =>
      if v.gap.trivia && (v.gapAt 1).trivia then
        bump
        pure (.again { r.push k true with ternaries := r.ternaries + 1 })
      else plainLexeme v r
    | .colon =>
      if r.depth == 0 then
        bump
        pure (.again { r.push k true with ternaries := r.ternaries - 1 })
      else plainLexeme v r
    | _ => plainLexeme v r

/-- An expression. Tells whether there is one; if not, that is reported and nothing consumed. -/
def expression (place : Place) : Parser Bool := do
  if beginsExpr place (← kind) then
    node .expr (.loop (exprStep place) {} fun r => do
      if 0 < r.depth then report .openBracket)
    pure true
  else
    report .noExpression
    pure false

end Grammar

end SwiftOutline
