/-
  SwiftOutline.Grammar.Parser

  Parsers as programs over a handful of operations, and the machine that runs
  them. A program can only look ahead, consume the next lexeme, report a
  problem, open a node around what it does next, and call a rule of the
  grammar; so what every operation keeps, every program keeps.
-/
import SwiftOutline.Grammar.Lexeme
import SwiftOutline.Grammar.Problem
import SwiftOutline.Tree.Basic

namespace SwiftOutline

/-! ## Rules

The grammar is recursive through the rules below and through nothing else. -/

/-- Where a list of items stands, which decides what an item may be and where the list ends. -/
inductive Scope where
  /-- The file: declarations and statements. -/
  | topLevel
  /-- The body of a type or extension: declarations only. -/
  | member
  /-- A block or closure: declarations and statements. -/
  | block
  /-- What follows the label of one `case` of a `switch`. -/
  | caseBody
  /-- The cases of a `switch`. -/
  | switchCases
  deriving DecidableEq, Repr, Inhabited

/-- Where an expression stands, which decides where it ends. -/
inductive Place where
  /-- An expression statement, or the value of `return` or `throw`. -/
  | statement
  /-- A condition, the sequence of a `for` or the subject of a `switch`. -/
  | condition
  /-- The value behind the `=` of a declaration. -/
  | initializer
  deriving DecidableEq, Repr, Inhabited

namespace Place

/-- A line break ends the expression unless the next line continues it. -/
def endsAtLine (p : Place) : Bool := p != .condition

/-- An opening brace outside all brackets ends the expression. -/
def endsAtBrace (p : Place) : Bool := p == .condition

/-- A block of property observers ends the expression. -/
def endsAtObservers (p : Place) : Bool := p == .initializer

end Place

/-- The recursive rules of the grammar. -/
inductive Rule where
  | items (scope : Scope)
  | type
  | pattern (binding : Bool)
  | bindingPattern
  | expr (place : Place)
  | ifStmt
  deriving DecidableEq, Repr, Inhabited

/-! ## Programs -/

/-- What one round of a loop decides. -/
inductive Step (σ : Type) where
  | again (state : σ)
  | stop (state : σ)

/-- Programs that parse. -/
inductive Parser : Type → Type 1 where
  /-- Does nothing. -/
  | done {α : Type} (a : α) : Parser α
  /-- Looks at what is left to parse. -/
  | look {α : Type} (next : View → Parser α) : Parser α
  /-- Consumes the next lexeme, if there is one. -/
  | consume {α : Type} (next : Parser α) : Parser α
  /-- Reports a problem at the next lexeme. -/
  | complain {α : Type} (p : Problem) (next : Parser α) : Parser α
  /-- Makes a node of all that `body` produces, or leaves it as it is when `body` names no kind.
      If `adopt`, the element produced last before becomes the first child. -/
  | group {α β : Type} (adopt : Bool) (body : Parser (β × Option NodeKind))
      (next : β → Parser α) : Parser α
  /-- Runs `body` inside one more `#if` block. -/
  | directive {α β : Type} (body : Parser β) (next : β → Parser α) : Parser α
  /-- Follows a rule, which tells whether it found what it looked for. -/
  | call {α : Type} (r : Rule) (next : Bool → Parser α) : Parser α
  /-- Repeats `body` until it decides to stop. -/
  | loop {α σ : Type} (body : σ → Parser (Step σ)) (init : σ) (next : σ → Parser α) : Parser α

namespace Parser

/-- Runs a program and then the one that its result selects. -/
def andThen {α β : Type} : Parser α → (α → Parser β) → Parser β
  | .done a, f => f a
  | .look next, f => .look fun v => (next v).andThen f
  | .consume next, f => .consume (next.andThen f)
  | .complain p next, f => .complain p (next.andThen f)
  | .group adopt body next, f => .group adopt body fun b => (next b).andThen f
  | .directive body next, f => .directive body fun b => (next b).andThen f
  | .call r next, f => .call r fun b => (next b).andThen f
  | .loop body init next, f => .loop body init fun s => (next s).andThen f

instance : Monad Parser where
  pure := .done
  bind := andThen

/-! ### Operations -/

/-- What is left to parse. -/
def view : Parser View := .look .done

/-- Kind of the next lexeme. -/
def kind : Parser TokenKind := .look fun v => .done v.kind

/-- Whether the next lexeme is a `k`. -/
def sees (k : TokenKind) : Parser Bool := .look fun v => .done (v.kind == k)

/-- Whether the next lexeme is a `k` that directly follows the one before it. -/
def seesJoined (k : TokenKind) : Parser Bool := .look fun v => .done (v.seesJoined k)

/-- Consumes the next lexeme, if there is one. -/
def bump : Parser Unit := .consume (.done ())

/-- Reports a problem at the next lexeme. -/
def report (p : Problem) : Parser Unit := .complain p (.done ())

/-- Follows a rule. -/
def follow (r : Rule) : Parser Bool := .call r .done

/-- Follows a rule whose outcome does not matter. -/
def follow' (r : Rule) : Parser Unit := .call r fun _ => .done ()

/-- Makes a `k` node of all that `body` produces. -/
def node {α : Type} (k : NodeKind) (body : Parser α) : Parser α :=
  .group false (body.andThen fun a => .done (a, some k)) .done

/-- Makes a node of all that `body` produces, of the kind it names, or none. Tells whether there
    is a node. -/
def node? (body : Parser (Option NodeKind)) : Parser Bool :=
  .group false (body.andThen fun k => .done (k.isSome, k)) .done

/-- Makes a `k` node of the element produced last and all that `body` produces. -/
def wrap {α : Type} (k : NodeKind) (body : Parser α) : Parser α :=
  .group true (body.andThen fun a => .done (a, some k)) .done

/-- Runs `body` inside one more `#if` block. -/
def inDirective {α : Type} (body : Parser α) : Parser α :=
  .directive body .done

/-- Repeats `body` for as long as it says so. -/
def repeating (body : Parser Bool) : Parser Unit :=
  .loop (fun _ => body.andThen fun b => .done (if b then .again () else .stop ())) () .done

/-- Consumes the next lexeme if it is a `k`, and tells whether it was. -/
def eat (k : TokenKind) : Parser Bool := do
  if ← sees k then
    bump
    pure true
  else
    pure false

/-- Consumes the next lexeme if it is a `k`, else reports `p`; tells which. -/
def expect (k : TokenKind) (p : Problem) : Parser Bool := do
  if ← eat k then
    pure true
  else
    report p
    pure false

/-- Consumes the next lexeme if it is a `k`, else reports `p`. -/
def require (k : TokenKind) (p : Problem) : Parser Unit := do
  let _ ← expect k p

/-- Elements with commas between them, for as long as each element says that it went well. -/
def separated (element : Parser Bool) : Parser Unit :=
  repeating do
    if ← element then eat .comma else pure false

/-- Elements with commas between them up to `closer` or the end, for as long as each element says
    that it went well. -/
def separatedUntil (closer : TokenKind) (element : Parser Bool) : Parser Unit :=
  repeating do
    let v ← view
    if v.kind == closer || v.atEnd then pure false
    else if ← element then eat .comma
    else pure false

/-- Bracket depth behind a token, saturating at zero. -/
def depthAfter (depth : Nat) (k : TokenKind) : Nat :=
  if k.isOpener then depth + 1 else if k.isCloser then depth - 1 else depth

/-- Consumes one lexeme inside `depth` brackets; stops outside of all. -/
def bumpInside (depth : Nat) : Parser (Step Nat) := do
  let v ← view
  if v.atEnd then pure (.stop depth)
  else
    bump
    let depth := depthAfter depth v.kind
    pure (if depth == 0 then .stop depth else .again depth)

/-- Consumes one lexeme, or, if it opens a bracket, everything up to the bracket that closes it. -/
def bumpBalanced : Parser Unit :=
  .loop bumpInside 0 fun _ => .done ()

/-- Reports a problem and sets what stands next aside in an `unexpected` node. -/
def recover (p : Problem) : Parser Unit := do
  report p
  unless (← view).atEnd do
    node .unexpected bumpBalanced

end Parser

/-! ## Running programs -/

/-- A problem together with the number of lexemes that were left when it was found: it concerns
    the first of these, or the end of the text if that number is zero. -/
structure Report where
  problem : Problem
  remaining : Nat
  deriving DecidableEq, Repr, Inhabited

/-- What a running parser holds. -/
structure State where
  view : View
  /-- What the node being built consists of so far, the newest element first. -/
  built : List Tree
  /-- The problems found so far, the newest first. -/
  reports : List Report

namespace State

/-- Before anything has been parsed. -/
def initial (lexemes : List Lexeme) (endGap : Gap) : State :=
  ⟨⟨lexemes, endGap, 0⟩, [], []⟩

/-- Consumes the next lexeme, if there is one. An `eof` lexeme is none: it stays where it is. -/
def consume (s : State) : State :=
  match s.view.lexemes with
  | [] => s
  | l :: ls =>
    if l.kind == .eof then s
    else { s with
      view := { s.view with lexemes := ls }
      built := .leaf l.token :: s.built }

/-- Notes a problem at the next lexeme. -/
def complain (s : State) (p : Problem) : State :=
  { s with reports := ⟨p, s.view.lexemes.length⟩ :: s.reports }

/-- Starts a new node, with the newest element as its first child if `adopt`. -/
def start (s : State) (adopt : Bool) : State :=
  { s with built := if adopt then s.built.take 1 else [] }

/-- Ends the node that was started in `outer`. -/
def finish (s : State) (outer : State) (adopt : Bool) (kind? : Option NodeKind) : State :=
  let before := if adopt then outer.built.drop 1 else outer.built
  { s with
    built := match kind? with
      | some k => .node k s.built.reverse :: before
      | none => s.built ++ before }

/-- Sets the number of open `#if` blocks. -/
def withDirectives (s : State) (n : Nat) : State :=
  { s with view := { s.view with directives := n } }

end State

namespace Parser

/-- Runs the rounds of a loop, at most `rounds` of them. -/
def runRounds {σ : Type} (round : σ → State → Step σ × State) :
    (rounds : Nat) → σ → State → σ × State
  | 0, a, s => (a, s)
  | n + 1, a, s =>
    match round a s with
    | (.stop b, s') => (b, s')
    | (.again b, s') => runRounds round n b s'

/-- Runs a program, with `call` for the rules it follows. A loop has one round more than there
    are lexemes left, which is enough if every round but the last consumes one. -/
def run (call : Rule → State → Bool × State) : {α : Type} → Parser α → State → α × State
  | _, .done a, s => (a, s)
  | _, .look next, s => run call (next s.view) s
  | _, .consume next, s => run call next s.consume
  | _, .complain p next, s => run call next (s.complain p)
  | _, .group adopt body next, s =>
    let r := run call body (s.start adopt)
    run call (next r.1.1) (r.2.finish s adopt r.1.2)
  | _, .directive body next, s =>
    let r := run call body (s.withDirectives (s.view.directives + 1))
    run call (next r.1) (r.2.withDirectives s.view.directives)
  | _, .call rule next, s =>
    let r := call rule s
    run call (next r.1) r.2
  | _, .loop body init next, s =>
    let r := runRounds (fun a s => run call (body a) s) (s.view.lexemes.length + 1) init s
    run call (next r.1) r.2

end Parser

end SwiftOutline
