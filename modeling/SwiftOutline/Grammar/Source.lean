/-
  SwiftOutline.Grammar.Source

  Parsing straight from the tokens of a text, trivia among them. What a parser
  reads from are all tokens and a cursor; every question is answered from these,
  by going past the trivia again. A line break or trivia before a token is looked
  for behind the token before it, wherever the cursor stands.
-/
import SwiftOutline.Grammar.Event
import SwiftOutline.Parse

namespace SwiftOutline

/-- The tokens of a text, and how many of them have been passed. -/
structure Source where
  tokens : List Token
  cursor : Nat
  deriving Repr, Inhabited

namespace Source

/-- Before any token has been passed. -/
def ofTokens (ts : List Token) : Source := ⟨ts, 0⟩

/-! ## Looking ahead -/

/-- Where the `n`th token that is no trivia stands among tokens, counted from 0. -/
def indexIn : (n : Nat) → List Token → Option Nat
  | _, [] => none
  | n, t :: ts =>
    if t.isTrivia then (indexIn n ts).map (· + 1)
    else if n = 0 then some 0
    else (indexIn (n - 1) ts).map (· + 1)

/-- Where the `n`th token ahead stands that is no trivia. -/
def index? (s : Source) (n : Nat) : Option Nat :=
  (indexIn n (s.tokens.drop s.cursor)).map (s.cursor + ·)

/-- The `n`th token ahead that is no trivia. -/
def token? (s : Source) (n : Nat) : Option Token := (s.index? n).bind fun i => s.tokens[i]?

/-- Kind of the `n`th token ahead; `eof` when there is none. -/
def kindAt (s : Source) (n : Nat) : TokenKind :=
  match s.token? n with
  | some t => t.kind
  | none => .eof

/-- The trivia that tokens end with. -/
def trailing (ts : List Token) : List Token := (ts.reverse.takeWhile Token.isTrivia).reverse

/-- The trivia directly before the `n`th token ahead, or, when there is none, at the end. -/
def gapBefore (s : Source) (n : Nat) : List Token :=
  trailing (s.tokens.take ((s.index? n).getD s.tokens.length))

/-- Whether there is trivia before the `n`th token ahead. -/
def triviaBefore (s : Source) (n : Nat) : Bool := !(s.gapBefore n).isEmpty

/-- Whether there is a line feed before the `n`th token ahead. -/
def newlineBefore (s : Source) (n : Nat) : Bool :=
  (s.gapBefore n).any fun t => t.text.toList.contains '\n'

/-- Whether no token is left. -/
def atEnd (s : Source) : Bool := s.kindAt 0 == .eof

/-- Where the next token stands in the text; the end of the text if there is none. -/
def place (s : Source) : Span :=
  match s.index? 0 with
  | some i => ⟨Token.totalSize (s.tokens.take i), Token.totalSize (s.tokens.take (i + 1))⟩
  | none => ⟨Token.totalSize s.tokens, Token.totalSize s.tokens⟩

/-! ## Going on -/

/-- How many tokens there are up to the first one that is no trivia. -/
def pass : List Token → Nat
  | [] => 0
  | t :: ts => if t.isTrivia then pass ts + 1 else 1

/-- Behind the next token. -/
def bump (s : Source) : Source :=
  { s with cursor := s.cursor + pass (s.tokens.drop s.cursor) }

/-- How far the cursor has come. What does not move it makes no progress. -/
def position (s : Source) : Nat := s.cursor

/-! ## All answers -/

/-- All that is told about the `n`th token ahead. -/
def lexeme? (s : Source) (n : Nat) : Option Lexeme :=
  (s.token? n).map fun t => ⟨t.kind, t.text, ⟨s.triviaBefore n, s.newlineBefore n⟩⟩

/-- All that is told about what is ahead, inside `directives` blocks. -/
def view (s : Source) (directives : Nat) : View where
  lexemes := (List.range s.tokens.length).filterMap s.lexeme?
  endGap := ⟨s.triviaBefore s.tokens.length, s.newlineBefore s.tokens.length⟩
  directives := directives

end Source

/-! ## Readers -/

/-- What a parser holds that reads from a source and writes events. -/
structure Reader where
  source : Source
  /-- What has been written, and what can be looked at: the source is asked again behind every
      token. -/
  out : Writer
  /-- The problems found so far with their places in the text, the newest first. -/
  errors : List Diagnostic

namespace Reader

/-- Before anything has been read: the root is open. -/
def ofSource (s : Source) : Reader :=
  ⟨s, Writer.initial (s.view 0).lexemes (s.view 0).endGap, []⟩

/-- Goes past the next token, if there is one. -/
def consume (r : Reader) : Reader :=
  if r.source.atEnd then r
  else
    { r with
      source := r.source.bump
      out := { r.out.push (.token (r.source.kindAt 0)) with
        view := r.source.bump.view r.out.view.directives } }

/-- Notes a problem at the next token. -/
def complain (r : Reader) (p : Problem) : Reader :=
  { r with out := r.out.complain p, errors := ⟨p, r.source.place⟩ :: r.errors }

/-- Sets the number of open `#if` blocks. -/
def withDirectives (r : Reader) (n : Nat) : Reader := { r with out := r.out.withDirectives n }

end Reader

namespace Parser

/-- Runs a program that reads from a source and writes events, with `call` for the rules it
    follows. -/
def read (call : Rule → Reader → Option (Bool × Reader)) :
    {α : Type} → Parser α → Reader → Option (α × Reader)
  | _, .done a, r => some (a, r)
  | _, .look next, r => read call (next r.out.view) r
  | _, .consume next, r => read call next r.consume
  | _, .complain p next, r => read call next (r.complain p)
  | _, .group adopt body next, r =>
    (r.out.mark adopt).bind fun marked =>
      (read call body { r with out := marked }).bind fun x =>
        (x.2.out.close r.out.events.length x.1.2).bind fun closed =>
          read call (next x.1.1) { x.2 with out := closed }
  | _, .directive body next, r =>
    (read call body (r.withDirectives (r.out.view.directives + 1))).bind fun x =>
      read call (next x.1) (x.2.withDirectives r.out.view.directives)
  | _, .call rule next, r => (call rule r).bind fun x => read call (next x.1) x.2
  | _, .loop body init next, r =>
    (writeRounds (fun a r => read call (body a) r) (r.out.view.lexemes.length + 1) init r).bind
      fun x => read call (next x.1) x.2

end Parser

namespace Grammar

/-- Follows a rule from a source, with rules called inside each other at most `depth` deep. -/
def readRule : (depth : Nat) → Rule → Reader → Option (Bool × Reader)
  | 0, _, r => some (false, r)
  | depth + 1, rule, r => (body rule).read (readRule depth) r

end Grammar

/-- Parses from the tokens of a text: writes the events and notes the problems. -/
def readTokens (tokens : List Token) : Option Reader :=
  let r := Reader.ofSource (.ofTokens tokens)
  (Grammar.file.read (Grammar.readRule (Grammar.depthBound r.out.view.lexemes.length)) r).map
    fun x => { x.2 with out := x.2.out.push .finish }

end SwiftOutline
