/-
  SwiftOutline.Parse

  From a source text to its syntax tree and the problems found in it. Every text
  has a tree: what the grammar cannot place is kept in `unexpected` nodes.
-/
import SwiftOutline.Grammar.Item
import SwiftOutline.Token.Lexer
import SwiftOutline.Tree.Trivia

namespace SwiftOutline

/-- A problem at a place in the text. -/
structure Diagnostic where
  problem : Problem
  span : Span
  deriving DecidableEq, Repr, Inhabited

namespace Diagnostic

/-- A problem and its place, in words. -/
def describe (d : Diagnostic) : String :=
  d.problem.message ++ " at " ++ toString d.span.start ++ ".." ++ toString d.span.stop

end Diagnostic

/-- What parsing a text gives. -/
structure Parse where
  tree : Tree
  diagnostics : List Diagnostic

namespace Parse

/-- Whether no problem was found. -/
def ok (p : Parse) : Bool := p.diagnostics.isEmpty

end Parse

namespace Report

/-- The place of a report in a text that ends at `last`, given where its lexemes stand: the first
    lexeme that was left, or the end of the text. -/
def locate (spans : List Span) (last : Nat) (r : Report) : Diagnostic :=
  ⟨r.problem,
    if r.remaining = 0 then ⟨last, last⟩
    else spans.getD (spans.length - r.remaining) ⟨last, last⟩⟩

/-- The places of reports in a text with the given tokens. -/
def locateAll (tokens : List Token) (reports : List Report) : List Diagnostic :=
  reports.map (locate (Token.significantSpans tokens) (Token.totalSize tokens))

end Report

/-- Parses lexemes with the whole grammar. -/
def parseLexemes (lexemes : List Lexeme) (endGap : Gap) : State :=
  (Grammar.file.run (Grammar.runRule (Grammar.depthBound lexemes.length))
    (State.initial lexemes endGap)).2

/-- The state that the parser ends in on tokens: trees without trivia, and reports. -/
def finalState (tokens : List Token) : State :=
  let (lexemes, endGap) := Lexeme.ofTokens tokens
  parseLexemes lexemes endGap

/-- Parses tokens. -/
def parseTokens (tokens : List Token) : Parse :=
  let final := finalState tokens
  ⟨Tree.rootWithTrivia final.built.reverse tokens,
    Report.locateAll tokens final.reports.reverse⟩

/-- Parses a source text. -/
def parse (source : String) : Parse :=
  parseTokens (lex source)

end SwiftOutline
