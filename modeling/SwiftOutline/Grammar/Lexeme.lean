/-
  SwiftOutline.Grammar.Lexeme

  What the grammar sees of a token sequence: the tokens that are no trivia, each
  with two facts about the gap before it. Two sequences with the same lexemes
  are therefore the same to the grammar, whatever their trivia say.
-/
import SwiftOutline.Token.Basic

namespace SwiftOutline

/-! ## Gaps and lexemes -/

/-- What matters of the trivia between two tokens. -/
structure Gap where
  /-- There is whitespace or a comment. -/
  trivia : Bool
  /-- There is a line feed. -/
  newline : Bool
  deriving DecidableEq, Repr, Inhabited

namespace Gap

/-- No trivia at all. -/
def none : Gap := ⟨false, false⟩

/-- The gap with one more piece of trivia in it. -/
def extend (g : Gap) (t : Token) : Gap :=
  ⟨true, g.newline || t.text.toList.contains '\n'⟩

end Gap

/-- A token that is no trivia, with the gap before it. -/
structure Lexeme where
  kind : TokenKind
  text : String
  gap : Gap
  deriving DecidableEq, Repr, Inhabited

namespace Lexeme

/-- The token of a lexeme. -/
def token (l : Lexeme) : Token := ⟨l.kind, l.text⟩

/-- The lexemes of a token sequence and the gap behind the last one, when `gap` was seen before
    the sequence. -/
def ofTokensAfter : (gap : Gap) → List Token → List Lexeme × Gap
  | gap, [] => ([], gap)
  | gap, t :: ts =>
    if t.isTrivia then ofTokensAfter (gap.extend t) ts
    else
      let (rest, last) := ofTokensAfter .none ts
      (⟨t.kind, t.text, gap⟩ :: rest, last)

/-- The lexemes of a token sequence and the gap behind the last one. -/
def ofTokens (ts : List Token) : List Lexeme × Gap :=
  ofTokensAfter .none ts

end Lexeme

/-! ## Views -/

/-- What a rule of the grammar can look at. -/
structure View where
  /-- The lexemes that are not yet consumed. -/
  lexemes : List Lexeme
  /-- The gap between the last lexeme and the end of the text. -/
  endGap : Gap
  /-- Number of `#if` blocks that are open. -/
  directives : Nat
  deriving Repr, Inhabited

namespace View

/-- Kind of the `n`th lexeme ahead; `eof` when there is none. -/
def kindAt (v : View) (n : Nat) : TokenKind :=
  match v.lexemes[n]? with
  | some l => l.kind
  | none => .eof

/-- Text of the `n`th lexeme ahead; empty when there is none. -/
def textAt (v : View) (n : Nat) : String :=
  match v.lexemes[n]? with
  | some l => l.text
  | none => ""

/-- The gap before the `n`th lexeme ahead; behind the last lexeme, the gap at the end. -/
def gapAt (v : View) (n : Nat) : Gap :=
  match v.lexemes[n]? with
  | some l => l.gap
  | none => v.endGap

/-- Kind of the next lexeme. -/
def kind (v : View) : TokenKind := v.kindAt 0

/-- Text of the next lexeme. -/
def text (v : View) : String := v.textAt 0

/-- The gap before the next lexeme. -/
def gap (v : View) : Gap := v.gapAt 0

/-- Whether the `n`th lexeme ahead is the identifier `word`. -/
def spellsAt (v : View) (n : Nat) (word : String) : Bool :=
  v.kindAt n == .ident && v.textAt n == word

/-- Whether the next lexeme is the identifier `word`. -/
def spells (v : View) (word : String) : Bool := v.spellsAt 0 word

/-- Whether no lexeme is left. -/
def atEnd (v : View) : Bool := v.kind == .eof

/-- Whether the next lexeme is a `k` that directly follows the one before it. -/
def seesJoined (v : View) (k : TokenKind) : Bool := v.kind == k && !v.gap.trivia

end View

end SwiftOutline
