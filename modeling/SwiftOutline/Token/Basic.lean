/-
  SwiftOutline.Token.Basic

  Tokens, their byte widths, and the spans that a sequence of tokens occupies
  when it is written from a given offset on.
-/
import SwiftOutline.Token.Kind

namespace SwiftOutline

/-! ## Spans -/

/-- A stretch of the text between two byte offsets. -/
structure Span where
  start : Nat
  stop : Nat
  deriving DecidableEq, Repr, Inhabited

namespace Span

/-- Number of bytes in a span. -/
def size (s : Span) : Nat := s.stop - s.start

/-- Whether `inner` lies within `outer`, ends included. -/
def contains (outer inner : Span) : Bool :=
  outer.start ≤ inner.start && inner.stop ≤ outer.stop

end Span

/-! ## Tokens -/

/-- A piece of the text together with its kind. -/
structure Token where
  kind : TokenKind
  text : String
  deriving DecidableEq, Repr, Inhabited

namespace Token

/-- Number of bytes that the token occupies. -/
def size (t : Token) : Nat := t.text.utf8ByteSize

/-- Whether the token is whitespace or a comment. -/
def isTrivia (t : Token) : Bool := t.kind.isTrivia

/-- Number of bytes of the text of a sequence of tokens. -/
def totalSize : List Token → Nat
  | [] => 0
  | t :: ts => t.size + totalSize ts

/-- Each token with the span it occupies when the sequence is written from `offset` on. -/
def layout : Nat → List Token → List (Span × Token)
  | _, [] => []
  | offset, t :: ts => (⟨offset, offset + t.size⟩, t) :: layout (offset + t.size) ts

/-- The spans of the tokens that are no trivia. -/
def significantSpans (ts : List Token) : List Span :=
  ((layout 0 ts).filter fun p => !p.2.isTrivia).map Prod.fst

end Token

end SwiftOutline
