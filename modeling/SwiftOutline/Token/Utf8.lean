/-
  SwiftOutline.Token.Utf8

  Texts as bytes. Comments and string literals are scanned byte by byte; the
  lexer takes the characters that the scanned bytes encode.
-/

namespace SwiftOutline

namespace Utf8

/-- The byte of an ASCII character. -/
def byte (c : Char) : UInt8 := c.toUInt8

/-- The bytes of a text. -/
def encode (cs : List Char) : List UInt8 := cs.flatMap String.utf8EncodeChar

/-- Number of characters that the first `n` bytes of a text encode; `none` if these end inside a
    character or if there are not so many. -/
def charsIn? : (n : Nat) → List Char → Option Nat
  | 0, _ => some 0
  | _ + 1, [] => none
  | n + 1, c :: cs =>
    if c.utf8Size ≤ n + 1 then (charsIn? (n + 1 - c.utf8Size) cs).map (· + 1) else none

end Utf8

end SwiftOutline
