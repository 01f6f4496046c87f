/-
  SwiftOutline.Token.Lexer

  Splitting a text into tokens. Every character belongs to exactly one token:
  the longest piece that a token pattern accepts, or, where none does, an
  `error` token over the longest piece that begins one.
-/
import SwiftOutline.Token.Basic
import SwiftOutline.Token.Delimited

namespace SwiftOutline

namespace Lexer

/-! ## Character classes -/

/-- Characters of whitespace tokens. -/
def isBlank (c : Char) : Bool :=
  c == ' ' || c == '\t' || c == '\r' || c == '\n' || c == '\x0c'

/-- Characters that end a line. -/
def isLineEnd (c : Char) : Bool :=
  c == '\r' || c == '\n'

/-- Characters that combine into operator runs. The slash is not among them. -/
def isOperatorChar (c : Char) : Bool :=
  "=-+!*%<>&|^~?".toList.contains c

/-- Letters, digits and `_` of the ASCII range. -/
def isWordChar (c : Char) : Bool :=
  c.isAlphanum || c == '_'

/-- Characters that begin an identifier: ASCII letters, `_`, and everything beyond ASCII. -/
def isNameStart (c : Char) : Bool :=
  c.isAlpha || c == '_' || 0x80 ≤ c.toNat

/-- Characters that continue an identifier. -/
def isNameChar (c : Char) : Bool :=
  isNameStart c || c.isDigit

/-- Hexadecimal digits. -/
def isHexDigit (c : Char) : Bool :=
  c.isDigit || ('a' ≤ c && c ≤ 'f') || ('A' ≤ c && c ≤ 'F')

/-- Octal digits. -/
def isOctalDigit (c : Char) : Bool :=
  '0' ≤ c && c ≤ '7'

/-- Binary digits. -/
def isBinaryDigit (c : Char) : Bool :=
  c == '0' || c == '1'

/-! ## Numbers -/

/-- Length of a run of digits that begins with a digit and may hold `_` from then on;
    0 when there is none. -/
def digitRun (isDigit : Char → Bool) : List Char → Nat
  | [] => 0
  | c :: cs =>
    if isDigit c then 1 + (cs.takeWhile fun d => isDigit d || d == '_').length else 0

/-- Length of a sign; 0 when there is none. -/
def signRun : List Char → Nat
  | [] => 0
  | s :: _ => if s == '+' || s == '-' then 1 else 0

/-- Length of a decimal exponent; 0 when the text does not begin with a complete one. -/
def exponentRun : List Char → Nat
  | [] => 0
  | e :: cs =>
    if e == 'e' || e == 'E' then
      match digitRun Char.isDigit (cs.drop (signRun cs)) with
      | 0 => 0
      | n + 1 => 1 + signRun cs + (n + 1)
    else 0

/-- Length of a decimal point with its digits; 0 when there is no digit behind the point. -/
def fractionRun : List Char → Nat
  | '.' :: cs =>
    match digitRun Char.isDigit cs with
    | 0 => 0
    | n + 1 => 1 + (n + 1)
  | _ => 0

/-- Length of a number with a base mark (`0x1F`, `0o17`, `0b10`), counted from behind its `0`;
    0 when there is no digit behind the mark. -/
def basedRun : List Char → Nat
  | mark :: cs =>
    let digits :=
      if mark == 'x' then digitRun isHexDigit cs
      else if mark == 'o' then digitRun isOctalDigit cs
      else if mark == 'b' then digitRun isBinaryDigit cs
      else 0
    match digits with
    | 0 => 0
    | n + 1 => 1 + (n + 1)
  | [] => 0

/-- Kind of the number that begins with the digit `c`, and how many characters follow `c`
    in it. -/
def number (c : Char) (cs : List Char) : TokenKind × Nat :=
  let based := if c == '0' then basedRun cs else 0
  if 0 < based then (.intLiteral, based)
  else
    let whole := (cs.takeWhile fun d => d.isDigit || d == '_').length
    let fraction := fractionRun (cs.drop whole)
    let exponent := exponentRun (cs.drop (whole + fraction))
    if fraction + exponent == 0 then (.intLiteral, whole)
    else (.floatLiteral, whole + fraction + exponent)

/-! ## Words and operators -/

/-- Kind of a complete word. -/
def wordKind (w : String) : TokenKind :=
  if w == "_" then .underscore else (TokenKind.reserved? w).getD .ident

/-- Kind of a complete operator run: a few short ones are punctuation of their own. -/
def operatorKind : List Char → TokenKind
  | ['='] => .eq
  | ['-', '>'] => .arrow
  | ['?'] => .question
  | ['!'] => .exclamation
  | ['&'] => .amp
  | ['<'] => .lt
  | ['>'] => .gt
  | _ => .operator

/-- Kind of a complete word behind `#`. -/
def directiveKind : String → TokenKind
  | "if" => .poundIf
  | "elseif" => .poundElseif
  | "else" => .poundElse
  | "endif" => .poundEndif
  | _ => .poundIdent

/-- Kind of a character that is a token by itself; `error` for every other one. -/
def punctuationKind : Char → TokenKind
  | '(' => .lParen
  | ')' => .rParen
  | '[' => .lBracket
  | ']' => .rBracket
  | '\x7b' => .lBrace
  | '\x7d' => .rBrace
  | ',' => .comma
  | ':' => .colon
  | ';' => .semicolon
  | '@' => .atSign
  | '\\' => .backslash
  | _ => .error

/-! ## Strings and comments

Their ends are found by the byte. A token gets the characters that make up these bytes, and there
is no token if they end in the middle of a character. -/

/-- Kind of a string literal whose opening delimiter ends `opening` characters behind its first
    character, and how many characters follow that first one. An unfinished literal is an `error`
    token: up to the line break if it is a single-line one, else to the end of the text. -/
def string (q : Quote) (opening : Nat) (body : List Char) : Option (TokenKind × Nat) := do
  let bytes := Utf8.encode body
  match q.rest? bytes with
  | some after =>
    let n ← Utf8.charsIn? (bytes.length - after.length) body
    return (.stringLiteral, opening + n)
  | none =>
    let line := if q.multiline then bytes else bytes.takeWhile (· != Utf8.byte '\n')
    let n ← Utf8.charsIn? line.length body
    return (.error, opening + n)

/-- Kind of the token that begins with a slash, and how many characters follow the slash. -/
def slash : List Char → Option (TokenKind × Nat)
  | '/' :: cs => some (.lineComment, 1 + (cs.takeWhile fun c => !isLineEnd c).length)
  | '*' :: cs => do
    let bytes := Utf8.encode cs
    match Comment.rest? 0 bytes with
    | some after =>
      let n ← Utf8.charsIn? (bytes.length - after.length) cs
      return (.blockComment, 1 + n)
    | none =>
      let n ← Utf8.charsIn? bytes.length cs
      return (.error, 1 + n)
  | '=' :: _ => some (.operator, 1)
  | _ => some (.operator, 0)

/-! ## Tokens -/

/-- Kind of the token that begins with a point, and how many characters follow the point. -/
def point : List Char → TokenKind × Nat
  | '.' :: '.' :: _ => (.ellipsis, 2)
  | '.' :: '<' :: _ => (.operator, 2)
  | _ => (.dot, 0)

/-- Whether two more quotes make an opening quote one of three. -/
def opensMultiline (cs : List Char) : Bool :=
  cs.take 2 == ['"', '"']

/-- Kind of the token that begins with a pound sign, and how many characters follow that sign:
    a raw string, a directive, or an `error` over a run of pound signs that opens neither. -/
def pound (cs : List Char) : Option (TokenKind × Nat) :=
  let more := (cs.takeWhile (· == '#')).length
  match cs.drop more with
  | '"' :: body =>
    if opensMultiline body then string ⟨true, more + 1⟩ (more + 3) (body.drop 2)
    else string ⟨false, more + 1⟩ (more + 1) body
  | c :: _ =>
    if more == 0 && (c.isAlpha || c == '_') then
      let word := cs.takeWhile isWordChar
      some (directiveKind (String.ofList word), word.length)
    else some (.error, more)
  | [] => some (.error, more)

/-- Kind of the token that begins with a backtick, and how many characters follow it: a quoted
    identifier, which is not empty and stays on its line, or an `error`. -/
def backtick (cs : List Char) : TokenKind × Nat :=
  let name := (cs.takeWhile fun c => c != '\x60' && !isLineEnd c).length
  match cs.drop name with
  | '\x60' :: _ => if name == 0 then (.error, 0) else (.ident, name + 1)
  | _ => (.error, name)

/-- Kind of the token that begins with `c`, and how many of the characters `cs` behind it belong
    to the token. -/
def token (c : Char) (cs : List Char) : Option (TokenKind × Nat) :=
  if isBlank c then some (.whitespace, (cs.takeWhile isBlank).length)
  else if c == '/' then slash cs
  else if c == '.' then some (point cs)
  else if c == '#' then pound cs
  else if c == '"' then
    if opensMultiline cs then string ⟨true, 0⟩ 2 (cs.drop 2) else string ⟨false, 0⟩ 0 cs
  else if c == '\x60' then some (backtick cs)
  else if c == '$' then
    match (cs.takeWhile isWordChar).length with
    | 0 => some (.error, 0)
    | n + 1 => some (.ident, n + 1)
  else if c.isDigit then some (number c cs)
  else if isNameStart c then
    let name := cs.takeWhile isNameChar
    some (wordKind (String.ofList (c :: name)), name.length)
  else if isOperatorChar c then
    let run := cs.takeWhile isOperatorChar
    some (operatorKind (c :: run), run.length)
  else some (punctuationKind c, 0)

/-- The tokens of a text after its first `skip` characters, which belong to a token already
    given. There are none if that token was to go on behind the end. -/
def tokensFrom? : (skip : Nat) → List Char → Option (List Token)
  | 0, [] => some []
  | _ + 1, [] => none
  | skip + 1, _ :: cs => tokensFrom? skip cs
  | 0, c :: cs => do
    let (kind, more) ← token c cs
    let rest ← tokensFrom? more cs
    return ⟨kind, String.ofList (c :: cs.take more)⟩ :: rest

end Lexer

/-! ## Runs that are split -/

namespace Token

/-- Kind of one character of a postfix run. -/
def markKind : Char → TokenKind
  | '?' => .question
  | '!' => .exclamation
  | _ => .gt

/-- The marks `?`, `!` and `>`, which stand for themselves in types such as `Array<Set<Int>>` and
    `Int??`. -/
def isMark (c : Char) : Bool := c == '?' || c == '!' || c == '>'

/-- An operator of two or more marks. -/
def isPostfixRun (t : Token) : Bool :=
  t.kind == .operator && 1 < t.text.length && t.text.toList.all isMark

/-- The tokens that a longest match stands for: a postfix run is one token per mark. -/
def parts (t : Token) : List Token :=
  if t.isPostfixRun then t.text.toList.map fun c => ⟨markKind c, String.singleton c⟩
  else [t]

end Token

/-- The longest matches of a text, from left to right; `none` if one of them could not be taken
    out of the text. -/
def longestMatches? (source : String) : Option (List Token) :=
  Lexer.tokensFrom? 0 source.toList

/-- The longest matches of a text, from left to right. -/
def longestMatches (source : String) : List Token :=
  (longestMatches? source).getD []

/-- The tokens of a text, from left to right. -/
def lex (source : String) : List Token :=
  (longestMatches source).flatMap Token.parts

end SwiftOutline
