/-
  SwiftOutline.Settings.Quotation

  Quoted texts in a settings file, on one line or on several, with or without
  escapes. One scan reads all four styles; what it is in the middle of is a
  `Reading`.
-/

namespace SwiftOutline

namespace Settings

/-! ## Characters -/

/-- Blanks inside a line. -/
def isSpace (c : Char) : Bool := c == ' ' || c == '\t'

/-- Characters that may stand in comments and in quotes: a tab, and all that are no control
    characters. -/
def isPlain (c : Char) : Bool := c == '\t' || (0x20 ≤ c.toNat && c.toNat != 0x7F)

/-- Whether the line ends with the character `c`, or with it and the first of `cs`. -/
def endsLine (c : Char) (cs : List Char) : Bool :=
  c == '\n' || (c == '\r' && cs.head? == some '\n')

/-- The text behind a line end, if one comes first. -/
def afterLineEnd? : List Char → Option (List Char)
  | '\n' :: cs => some cs
  | '\r' :: '\n' :: cs => some cs
  | _ => none

/-- The value of a hexadecimal digit. -/
def digitValue? (c : Char) : Option Nat :=
  if '0' ≤ c && c ≤ '9' then some (c.toNat - '0'.toNat)
  else if 'a' ≤ c && c ≤ 'f' then some (c.toNat - 'a'.toNat + 10)
  else if 'A' ≤ c && c ≤ 'F' then some (c.toNat - 'A'.toNat + 10)
  else none

/-! ## Styles -/

/-- How a text is quoted. -/
structure QuoteStyle where
  /-- A backslash stands for itself, and the quotes are single ones. -/
  isLiteral : Bool
  /-- The quotes are tripled, and the text may go on over several lines. -/
  isMultiline : Bool
  deriving DecidableEq, Repr, Inhabited

namespace QuoteStyle

/-- The character that closes the text. -/
def mark (q : QuoteStyle) : Char := if q.isLiteral then '\x27' else '"'

end QuoteStyle

/-- What the character behind a backslash stands for. -/
inductive Escape where
  | character (c : Char)
  /-- A character given by its number in `count` hexadecimal digits. -/
  | number (count : Nat)
  deriving DecidableEq, Repr

/-- What the character behind a backslash stands for; none if it stands for nothing. -/
def escape? : Char → Option Escape
  | 'b' => some (.character '\x08')
  | 't' => some (.character '\t')
  | 'n' => some (.character '\n')
  | 'f' => some (.character '\x0c')
  | 'r' => some (.character '\r')
  | 'e' => some (.character '\x1b')
  | '"' => some (.character '"')
  | '\\' => some (.character '\\')
  | 'x' => some (.number 2)
  | 'u' => some (.number 4)
  | 'U' => some (.number 8)
  | _ => none

/-! ## Scanning -/

/-- What a scan of a quoted text is in the middle of. -/
inductive Reading where
  /-- The text; blanks and line ends are left out behind an escaped line end. -/
  | body (trimming : Bool)
  /-- An escape, behind the backslash. -/
  | escaped
  /-- An escaped line end, behind blanks. -/
  | lineEnd
  /-- A number with `left` digits to come and the value so far. -/
  | digits (left value : Nat)
  deriving DecidableEq, Repr

/-- Reads a quoted text up to its closing quotes, and gives the rest behind them. Up to two
    more quotes behind triple ones belong to the text. -/
def scanQuoted (q : QuoteStyle) : Reading → List Char → Option (List Char × List Char)
  | _, [] => none
  | .body trimming, c :: cs =>
    let keep (d : Char) := (scanQuoted q (.body false) cs).map fun (t, rest) => (d :: t, rest)
    if c == q.mark then
      if !q.isMultiline then some ([], cs)
      else if cs.take 2 == [q.mark, q.mark] then
        let extra := ((cs.drop 2).take 2).takeWhile fun d => d == q.mark
        some (extra, cs.drop (2 + extra.length))
      else keep c
    else if c == '\\' && !q.isLiteral then scanQuoted q .escaped cs
    else if q.isMultiline && endsLine c cs then
      if trimming then scanQuoted q (.body true) cs else keep c
    else if trimming && isSpace c then scanQuoted q (.body true) cs
    else if isPlain c then keep c
    else none
  | .escaped, c :: cs =>
    match escape? c with
    | some (.character d) =>
      (scanQuoted q (.body false) cs).map fun (t, rest) => (d :: t, rest)
    | some (.number count) => scanQuoted q (.digits count 0) cs
    | none =>
      if !q.isMultiline then none
      else if c == '\n' then scanQuoted q (.body true) cs
      else if isSpace c || endsLine c cs then scanQuoted q .lineEnd cs
      else none
  | .lineEnd, c :: cs =>
    if c == '\n' then scanQuoted q (.body true) cs
    else if isSpace c || endsLine c cs then scanQuoted q .lineEnd cs
    else none
  | .digits left value, c :: cs => do
    let digit ← digitValue? c
    let value := 16 * value + digit
    if 1 < left then scanQuoted q (.digits (left - 1) value) cs
    else if value.isValidChar then
      (scanQuoted q (.body false) cs).map fun (t, rest) => (Char.ofNat value :: t, rest)
    else none

/-- Reads a text behind its opening quotes. -/
def quotedBody? (q : QuoteStyle) (cs : List Char) : Option (String × List Char) :=
  (scanQuoted q (.body false) cs).map fun (t, rest) => (String.ofList t, rest)

/-- Reads a text with single or triple quotes around it. A line end right behind triple quotes
    is left out. -/
def quotedText? : List Char → Option (String × List Char)
  | '"' :: '"' :: '"' :: cs => quotedBody? ⟨false, true⟩ ((afterLineEnd? cs).getD cs)
  | '\x27' :: '\x27' :: '\x27' :: cs => quotedBody? ⟨true, true⟩ ((afterLineEnd? cs).getD cs)
  | '"' :: cs => quotedBody? ⟨false, false⟩ cs
  | '\x27' :: cs => quotedBody? ⟨true, false⟩ cs
  | _ => none

end Settings

end SwiftOutline
