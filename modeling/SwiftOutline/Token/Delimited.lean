/-
  SwiftOutline.Token.Delimited

  The bodies of block comments and string literals. Comments nest: every `/*`
  needs its own `*/`. Literals have escapes, interpolations `\(...)` with strings
  nested in them, and the closing delimiter, for single-line, multi-line and raw
  (`#"..."#`) literals alike. All of it reads bytes: whatever takes more than one
  of them means nothing inside.
-/
import SwiftOutline.Token.Utf8

namespace SwiftOutline

namespace Comment

open Utf8

/-- The bytes after the end of a block comment, read from just behind its opening `/*` with
    `depth` further comments open inside it. Pairs are recognised greedily from left to right;
    `none` when a comment stays open. -/
def rest? : (depth : Nat) → List UInt8 → Option (List UInt8)
  | depth, a :: b :: bs =>
    if a == byte '/' && b == byte '*' then rest? (depth + 1) bs
    else if a == byte '*' && b == byte '/' then
      match depth with
      | 0 => some bs
      | depth + 1 => rest? depth bs
    else rest? depth (b :: bs)
  | _, _ => none

end Comment

/-- How a string literal is delimited. -/
structure Quote where
  /-- Three quotes instead of one; only then may the body hold line breaks. -/
  multiline : Bool
  /-- Number of `#` signs around the quotes, which escapes have to repeat. -/
  pounds : Nat
  deriving DecidableEq, Repr, Inhabited

namespace Quote

open Utf8

/-- Number of quotes on either side. -/
def width (q : Quote) : Nat := if q.multiline then 3 else 1

/-- The first `n` bytes exist and are all the byte of `c`. -/
def leads (c : Char) : Nat → List UInt8 → Bool
  | 0, _ => true
  | n + 1, b :: bs => b == byte c && leads c n bs
  | _ + 1, [] => false

/-- Whether the closing delimiter stands at the head of the text. -/
def closes (q : Quote) (bs : List UInt8) : Bool :=
  leads '"' q.width bs && leads '#' q.pounds (bs.drop q.width)

/-- Whether the bytes behind a backslash make it an escape. -/
def escapes (q : Quote) (bs : List UInt8) : Bool :=
  leads '#' q.pounds bs

/-! ## Scanning -/

/-- What is being read: the body of a string, or the code of an interpolation in which `opened`
    further parentheses are open. -/
inductive Frame where
  | body (q : Quote)
  | code (opened : Nat)
  deriving DecidableEq, Repr

/-- The bytes after the end of the outermost frame. `skip` bytes are passed over first, `top`
    is the frame being read and `below` are the frames that enclose it, innermost first. The
    answer is `none` if the text ends, or a single-line body meets a line break, before every
    frame is closed. -/
def scan : (skip : Nat) → (top : Frame) → (below : List Frame) → List UInt8 → Option (List UInt8)
  | _, _, _, [] => none
  | skip + 1, top, below, _ :: bs => scan skip top below bs
  | 0, .body q, below, b :: bs =>
    if b == byte '\n' && !q.multiline then none
    else if b == byte '\\' && q.escapes bs then
      if leads '(' 1 (bs.drop q.pounds) then
        scan (q.pounds + 1) (.code 0) (.body q :: below) bs
      else
        scan (q.pounds + 1) (.body q) below bs
    else if q.closes (b :: bs) then
      match below with
      | [] => some (bs.drop (q.width - 1 + q.pounds))
      | f :: fs => scan (q.width - 1 + q.pounds) f fs bs
    else scan 0 (.body q) below bs
  | 0, .code opened, below, b :: bs =>
    if b == byte '(' then scan 0 (.code (opened + 1)) below bs
    else if b == byte ')' then
      match opened, below with
      | opened + 1, below => scan 0 (.code opened) below bs
      | 0, [] => some bs
      | 0, f :: fs => scan 0 f fs bs
    else if b == byte '"' then
      if leads '"' 2 bs then scan 2 (.body ⟨true, 0⟩) (.code opened :: below) bs
      else scan 0 (.body ⟨false, 0⟩) (.code opened :: below) bs
    else scan 0 (.code opened) below bs

/-- The bytes after a string literal, read from just behind its opening delimiter. -/
def rest? (q : Quote) (bs : List UInt8) : Option (List UInt8) :=
  scan 0 (.body q) [] bs

end Quote

end SwiftOutline
