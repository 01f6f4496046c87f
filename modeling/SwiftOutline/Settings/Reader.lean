/-
  SwiftOutline.Settings.Reader

  Reads a settings file. It holds texts and empty lists, in groups that have
  names. A group can be written in three ways, and how it is written decides
  whether later lines may add to it. A line is empty, a header `[name]` or an
  entry `name = value`, and may end with a comment. The format has numbers, dates,
  truth values and filled lists too; no setting has such a value, so a file with
  one of them is refused like one that breaks the format.
-/
import SwiftOutline.Settings.Quotation

namespace SwiftOutline

namespace Settings

/-- How a group came to be. -/
inductive Origin where
  /-- By a header of its own. -/
  | header
  /-- By the header of a group in it. -/
  | implied
  /-- By a name with points in it. -/
  | dotted
  /-- In braces, to which nothing can be added. -/
  | braces
  deriving DecidableEq, Repr, Inhabited

/-- What a name in a settings file stands for. -/
inductive Item where
  | text (value : String)
  | emptyList
  | group (origin : Origin) (items : List (String × Item))
  deriving Repr, Inhabited

/-- Named items, in the order of the file. -/
abbrev Items := List (String × Item)

namespace Items

/-- The items with another one for the name `k`. -/
def replace (items : Items) (k : String) (i : Item) : Items :=
  items.map fun p => if p.1 == k then (k, i) else p

/-- Adds an item under a name with points, given as its parts. No name can be given twice, and
    no group but one of such a name or an implied one can be added to. -/
def put : (path : List String) → Item → Items → Option Items
  | [], _, _ => none
  | [k], i, items => if (items.lookup k).isSome then none else some (items ++ [(k, i)])
  | k :: path, i, items =>
    match items.lookup k with
    | none => (put path i []).map fun inner => items ++ [(k, .group .dotted inner)]
    | some (.group .dotted inner) =>
      (put path i inner).map fun inner => items.replace k (.group .dotted inner)
    | some (.group .implied inner) =>
      (put path i inner).map fun inner => items.replace k (.group .implied inner)
    | some _ => none

/-- Adds an item inside the group at `current`. -/
def putUnder : (current path : List String) → Item → Items → Option Items
  | [], path, i, items => put path i items
  | k :: current, path, i, items =>
    match items.lookup k with
    | some (.group origin inner) =>
      (putUnder current path i inner).map fun inner => items.replace k (.group origin inner)
    | _ => none

/-- Adds the group that a header names. It must be new, or implied by earlier headers. -/
def addHeader : (path : List String) → Items → Option Items
  | [], _ => none
  | [k], items =>
    match items.lookup k with
    | none => some (items ++ [(k, .group .header [])])
    | some (.group .implied inner) => some (items.replace k (.group .header inner))
    | some _ => none
  | k :: path, items =>
    match items.lookup k with
    | none => (addHeader path []).map fun inner => items ++ [(k, .group .implied inner)]
    | some (.group .braces _) => none
    | some (.group origin inner) =>
      (addHeader path inner).map fun inner => items.replace k (.group origin inner)
    | some _ => none

end Items

/-! ## Gaps -/

/-- The text without the blanks at its front. -/
def skipSpaces (cs : List Char) : List Char := cs.dropWhile isSpace

/-- The text without a comment at its front. -/
def skipComment : List Char → List Char
  | '#' :: cs => cs.dropWhile isPlain
  | cs => cs

/-- The text without blanks, line ends and comments at its front; `commented` tells whether it
    begins inside a comment. -/
def skipGaps : (commented : Bool) → List Char → List Char
  | _, [] => []
  | true, c :: cs =>
    if c == '\n' then skipGaps false cs
    else if isPlain c || endsLine c cs then skipGaps true cs
    else c :: cs
  | false, c :: cs =>
    if c == '#' then skipGaps true cs
    else if isSpace c || endsLine c cs then skipGaps false cs
    else c :: cs

/-! ## Names -/

/-- Characters of a name without quotes. -/
def isNameChar (c : Char) : Bool := c.isAlphanum || c == '_' || c == '-'

/-- Reads one part of a name, which may be quoted on one line. -/
def namePart? : List Char → Option (String × List Char)
  | '"' :: cs => quotedBody? ⟨false, false⟩ cs
  | '\x27' :: cs => quotedBody? ⟨true, false⟩ cs
  | cs =>
    match cs.takeWhile isNameChar with
    | [] => none
    | name => some (String.ofList name, cs.dropWhile isNameChar)

/-- Reads a name of at most `limit` parts, with points between them and blanks around it. -/
def name? : (limit : Nat) → List Char → Option (List String × List Char)
  | 0, _ => none
  | limit + 1, cs => do
    let (part, cs) ← namePart? (skipSpaces cs)
    match skipSpaces cs with
    | '.' :: cs =>
      let (parts, cs) ← name? limit cs
      pure (part :: parts, cs)
    | cs => pure ([part], cs)

/-! ## Values -/

/-- Reads an entry, with a value as `value` reads it, and adds it to the group at `current`.
    `skip` leaves out what may stand around the equals sign. -/
def assignment? (skip : List Char → List Char) (value : List Char → Option (Item × List Char))
    (limit : Nat) (current : List String) (items : Items) (cs : List Char) :
    Option (Items × List Char) := do
  let (path, cs) ← name? limit cs
  match skip cs with
  | '=' :: cs =>
    let (i, cs) ← value (skip cs)
    let items ← items.putUnder current path i
    pure (items, cs)
  | _ => none

/-- Reads at most `limit` entries of a group in braces, behind the opening one. They can go on
    over several lines, but a name with points stands on one line. -/
def braced? (value : List Char → Option (Item × List Char)) :
    (limit : Nat) → Items → List Char → Option (Items × List Char)
  | 0, _, _ => none
  | limit + 1, items, cs =>
    match skipGaps false cs with
    | '\x7d' :: cs => some (items, cs)
    | cs => do
      let (items, cs) ← assignment? (skipGaps false) value (limit + 1) [] items cs
      match skipGaps false cs with
      | ',' :: cs => braced? value limit items cs
      | '\x7d' :: cs => some (items, cs)
      | _ => none

/-- Reads a value with at most `limit` levels: a text, an empty list or a group in braces. -/
def value? : (limit : Nat) → List Char → Option (Item × List Char)
  | 0, _ => none
  | limit + 1, cs =>
    match cs with
    | '[' :: cs =>
      match skipGaps false cs with
      | ']' :: cs => some (.emptyList, cs)
      | _ => none
    | '\x7b' :: cs =>
      (braced? (value? limit) (limit + 1) [] cs).map fun (items, cs) => (.group .braces items, cs)
    | cs => (quotedText? cs).map fun (t, cs) => (.text t, cs)

/-! ## Lines -/

/-- Reads what stands on a line before its comment, inside the group at `current`. Gives that
    group, or the one of a header, all items so far, and the rest of the text. -/
def line? (limit : Nat) (current : List String) (items : Items) (cs : List Char) :
    Option (List String × Items × List Char) :=
  match skipSpaces cs with
  | [] => some (current, items, [])
  | '[' :: cs => do
    let (path, cs) ← name? limit cs
    match cs with
    | ']' :: cs =>
      let items ← items.addHeader path
      pure (path, items, cs)
    | _ => none
  | c :: cs =>
    if c == '#' || endsLine c cs then some (current, items, c :: cs)
    else
      (assignment? skipSpaces (value? limit) limit current items (c :: cs)).map fun (items, cs) =>
        (current, items, cs)

/-- Reads at most `limit` lines. -/
def lines? : (limit : Nat) → (current : List String) → Items → List Char → Option Items
  | 0, _, _, _ => none
  | limit + 1, current, items, cs => do
    let (current, items, cs) ← line? (limit + 1) current items cs
    match skipComment (skipSpaces cs) with
    | [] => pure items
    | cs =>
      let cs ← afterLineEnd? cs
      lines? limit current items cs

/-- The items of a settings file; none if it is refused. A byte order mark may come first. -/
def items? (text : String) : Option Items :=
  let cs := match text.toList with
    | '\ufeff' :: cs => cs
    | cs => cs
  lines? (cs.length + 1) [] [] cs

end Settings

end SwiftOutline
