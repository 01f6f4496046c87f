/-
  SwiftOutline.Outline.Operator

  Names, fixities and precedence groups of operators.
-/
import SwiftOutline.Outline.Attribute
import SwiftOutline.Text.Ranges

namespace SwiftOutline

/-! ## Names -/

namespace OperatorName

/-- The symbols beyond ASCII that can begin an operator. -/
def headRanges : List (Nat × Nat) :=
  [(0x00A1, 0x00A7), (0x00A9, 0x00A9), (0x00AB, 0x00AB), (0x00AC, 0x00AC), (0x00AE, 0x00AE),
    (0x00B0, 0x00B1), (0x00B6, 0x00B6), (0x00BB, 0x00BB), (0x00BF, 0x00BF), (0x00D7, 0x00D7),
    (0x00F7, 0x00F7), (0x2016, 0x2017), (0x2020, 0x2027), (0x2030, 0x203E), (0x2041, 0x2053),
    (0x2055, 0x205E), (0x2190, 0x23FF), (0x2500, 0x2775), (0x2794, 0x2BFF), (0x2E00, 0x2E7F),
    (0x3001, 0x3003), (0x3008, 0x3020), (0x3030, 0x3030)]

/-- The combining marks that can stand behind the first character of an operator. -/
def markRanges : List (Nat × Nat) :=
  [(0x0300, 0x036F), (0x1DC0, 0x1DFF), (0x20D0, 0x20FF), (0xFE00, 0xFE0F), (0xFE20, 0xFE2F),
    (0xE0100, 0xE01EF)]

/-- Characters that can begin an operator. -/
def isHead (c : Char) : Bool :=
  "/=-+!*%<>&|^~?".toList.contains c || Text.inRanges headRanges c

/-- Characters that can stand behind the first one of an operator. -/
def isCharacter (c : Char) : Bool := isHead c || Text.inRanges markRanges c

/-- Whether a text is the name of an operator. -/
def isValid (s : String) : Bool :=
  match s.toList with
  | [] => false
  | c :: cs => isHead c && cs.all isCharacter

end OperatorName

/-! ## Fixity -/

/-- Where an operator stands: before, behind or between its operands. -/
inductive Fixity where
  | before | behind | between
  deriving DecidableEq, Repr, Inhabited

namespace Fixity

/-- The fixity that a modifier states. -/
def ofWord? : String → Option Fixity
  | "prefix" => some before
  | "postfix" => some behind
  | "infix" => some between
  | _ => none

/-- The fixity that the first of some modifiers states; between the operands if none does. -/
def ofModifiers (ms : List Modifier) : Fixity :=
  (ms.findSome? fun m => ofWord? m.name).getD between

end Fixity

/-! ## Precedence groups -/

/-- Which way operators of equal precedence group. -/
inductive Associativity where
  | left | right | neither
  deriving DecidableEq, Repr, Inhabited

namespace Associativity

/-- The associativity that a word states. -/
def ofWord : Option String → Associativity
  | some "left" => left
  | some "right" => right
  | _ => neither

end Associativity

/-- What a precedence group states. -/
structure Precedence where
  higherThan : List String
  lowerThan : List String
  associativity : Associativity
  assignment : Bool
  deriving DecidableEq, Repr, Inhabited

namespace Precedence

/-- The values of an attribute of a precedence group. -/
def values (label : String) (c : Cursor) : List String :=
  let attributes := c.children.filter fun e =>
    e.isKind .precedenceGroupAttribute && e.firstSignificant?.any fun t => t.text == label
  attributes.flatMap fun a =>
    ((a.significantTokens.drop 2).filter fun t => t.kind != .comma).map Token.text

/-- Reads a precedence group. -/
def ofCursor (c : Cursor) : Precedence where
  higherThan := values "higherThan" c
  lowerThan := values "lowerThan" c
  associativity := .ofWord (values "associativity" c).head?
  assignment := (values "assignment" c).head? == some "true"

end Precedence

end SwiftOutline
