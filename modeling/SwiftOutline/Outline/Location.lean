/-
  SwiftOutline.Outline.Location

  Lines and columns, counted from zero and in bytes, of the places in a text,
  and a service that keeps the line starts of the tree it was asked about last.
-/
import SwiftOutline.Tree.Cursor

namespace SwiftOutline

/-! ## Positions -/

/-- A place between two characters of a text. -/
structure Position where
  line : Nat
  column : Nat
  offset : Nat
  deriving DecidableEq, Repr, Inhabited

/-- The first and the last place of an element; none where a place is outside the text. -/
structure Location where
  start : Option Position
  stop : Option Position
  deriving DecidableEq, Repr, Inhabited

namespace Location

/-- Whether both places are known. -/
def isResolved (l : Location) : Bool := l.start.isSome && l.stop.isSome

end Location

/-! ## Line starts -/

/-- The offsets behind the line feeds of a text that begins at `offset`. -/
def lineStartsFrom : (offset : Nat) → List Char → List Nat
  | _, [] => []
  | offset, c :: cs =>
    let next := offset + c.utf8Size
    if c == '\n' then next :: lineStartsFrom next cs else lineStartsFrom next cs

/-- Where the lines of a text begin. -/
structure LineIndex where
  text : String
  starts : List Nat
  deriving Repr, Inhabited

namespace LineIndex

/-- The line starts of a text. -/
def ofText (text : String) : LineIndex := ⟨text, 0 :: lineStartsFrom 0 text.toList⟩

/-- The place at an offset: its line is the last one that does not begin behind it. -/
def position? (i : LineIndex) (offset : Nat) : Option Position :=
  if i.text.utf8ByteSize < offset then none
  else
    let reached := i.starts.takeWhile fun s => s ≤ offset
    reached.getLast?.map fun start => ⟨reached.length - 1, offset - start, offset⟩

/-- The places at the ends of a span. -/
def locate (i : LineIndex) (s : Span) : Location := ⟨i.position? s.start, i.position? s.stop⟩

end LineIndex

namespace Cursor

/-- Where the element stands, from its first to its last token that is no trivia. -/
def location (c : Cursor) : Location :=
  (LineIndex.ofText c.root.text).locate c.trimmedSpan

end Cursor

/-! ## The service -/

/-- The line starts of the tree that was asked about last, with what tells its root from the roots of
    other trees, be they of the same text or not. -/
structure LineCache (ι : Type) where
  index : Option (ι × LineIndex) := none
  deriving Repr, Inhabited

namespace LineCache

variable {ι : Type} [DecidableEq ι]

/-- Whether the line starts at hand were built for a root. -/
def isBuiltFor (s : LineCache ι) (root : ι) : Bool := s.index.any fun i => i.1 == root

/-- The line starts of the tree that an element belongs to: those at hand if they were built for
    its root, else new ones. -/
def indexFor (s : LineCache ι) (root : ι) (c : Cursor) : LineIndex :=
  match s.index with
  | some (_, i) => if s.isBuiltFor root then i else .ofText c.root.text
  | none => .ofText c.root.text

/-- Where an element stands, and the line starts for the next question. -/
def locate (s : LineCache ι) (root : ι) (c : Cursor) : Location × LineCache ι :=
  let i := s.indexFor root c
  (i.locate c.trimmedSpan, ⟨some (root, i)⟩)

/-- Forgets the line starts. -/
def reset (_ : LineCache ι) : LineCache ι := ⟨none⟩

end LineCache

/-- Answers where elements stand, and keeps the line starts of the last text for the next question.
    Roots are told apart by their texts, which are no more than what the line starts depend on. -/
abbrev LocationService := LineCache String

/-- Where an element stands, and the service for the next question. -/
def LocationService.locate (s : LocationService) (c : Cursor) : Location × LocationService :=
  LineCache.locate s c.root.text c

end SwiftOutline
