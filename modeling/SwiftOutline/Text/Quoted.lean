/-
  SwiftOutline.Text.Quoted

  Texts in quotes on one line: quotes, backslashes and all characters that
  cannot be seen for themselves are escaped. Among these are the characters with
  the Unicode property `Default_Ignorable_Code_Point`, fillers and joiners among
  them, which show nothing unless a font supports them.
-/
import SwiftOutline.Text.Extending
import SwiftOutline.Text.Pictureless
import SwiftOutline.Text.Ranges

namespace SwiftOutline

namespace Text

/-- The numbers of the characters with the property `Default_Ignorable_Code_Point`. -/
def ignorableRanges : List (Nat × Nat) :=
  [(0x00AD, 0x00AD), (0x034F, 0x034F), (0x061C, 0x061C), (0x115F, 0x1160), (0x17B4, 0x17B5),
    (0x180B, 0x180F), (0x200B, 0x200F), (0x202A, 0x202E), (0x2060, 0x206F), (0x3164, 0x3164),
    (0xFE00, 0xFE0F), (0xFEFF, 0xFEFF), (0xFFA0, 0xFFA0), (0xFFF0, 0xFFF8), (0x1BCA0, 0x1BCA3),
    (0x1D173, 0x1D17A), (0xE0000, 0xE0FFF)]

/-- Characters that show nothing by default. -/
def isIgnorable (c : Char) : Bool := inRanges ignorableRanges c

/-- Characters that cannot be seen for themselves, and are escaped by number. -/
def isInvisible (c : Char) : Bool := isExtending c || isIgnorable c || isPictureless c

/-- A character as it stands between quotes. -/
def quoteChar (c : Char) : List Char :=
  match c with
  | '"' => ['\\', '"']
  | '\\' => ['\\', '\\']
  | '\n' => ['\\', 'n']
  | '\r' => ['\\', 'r']
  | '\t' => ['\\', 't']
  | '\x00' => ['\\', '0']
  | c =>
    if isInvisible c then
      ['\\', 'u', '\x7b'] ++ Nat.toDigits 16 c.toNat ++ ['\x7d']
    else [c]

/-- A text in quotes. -/
def quoted (s : String) : String :=
  String.ofList ('"' :: s.toList.flatMap quoteChar ++ ['"'])

end Text

end SwiftOutline
