/-
  SwiftOutline.File

  Outlines and settings of files: a file has a name and, if it exists, bytes,
  which have to be text in UTF-8.
-/
import SwiftOutline.Outline.Collect
import SwiftOutline.Settings

namespace SwiftOutline

/-- A file, as far as it can be read. -/
structure File where
  name : String
  /-- The bytes of the file; none if there is no such file. -/
  bytes : Option ByteArray

/-! ## Text -/

/-- Why the text of a file cannot be had. -/
inductive ReadProblem where
  | missing
  | directory
  | nameTooLong
  /-- The name contains a NUL character. -/
  | nulInName
  /-- The bytes are no text. -/
  | notText
  deriving DecidableEq, Repr, Inhabited

namespace ReadProblem

/-- The problem in words. -/
def message : ReadProblem → String
  | missing => "No such file or directory (os error 2)"
  | directory => "Is a directory (os error 21)"
  | nameTooLong => "File name too long (os error 36)"
  | nulInName => "file name contained an unexpected NUL byte"
  | notText => "stream did not contain valid UTF-8"

/-- The greatest number of bytes in a path. -/
def pathLimit : Nat := 4095

/-- The greatest number of bytes in a part of a path. -/
def partLimit : Nat := 255

/-- The parts of a path that name an entry of a directory; the others are empty or lead to the
    same directory or the one above. -/
def namedParts (path : String) : List String :=
  (path.splitOn "/").filter fun p => p != "" && p != "." && p != ".."

/-- Why a path with no file behind it cannot be read. One without any named part leads to a
    directory, and of several named parts the first one is not found. -/
def ofAbsent (path : String) : ReadProblem :=
  if path.toList.contains '\x00' then nulInName
  else if pathLimit < path.utf8ByteSize then nameTooLong
  else if path == "" then missing
  else
    match namedParts path with
    | [] => directory
    | p :: _ => if partLimit < p.utf8ByteSize then nameTooLong else missing

end ReadProblem

namespace File

/-- The text of the file. -/
def text (f : File) : Except ReadProblem String :=
  match f.bytes with
  | none => .error (.ofAbsent f.name)
  | some bytes =>
    match String.fromUTF8? bytes with
    | some text => .ok text
    | none => .error .notText

end File

/-! ## Outlines -/

/-- A file of the given name cannot be read. -/
structure Unreadable where
  name : String
  problem : ReadProblem
  deriving DecidableEq, Repr

namespace Unreadable

/-- The failure to read a source file, in words. -/
def message (u : Unreadable) : String :=
  "failed to read '" ++ u.name ++ "': " ++ u.problem.message

end Unreadable

namespace File

/-- The outline of a source file. -/
def outline (f : File) (settings : Settings) : Except Unreadable Outline :=
  match f.text with
  | .ok text => .ok (Outline.ofSource settings.viewMode text)
  | .error problem => .error ⟨f.name, problem⟩

end File

/-! ## Settings -/

/-- Why a settings file cannot be used. -/
inductive SettingsProblem where
  | unreadable (file : Unreadable)
  /-- The text is refused. -/
  | invalid
  deriving DecidableEq, Repr

namespace SettingsProblem

/-- The failure to read a settings file, in words; nothing is said of a text that is refused. -/
def message? : SettingsProblem → Option String
  | unreadable u => some ("failed to read config '" ++ u.name ++ "': " ++ u.problem.message)
  | invalid => none

end SettingsProblem

namespace File

/-- The settings in a settings file. -/
def settings (f : File) : Except SettingsProblem Settings :=
  match f.text with
  | .ok text =>
    match Settings.ofText? text with
    | some s => .ok s
    | none => .error .invalid
  | .error problem => .error (.unreadable ⟨f.name, problem⟩)

/-- The settings in a settings file, or the default ones if it cannot be used. -/
def settingsOrDefault (f : File) : Settings :=
  match f.settings with
  | .ok s => s
  | .error _ => {}

end File

end SwiftOutline
