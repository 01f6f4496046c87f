/-
  SwiftOutline.Settings

  What a user can choose about outlines, and how a settings file says it:

    view_mode = "fixed_up"
-/
import SwiftOutline.Settings.Reader
import SwiftOutline.Tree.ViewMode

namespace SwiftOutline

namespace ViewMode

/-- The name of a view mode in a settings file. -/
def name : ViewMode → String
  | sourceAccurate => "source_accurate"
  | fixedUp => "fixed_up"

/-- The view mode of a name. -/
def ofName? : String → Option ViewMode
  | "source_accurate" => some sourceAccurate
  | "fixed_up" => some fixedUp
  | _ => none

end ViewMode

/-- What a user can choose. -/
structure Settings where
  viewMode : ViewMode := .sourceAccurate
  deriving DecidableEq, Repr, Inhabited

namespace Settings

/-- Whether an item is there but holds nothing. -/
def Item.isVacant : Item → Bool
  | .text _ => false
  | .emptyList => true
  | .group _ items => items.isEmpty

/-- The view mode that an item states: its name as a text, or as the one name in a group, with
    nothing behind it. -/
def viewModeOf? : Item → Option ViewMode
  | .text name => ViewMode.ofName? name
  | .group _ [(name, i)] => if i.isVacant then ViewMode.ofName? name else none
  | _ => none

/-- The settings that items state. What is not stated has its default; unknown names are
    refused. -/
def ofItems? : Items → Option Settings
  | [] => some {}
  | [(name, i)] => if name == "view_mode" then (viewModeOf? i).map fun m => ⟨m⟩ else none
  | _ => none

/-- The settings in the text of a settings file; none if it is refused. -/
def ofText? (text : String) : Option Settings := (items? text).bind ofItems?

end Settings

end SwiftOutline
