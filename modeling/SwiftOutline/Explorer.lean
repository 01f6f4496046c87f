/-
  SwiftOutline.Explorer

  A source text that changes over time, with what was found in it last. Between a
  change and the next search the explorer is stale. What a search finds is read
  only when it is asked for, which may be after the text has changed.
-/
import SwiftOutline.Outline.Access
import SwiftOutline.Settings

namespace SwiftOutline

/-- A source text with the declarations that were found last. -/
structure Explorer where
  settings : Settings
  source : String
  /-- The text has changed since the last search, or there was none yet. -/
  isStale : Bool
  /-- The declarations that were found last. -/
  handles : List Handle
  /-- The properties of these declarations that were read already. -/
  readings : List ((List Nat × Property) × Reading)
  /-- What the text that was searched last was found wrong with. -/
  diagnostics : List Diagnostic
  locations : LocationService

namespace Explorer

/-- An explorer of a text. Nothing is searched yet. -/
def ofSource (settings : Settings) (source : String) : Explorer where
  settings := settings
  source := source
  isStale := true
  handles := []
  readings := []
  diagnostics := []
  locations := {}

/-- The explorer of another text; the declarations stay until the next search. -/
def update (e : Explorer) (source : String) : Explorer :=
  { e with source := source, isStale := true }

/-- Searches the text for declarations. -/
def collect (e : Explorer) : Explorer :=
  let p := parse e.source
  { e with
    isStale := false
    handles := Handle.allIn e.settings.viewMode (.ofTree p.tree)
    readings := []
    diagnostics := p.diagnostics }

/-- The outline that the declarations make, each read now. -/
def outline (e : Explorer) : Outline :=
  e.handles.filterMap (Handle.declaration? e.settings.viewMode)

/-- Reads the declaration at a path. -/
def declaration? (e : Explorer) : (path : List Nat) → Option Declaration
  | [] => none
  | i :: path =>
    (e.handles[i]?.bind (Handle.declaration? e.settings.viewMode)).bind fun d => d.at? path

/-- A property of the declaration at a path: as it was read first, or else as it is read now. -/
def reading? (e : Explorer) (path : List Nat) (p : Property) : Option Reading :=
  match e.readings.lookup (path, p) with
  | some r => some r
  | none => (e.declaration? path).map p.of

/-- Reads a property of the declaration at a path, and keeps it. -/
def read (e : Explorer) (path : List Nat) (p : Property) : Option Reading × Explorer :=
  match e.reading? path p with
  | some r => (some r, { e with readings := ((path, p), r) :: e.readings })
  | none => (none, e)

/-- Where declarations stand, in the text that they were read from. -/
def locate (e : Explorer) : List Declaration → List Location × Explorer
  | [] => ([], e)
  | d :: ds =>
    let (l, s) := e.locations.locate d.place
    let (ls, e) := locate { e with locations := s } ds
    (l :: ls, e)

/-- Forgets the line starts that are kept. -/
def resetLocations (e : Explorer) : Explorer :=
  { e with locations := e.locations.reset }

end Explorer

end SwiftOutline
