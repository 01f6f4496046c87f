/-
  SwiftOutline.TypeShape.Printer

  Shapes written as type expressions.
-/
import SwiftOutline.TypeShape.Basic

namespace SwiftOutline

namespace TypeShape

/-- The mark of an optional type. -/
def mark (optional : Bool) : String := if optional then "?" else ""

/-- Effect specifiers, each behind a blank. -/
def renderEffects (e : Effects) : String :=
  let spaced : Option String → String
    | some word => " " ++ word
    | none => ""
  spaced e.async ++ spaced e.throws

mutual

/-- A shape as a type expression. -/
def render : TypeShape → String
  | simple n o => n ++ mark o
  | tuple es o => "(" ++ renderAll es ++ ")" ++ mark o
  | closure i out e esc o =>
    let arrow := "(" ++ renderAll i ++ ")" ++ renderEffects e ++ " -> " ++ render out
    (if esc then "@escaping " else "") ++ (if o then "(" ++ arrow ++ ")" else arrow) ++ mark o
  | array t .bracket o => "[" ++ render t ++ "]" ++ mark o
  | array t .generic o => "Array<" ++ render t ++ ">" ++ mark o
  | dictionary k v .bracket o => "[" ++ render k ++ ": " ++ render v ++ "]" ++ mark o
  | dictionary k v .generic o => "Dictionary<" ++ render k ++ ", " ++ render v ++ ">" ++ mark o
  | set t _ o => "Set<" ++ render t ++ ">" ++ mark o
  | result s f o => "Result<" ++ render s ++ ", " ++ render f ++ ">" ++ mark o
  | void o => "Void" ++ mark o
  | empty => ""

/-- A parameter: its label, type and dots. -/
def renderParameter : Parameter TypeShape → String
  | ⟨label, _, type, _, variadic, _, _, _, _⟩ =>
    (match label with
      | some l => l ++ ": "
      | none => "")
      ++ render type ++ (if variadic then "..." else "")

/-- Parameters with commas between them. -/
def renderAll : List (Parameter TypeShape) → String
  | [] => ""
  | [p] => renderParameter p
  | p :: q :: ps => renderParameter p ++ ", " ++ renderAll (q :: ps)

end

end TypeShape

end SwiftOutline
