/-
  SwiftOutline.TypeShape.Basic

  The shapes of type expressions. A shape tells what kind of type is written,
  not what the type means.
-/
import SwiftOutline.Outline.Attribute

namespace SwiftOutline

/-- How a collection type is spelled. -/
inductive SurfaceForm where
  /-- With brackets: `[T]`, `[K: V]`. -/
  | bracket
  /-- By name: `Array<T>`, `Dictionary<K, V>`, `Set<T>`. -/
  | generic
  deriving DecidableEq, Repr, Inhabited

/-- A parameter of a function, subscript or closure, an element of a tuple type, or an associated
    value of an enum case, with types from `τ`. -/
structure Parameter (τ : Type) where
  /-- The external label; none if it is left out or `_`. -/
  label : Option String
  /-- The internal name, which is the label if only one name is written. -/
  name : Option String
  type : τ
  /-- The type as it is written. -/
  typeText : Option String
  isVariadic : Bool
  isInout : Bool
  defaultValue : Option String
  attributes : List Attribute
  /-- The label is written as `_`. -/
  isLabelOmitted : Bool
  deriving DecidableEq, Repr, Inhabited

/-- The shape of a type expression. Every shape but `empty` tells whether the type is optional. -/
inductive TypeShape where
  /-- A named type, as it is written. -/
  | simple (name : String) (optional : Bool)
  /-- A tuple of several elements. -/
  | tuple (elements : List (Parameter TypeShape)) (optional : Bool)
  /-- A function type. -/
  | closure (input : List (Parameter TypeShape)) (output : TypeShape) (effects : Effects)
      (escaping : Bool) (optional : Bool)
  | array (element : TypeShape) (form : SurfaceForm) (optional : Bool)
  | dictionary (key value : TypeShape) (form : SurfaceForm) (optional : Bool)
  | set (element : TypeShape) (form : SurfaceForm) (optional : Bool)
  | result (success failure : TypeShape) (optional : Bool)
  /-- The type of no value: `Void` or `()`. -/
  | void (optional : Bool)
  /-- No type, or none of the shapes above. -/
  | empty
  deriving Repr, Inhabited

namespace TypeShape

/-! ## Questions -/

/-- Whether the type is optional. -/
def isOptional : TypeShape → Bool
  | simple _ o | tuple _ o | closure _ _ _ _ o | array _ _ o | dictionary _ _ _ o | set _ _ o
  | result _ _ o | void o => o
  | empty => false

/-- Whether there is no type, or one of no known shape. -/
def isEmpty : TypeShape → Bool
  | empty => true
  | _ => false

/-- Whether this is the type of no value. -/
def isVoid : TypeShape → Bool
  | void _ => true
  | _ => false

/-- How a collection type is spelled. -/
def form? : TypeShape → Option SurfaceForm
  | array _ f _ | dictionary _ _ f _ | set _ f _ => some f
  | _ => none

/-- Whether a function with these parameters takes nothing: none, or a single `Void`. -/
def takesNothing : List (Parameter TypeShape) → Bool
  | [] => true
  | [p] => p.type.isVoid
  | _ => false

/-! ## Changes -/

/-- The type made optional; `empty` stays as it is. -/
def optional : TypeShape → TypeShape
  | simple n _ => simple n true
  | tuple es _ => tuple es true
  | closure i out e esc _ => closure i out e esc true
  | array t f _ => array t f true
  | dictionary k v f _ => dictionary k v f true
  | set t f _ => set t f true
  | result s f _ => result s f true
  | void _ => void true
  | empty => empty

/-- The type made optional if `b`, else as it is. -/
def withOptional (t : TypeShape) (b : Bool) : TypeShape := if b then t.optional else t

mutual

/-- The type with all collections in it spelled in one form. -/
def withForm (f : SurfaceForm) : TypeShape → TypeShape
  | simple n o => simple n o
  | tuple es o => tuple (withFormAll f es) o
  | closure i out e esc o => closure (withFormAll f i) (out.withForm f) e esc o
  | array t _ o => array (t.withForm f) f o
  | dictionary k v _ o => dictionary (k.withForm f) (v.withForm f) f o
  | set t _ o => set (t.withForm f) f o
  | result s g o => result (s.withForm f) (g.withForm f) o
  | void o => void o
  | empty => empty

/-- Parameters with all collections in their types spelled in one form. -/
def withFormAll (f : SurfaceForm) : List (Parameter TypeShape) → List (Parameter TypeShape)
  | [] => []
  | p :: ps => { p with type := p.type.withForm f } :: withFormAll f ps

end

/-! ## Equality -/

mutual

/-- Whether two shapes are equal. -/
def same : TypeShape → TypeShape → Bool
  | simple n o, simple n' o' => n == n' && o == o'
  | tuple es o, tuple es' o' => sameAll es es' && o == o'
  | closure i out e esc o, closure i' out' e' esc' o' =>
    sameAll i i' && same out out' && e == e' && esc == esc' && o == o'
  | array t f o, array t' f' o' => same t t' && f == f' && o == o'
  | dictionary k v f o, dictionary k' v' f' o' =>
    same k k' && same v v' && f == f' && o == o'
  | set t f o, set t' f' o' => same t t' && f == f' && o == o'
  | result s g o, result s' g' o' => same s s' && same g g' && o == o'
  | void o, void o' => o == o'
  | empty, empty => true
  | _, _ => false

/-- Whether two parameters are equal. -/
def sameParameter : Parameter TypeShape → Parameter TypeShape → Bool
  | ⟨label, name, type, text, variadic, byRef, value, attributes, omitted⟩, q =>
    label == q.label && name == q.name && same type q.type && text == q.typeText
      && variadic == q.isVariadic && byRef == q.isInout && value == q.defaultValue
      && attributes == q.attributes && omitted == q.isLabelOmitted

/-- Whether two sequences of parameters are equal. -/
def sameAll : List (Parameter TypeShape) → List (Parameter TypeShape) → Bool
  | [], [] => true
  | p :: ps, q :: qs => sameParameter p q && sameAll ps qs
  | _, _ => false

end

instance : BEq TypeShape := ⟨same⟩

instance : BEq (Parameter TypeShape) := ⟨sameParameter⟩

end TypeShape

end SwiftOutline
