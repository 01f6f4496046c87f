/-
  SwiftOutline.TypeShape.Classify

  The shape of a type expression in a tree, and the parameters that types are
  part of.

  `Void`, `Result`, `Array`, `Dictionary`, `Set` and `Optional`, with or without
  `Swift.` in front, are shapes of their own. Parentheses around one type, marks
  of optionality and attributes are looked through. What is left is `empty`.
-/
import SwiftOutline.TypeShape.Basic

namespace SwiftOutline

namespace Tree

mutual

/-- Number of levels of nodes in a tree. -/
def height : Tree → Nat
  | .leaf _ => 0
  | .node _ children => forestHeight children + 1

/-- Number of levels of nodes in a sequence of trees. -/
def forestHeight : List Tree → Nat
  | [] => 0
  | t :: ts => max (height t) (forestHeight ts)

end

end Tree

/-! ## Parameters -/

namespace Parameter

/-- The names in front of the type of a parameter, and whether a colon follows them. -/
def namesOf : List Tree → List String × Bool
  | [] => ([], false)
  | .leaf t :: rest =>
    if t.kind == .colon then ([], true)
    else if t.isTrivia || t.kind == .ellipsis then namesOf rest
    else
      let (names, colon) := namesOf rest
      (t.text :: names, colon)
  | .node k _ :: rest => if k.isType then ([], false) else namesOf rest

/-- A name, unless it is `_`. -/
def named (s : String) : Option String := if s == "_" then none else some s

/-- Reads a parameter whose type is read by `classify`, and is `absent` if there is none. With
    `namesNeedColon` a name without colon is none. -/
def ofCursorWith {τ : Type} (absent : τ) (classify : Cursor → τ) (namesNeedColon : Bool)
    (m : ViewMode) (c : Cursor) : Parameter τ :=
  let (written, colon) := namesOf c.tree.children
  let names := if namesNeedColon && !colon then [] else written
  let type := c.typeIn? m
  let attributed := type.filter fun t => t.isKind .attributedType
  { label := names.head?.bind named
    name := (names[1]?.or names.head?).bind named
    type := (type.map classify).getD absent
    typeText := type.map Cursor.description
    isVariadic := c.hasToken .ellipsis
    isInout := attributed.any fun t => t.hasToken .kwInout
    defaultValue := initialValue? m c
    attributes := Attribute.allIn m c ++ attributed.toList.flatMap (Attribute.allIn m)
    isLabelOmitted := names.head? == some "_" }

end Parameter

namespace TypeShape

/-! ## Named types -/

/-- The name and the generic arguments of a named type; `none` if something follows the generic
    arguments. -/
def genericForm? (name : String) (arguments : Option (List Cursor)) :
    List Cursor → Option (String × List Cursor)
  | [] => some (name, arguments.getD [])
  | e :: rest =>
    match e.tree with
    | .leaf t =>
      if t.isTrivia then genericForm? name arguments rest
      else if arguments.isSome then none
      else genericForm? (name ++ t.text) none rest
    | .node k _ =>
      if k == .genericArgumentClause && arguments.isNone then
        let types := (e.children.filter fun a => a.isKind .genericArgument).filterMap
          Cursor.typeChild?
        genericForm? name (some types) rest
      else none

/-- Whether the mark of an optional type follows the element. -/
def isMarkedOptional (c : Cursor) : Bool :=
  (c.lastSignificant?.bind Cursor.nextSignificant?).any fun t =>
    t.isToken .question || t.isToken .exclamation

/-- A name without the name of the standard module in front of it. -/
def unqualified (name : String) : String :=
  if "Swift.".toList.isPrefixOf name.toList then String.ofList (name.toList.drop 6) else name

/-- The shape of a named type, whose arguments are read by `classify`. -/
def ofNamed (classify : Cursor → TypeShape) (c : Cursor) : TypeShape :=
  let (name, arguments) := (genericForm? "" none c.elements).getD (c.description, [])
  let shape :=
    match unqualified name, arguments.map classify with
    | "Void", [] => void false
    | "Result", types => result (types.head?.getD empty) (types[1]?.getD empty) false
    | "Array", [t] => array t .generic false
    | "Dictionary", [k, v] => dictionary k v .generic false
    | "Set", [t] => set t .generic false
    | "Optional", [t] => t.optional
    | _, _ => simple c.description false
  shape.withOptional (isMarkedOptional c)

/-- The shape of the first type inside a type. -/
def inner (classify : Cursor → TypeShape) (c : Cursor) : TypeShape :=
  (c.typeChild?.map classify).getD empty

/-! ## Tuples and functions -/

/-- The elements of a tuple type. -/
def tupleElements (c : Cursor) : List Cursor :=
  c.children.filter fun e => e.isKind .tupleTypeElement

/-- An element of a tuple type as a parameter. -/
def ofElement (classify : Cursor → TypeShape) (c : Cursor) : Parameter TypeShape :=
  Parameter.ofCursorWith empty classify true .sourceAccurate c

/-- The shape of a tuple type: none of no elements is `Void`, and parentheses around a single type
    change nothing. -/
def ofTuple (classify : Cursor → TypeShape) (c : Cursor) : TypeShape :=
  match tupleElements c with
  | [] => void false
  | [e] =>
    if e.hasToken .ellipsis then tuple [ofElement classify e] false
    else inner classify e
  | es => tuple (es.map (ofElement classify)) false

/-- Whether a function type inside these nodes, the innermost first, is optional and escaping: up
    to the first node that is none of parentheses around it, attributes and marks of
    optionality. -/
def wrapping : List Cursor → Bool × Bool
  | [] => (false, false)
  | a :: rest =>
    match a.tree.nodeKind? with
    | some .optionalType | some .implicitlyUnwrappedOptionalType =>
      (true, (wrapping rest).2)
    | some .attributedType =>
      let (optional, escaping) := wrapping rest
      (optional, escaping
        || (Attribute.allIn .sourceAccurate a).any fun x => x.name == "escaping")
    | some .tupleTypeElement => wrapping rest
    | some .tupleType => if (tupleElements a).length == 1 then wrapping rest else (false, false)
    | _ => (false, false)

/-- The shape of a function type. -/
def ofFunction (classify : Cursor → TypeShape) (c : Cursor) : TypeShape :=
  let input := (c.child? .tupleType).map fun t => (tupleElements t).map (ofElement classify)
  let output := (c.child? .returnClause).map (inner classify)
  let (optional, escaping) := wrapping c.ancestors
  closure (input.getD []) (output.getD empty) (Effects.ofCursor c) escaping optional

/-! ## All types -/

/-- The shape of a type whose parts are read by `classify`. -/
def classifyWith (classify : Cursor → TypeShape) (c : Cursor) : TypeShape :=
  match c.tree.nodeKind? with
  | some .simpleType => ofNamed classify c
  | some .tupleType => ofTuple classify c
  | some .functionType => ofFunction classify c
  | some .optionalType | some .implicitlyUnwrappedOptionalType => (inner classify c).optional
  | some .attributedType => inner classify c
  | some .arrayType => (array (inner classify c) .bracket false).withOptional (isMarkedOptional c)
  | some .dictionaryType =>
    let types := (c.children.filter Cursor.isType).map classify
    (dictionary (types.head?.getD empty) (types[1]?.getD empty) .bracket false).withOptional
      (isMarkedOptional c)
  | _ => empty

/-- The shape of a type with at most `levels` levels of nodes. -/
def classifyWithin : (levels : Nat) → Cursor → TypeShape
  | 0, _ => empty
  | n + 1, c => classifyWith (classifyWithin n) c

/-- The shape of the type at a cursor. -/
def classify (c : Cursor) : TypeShape := classifyWithin c.tree.height c

end TypeShape

/-! ## Lists of parameters -/

namespace Parameter

/-- Reads a parameter of a function, subscript or closure. -/
def ofFunction (m : ViewMode) (c : Cursor) : Parameter TypeShape :=
  ofCursorWith .empty TypeShape.classify false m c

/-- Reads an associated value of an enum case. -/
def ofEnumCase (m : ViewMode) (c : Cursor) : Parameter TypeShape :=
  ofCursorWith .empty TypeShape.classify true m c

/-- Reads a list of parameters. -/
def ofClause (m : ViewMode) (c : Cursor) : List (Parameter TypeShape) :=
  (c.childrenOf m .parameter).map (ofFunction m)

/-- Whether the parameter's type is optional. -/
def isOptional (p : Parameter TypeShape) : Bool := p.type.isOptional

end Parameter

end SwiftOutline
