/-
  SwiftOutline.Proofs.TypeShape.Printable

  The shapes that can be written as type expressions, the syntax trees of these,
  and what of a shape is written at all.
-/
import SwiftOutline.Grammar.TypeExpr
import SwiftOutline.Token.Lexer
import SwiftOutline.TypeShape.Printer

namespace SwiftOutline

/-! ## What is written -/

/-- A parameter with nothing but a label, a type and dots. -/
def Parameter.written (label : Option String) (type : TypeShape) (variadic : Bool) :
    Parameter TypeShape where
  label := label
  name := none
  type := type
  typeText := none
  isVariadic := variadic
  isInout := false
  defaultValue := none
  attributes := []
  isLabelOmitted := false

namespace TypeShape

mutual

/-- The shape with nothing but labels, types and dots in its parameters, since no more is written
    of them. -/
def erased : TypeShape → TypeShape
  | simple n o => simple n o
  | tuple es o => tuple (erasedAll es) o
  | closure i out e esc o => closure (erasedAll i) out.erased e esc o
  | array t f o => array t.erased f o
  | dictionary k v f o => dictionary k.erased v.erased f o
  | set t f o => set t.erased f o
  | result s f o => result s.erased f.erased o
  | void o => void o
  | empty => empty

/-- Parameters with nothing but their labels, types and dots. -/
def erasedAll : List (Parameter TypeShape) → List (Parameter TypeShape)
  | [] => []
  | p :: ps => .written p.label p.type.erased p.isVariadic :: erasedAll ps

end

end TypeShape

/-! ## What can be written -/

/-- A plain identifier: ASCII letters, digits and `_`, no digit first, no reserved word, and no word
    that means something in front of a type. -/
structure IsPlainName (n : String) : Prop where
  ascii : n.toList.all Lexer.isWordChar = true
  first : (n.toList.head?.any fun c => !c.isDigit) = true
  ident : Lexer.wordKind n = .ident
  notSpecifier : n ∉ Grammar.typeSpecifiers
  notSome : n ≠ "some"
  notAny : n ≠ "any"

/-- A label: a single token that can be one, and not `_`. -/
def IsLabel (l : String) : Prop :=
  ∃ k : TokenKind, lex l = [⟨k, l⟩] ∧ k.isArgumentLabel = true ∧ k ≠ .underscore

/-- Effects of a function type: `async` or `reasync`, and `throws`, `rethrows` or `throws(Name)`. -/
structure Effects.Printable (e : Effects) : Prop where
  async : e.async = none ∨ e.async = some "async" ∨ e.async = some "reasync"
  throws : e.throws = none ∨ e.throws = some "throws" ∨ e.throws = some "rethrows" ∨
    ∃ n, IsPlainName n ∧ e.throws = some ("throws(" ++ n ++ ")")

namespace TypeShape

/-- Shapes that can be written: no part is `empty`, names are plain and stand for no other shape,
    sets are spelled by name, and tuples have several elements. -/
inductive Printable : TypeShape → Prop where
  | void {o : Bool} : Printable (.void o)
  | simple {n : String} {o : Bool} (name : IsPlainName n) (notVoid : n ≠ "Void")
      (notResult : n ≠ "Result") : Printable (.simple n o)
  | array {t : TypeShape} {f : SurfaceForm} {o : Bool} (element : Printable t) :
      Printable (.array t f o)
  | dictionary {k v : TypeShape} {f : SurfaceForm} {o : Bool} (key : Printable k)
      (value : Printable v) : Printable (.dictionary k v f o)
  | set {t : TypeShape} {o : Bool} (element : Printable t) : Printable (.set t .generic o)
  | result {s f : TypeShape} {o : Bool} (success : Printable s) (failure : Printable f) :
      Printable (.result s f o)
  | tuple {ps : List (Parameter TypeShape)} {o : Bool} (several : 2 ≤ ps.length)
      (labels : ∀ p ∈ ps, ∀ l ∈ p.label, IsLabel l) (types : ∀ p ∈ ps, Printable p.type) :
      Printable (.tuple ps o)
  | closure {ps : List (Parameter TypeShape)} {out : TypeShape} {e : Effects} {esc o : Bool}
      (labels : ∀ p ∈ ps, ∀ l ∈ p.label, IsLabel l) (types : ∀ p ∈ ps, Printable p.type)
      (output : Printable out) (effects : e.Printable) : Printable (.closure ps out e esc o)

/-! ## Trees of what is written -/

/-- A blank. -/
def blankTree : Tree := .leaf ⟨.whitespace, " "⟩

/-- An identifier. -/
def wordTree (s : String) : Tree := .leaf ⟨.ident, s⟩

/-- A type with the mark of an optional type behind it, if it is to be one. -/
def markedTree (optional : Bool) (t : Tree) : Tree :=
  if optional then .node .optionalType [t, .leaf ⟨.question, "?"⟩] else t

/-- A named type without generic arguments. -/
def namedTree (name : String) : Tree := .node .simpleType [wordTree name]

/-- A named type with one generic argument. -/
def genericTree (name : String) (t : Tree) : Tree :=
  .node .simpleType [wordTree name, .node .genericArgumentClause
    [.leaf ⟨.lt, "<"⟩, .node .genericArgument [t], .leaf ⟨.gt, ">"⟩]]

/-- A named type with two generic arguments. -/
def genericPairTree (name : String) (t u : Tree) : Tree :=
  .node .simpleType [wordTree name, .node .genericArgumentClause
    [.leaf ⟨.lt, "<"⟩, .node .genericArgument [t], .leaf ⟨.comma, ","⟩, blankTree,
      .node .genericArgument [u], .leaf ⟨.gt, ">"⟩]]

/-- An array type in brackets. -/
def arrayTree (t : Tree) : Tree :=
  .node .arrayType [.leaf ⟨.lBracket, "["⟩, t, .leaf ⟨.rBracket, "]"⟩]

/-- A dictionary type in brackets. -/
def dictionaryTree (t u : Tree) : Tree :=
  .node .dictionaryType [.leaf ⟨.lBracket, "["⟩, t, .leaf ⟨.colon, ":"⟩, blankTree, u,
    .leaf ⟨.rBracket, "]"⟩]

/-- A tuple type of elements with commas between them. -/
def tupleTree (elements : List Tree) : Tree :=
  .node .tupleType (.leaf ⟨.lParen, "("⟩ :: (elements ++ [.leaf ⟨.rParen, ")"⟩]))

/-- The label of an element with what follows it. -/
def labelTrees : Option String → List Tree
  | some l => (lex l).map .leaf ++ [.leaf ⟨.colon, ":"⟩, blankTree]
  | none => []

/-- The dots of an element. -/
def dotTrees (variadic : Bool) : List Tree :=
  if variadic then [.leaf ⟨.ellipsis, "..."⟩] else []

/-- An element of a tuple type. -/
def elementTree (label : Option String) (t : Tree) (variadic : Bool) : Tree :=
  .node .tupleTypeElement (labelTrees label ++ t :: dotTrees variadic)

/-- `throws` or `rethrows`, with the type that is thrown. -/
def thrownTrees (text : String) : List Tree :=
  match lex text with
  | [word, opening, name, closing] =>
    [.leaf word, .leaf opening, .node .simpleType [.leaf name], .leaf closing]
  | ts => ts.map .leaf

/-- Effect specifiers with a blank between them. -/
def specifierTrees (e : Effects) : List Tree :=
  match e.async, e.throws with
  | none, none => []
  | some a, none => [wordTree a]
  | none, some t => thrownTrees t
  | some a, some t => wordTree a :: blankTree :: thrownTrees t

/-- Effect specifiers behind a blank, if there are any. -/
def effectTrees (e : Effects) : List Tree :=
  match specifierTrees e with
  | [] => []
  | ts => [blankTree, .node .effectSpecifiers ts]

/-- The result of a function type. -/
def returnTree (out : Tree) : Tree := .node .returnClause [.leaf ⟨.arrow, "->"⟩, blankTree, out]

/-- A function type. -/
def functionTree (input : List Tree) (e : Effects) (out : Tree) : Tree :=
  .node .functionType (tupleTree input :: (effectTrees e ++ [blankTree, returnTree out]))

/-- A function type, in parentheses if it is optional. -/
def closureTree (optional : Bool) (t : Tree) : Tree :=
  if optional then markedTree true (tupleTree [elementTree none t false]) else t

/-- A type behind `@escaping`, if it is to be. -/
def escapingTree (escaping : Bool) (t : Tree) : Tree :=
  if escaping then
    .node .attributedType [.node .attributeList
      [.node .attributeUse [.leaf ⟨.atSign, "@"⟩, wordTree "escaping"]], blankTree, t]
  else t

mutual

/-- The syntax tree of a shape that is written. -/
def tree : TypeShape → Tree
  | simple n o => markedTree o (namedTree n)
  | tuple es o => markedTree o (tupleTree (elementTrees es))
  | closure i out e esc o =>
    escapingTree esc (closureTree o (functionTree (elementTrees i) e out.tree))
  | array t .bracket o => markedTree o (arrayTree t.tree)
  | array t .generic o => markedTree o (genericTree "Array" t.tree)
  | dictionary k v .bracket o => markedTree o (dictionaryTree k.tree v.tree)
  | dictionary k v .generic o => markedTree o (genericPairTree "Dictionary" k.tree v.tree)
  | set t _ o => markedTree o (genericTree "Set" t.tree)
  | result s f o => markedTree o (genericPairTree "Result" s.tree f.tree)
  | void o => markedTree o (namedTree "Void")
  | empty => .node .simpleType []

/-- The syntax trees of parameters, with commas between them. -/
def elementTrees : List (Parameter TypeShape) → List Tree
  | [] => []
  | [p] => [elementTree p.label p.type.tree p.isVariadic]
  | p :: q :: ps =>
    elementTree p.label p.type.tree p.isVariadic :: .leaf ⟨.comma, ","⟩ :: blankTree ::
      elementTrees (q :: ps)

end

end TypeShape

end SwiftOutline
