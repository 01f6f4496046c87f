/-
  SwiftOutline.Outline.Declaration

  Declarations with all their properties, nested declarations included, and
  when two of them are the same.
-/
import SwiftOutline.CasePattern.Basic
import SwiftOutline.Outline.Generics
import SwiftOutline.Outline.Location
import SwiftOutline.Outline.Operator
import SwiftOutline.Outline.Signature

namespace SwiftOutline

/-! ## Kinds -/

/-- Kinds of declarations, in the order in which an outline groups them. -/
inductive DeclarationKind where
  | actor | classType | conditional | deinitializer | enumeration | extensionOf | function
  | moduleImport | initializer | operator | precedenceGroup | protocolType | structType
  | subscript | typeAlias | binding | switch
  deriving DecidableEq, Repr, Inhabited

namespace DeclarationKind

/-- All kinds, in order. -/
def all : List DeclarationKind :=
  [actor, classType, conditional, deinitializer, enumeration, extensionOf, function, moduleImport,
    initializer, operator, precedenceGroup, protocolType, structType, subscript, typeAlias,
    binding, switch]

/-- The kind of declaration that a node introduces. -/
def ofNode? : NodeKind → Option DeclarationKind
  | .actorDecl => some actor
  | .classDecl => some classType
  | .ifConfigDecl => some conditional
  | .deinitializerDecl => some deinitializer
  | .enumDecl => some enumeration
  | .extensionDecl => some extensionOf
  | .functionDecl => some function
  | .importDecl => some moduleImport
  | .initializerDecl => some initializer
  | .operatorDecl => some operator
  | .precedenceGroupDecl => some precedenceGroup
  | .protocolDecl => some protocolType
  | .structDecl => some structType
  | .subscriptDecl => some subscript
  | .typeAliasDecl => some typeAlias
  | .variableDecl => some binding
  | .switchExpr => some switch
  | _ => none

end DeclarationKind

/-! ## Parts -/

/-- What all declarations have. -/
structure Header where
  /-- The word that introduces the declaration. -/
  keyword : String
  name : String
  attributes : List Attribute
  modifiers : List Modifier
  /-- The text of the declaration. -/
  description : String
  deriving DecidableEq, Repr, Inhabited

/-- One case of an enumeration. -/
structure EnumCase where
  name : String
  rawValue : Option String
  associatedValues : List (Parameter TypeShape)
  attributes : List Attribute
  modifiers : List Modifier
  /-- The case or its enumeration is marked `indirect`. -/
  isIndirect : Bool
  deriving Repr, Inhabited, BEq

/-- An associated type of a protocol. -/
structure AssociatedType where
  header : Header
  /-- The place in the tree that it was read from. -/
  place : Cursor
  inheritance : List String
  requirements : List Requirement
  defaultType : TypeShape
  deriving Repr, Inhabited

namespace AssociatedType

/-- Whether two associated types are the same, wherever they stand. -/
def same (a b : AssociatedType) : Bool :=
  a.header == b.header && a.inheritance == b.inheritance && a.requirements == b.requirements
    && a.defaultType == b.defaultType

instance : BEq AssociatedType := ⟨same⟩

end AssociatedType

/-- What a declaration of a type or an extension declares. -/
inductive NominalForm where
  | actor
  | classType
  | structType
  | enumeration (cases : List EnumCase)
  | protocolType (primary : List String) (associated : List AssociatedType)
  | extensionOf
  deriving Repr, Inhabited

namespace NominalForm

/-- Whether two forms are the same. -/
def same : NominalForm → NominalForm → Bool
  | actor, actor | classType, classType | structType, structType | extensionOf, extensionOf => true
  | enumeration cs, enumeration cs' => cs == cs'
  | protocolType ps as, protocolType ps' as' => ps == ps' && as == as'
  | _, _ => false

/-- The kind of declaration. -/
def kind : NominalForm → DeclarationKind
  | actor => .actor
  | classType => .classType
  | structType => .structType
  | enumeration _ => .enumeration
  | protocolType _ _ => .protocolType
  | extensionOf => .extensionOf

end NominalForm

/-- One variable of a `let` or `var`. -/
structure Binding where
  /-- Where the binding stands. -/
  span : Span
  /-- The declared type, or `empty`. -/
  type : TypeShape
  /-- The declared type as it is written. -/
  typeText : Option String
  initializer : Option String
  accessors : List Accessor
  deriving Repr, Inhabited

namespace Binding

/-- Whether the value comes from a getter. -/
def isComputed (b : Binding) : Bool := b.accessors.any fun a => a.kind.isReading

/-- Whether the variable can be assigned to, when `keyword` introduces it. -/
def hasSetter (b : Binding) (keyword : String) : Bool :=
  if b.isComputed then b.accessors.any fun a => a.kind.isAssigning else keyword == "var"

/-- Whether two bindings are the same, wherever they stand. -/
def same (a b : Binding) : Bool :=
  a.type == b.type && a.initializer == b.initializer && a.accessors == b.accessors

end Binding

/-! ## Declarations -/

mutual

/-- A declaration, with the place in the tree that it was read from. -/
inductive Declaration where
  | mk (header : Header) (place : Cursor) (details : Details)

/-- What is special to a kind of declarations. -/
inductive Details where
  | nominal (form : NominalForm) (generics : Generics) (inheritance : List String)
      (members : List Declaration)
  | function (generics : Generics) (signature : Signature) (hasBody : Bool)
      (body : List Declaration)
  /-- The mark of an initializer is the `?` or `!` of one that can fail. -/
  | initializer (mark : Option Char) (generics : Generics) (signature : Signature)
      (body : List Declaration)
  | deinitializer (effects : Effects) (body : List Declaration)
  | subscript (generics : Generics) (signature : Signature) (accessors : List Accessor)
      (body : List Declaration)
  | binding (binding : Binding)
  | typeAlias (generics : Generics) (type : TypeShape) (typeText : Option String)
  | moduleImport (path : List String) (kind : Option String)
  | operator (fixity : Fixity) (precedenceGroup : Option String)
  | precedenceGroup (precedence : Precedence)
  | conditional (branches : List Branch)
  | switch (cases : List SwitchCase) (declarations : List Declaration)

/-- One branch of conditional compilation; the last one may have no condition. -/
inductive Branch where
  | mk (keyword : String) (condition : Option String) (declarations : List Declaration)

end

instance : Inhabited Declaration := ⟨.mk default default (.moduleImport [] none)⟩

/-- Declarations, grouped by kind in the order of `DeclarationKind`, and in the order of the text
    within each group. -/
abbrev Outline := List Declaration

namespace Details

/-- The kind of declaration. -/
def kind : Details → DeclarationKind
  | nominal form _ _ _ => form.kind
  | function _ _ _ _ => .function
  | initializer _ _ _ _ => .initializer
  | deinitializer _ _ => .deinitializer
  | subscript _ _ _ _ => .subscript
  | binding _ => .binding
  | typeAlias _ _ _ => .typeAlias
  | moduleImport _ _ => .moduleImport
  | operator _ _ => .operator
  | precedenceGroup _ => .precedenceGroup
  | conditional _ => .conditional
  | switch _ _ => .switch

end Details

namespace Declaration

/-- What all declarations have. -/
def header : Declaration → Header
  | mk h _ _ => h

/-- The place in the tree that the declaration was read from. -/
def place : Declaration → Cursor
  | mk _ p _ => p

/-- What is special to its kind. -/
def details : Declaration → Details
  | mk _ _ d => d

/-- The kind of the declaration. -/
def kind (d : Declaration) : DeclarationKind := d.details.kind

/-- Where the declaration stands in the text, from its first to its last token. -/
def span (d : Declaration) : Span := d.place.trimmedSpan

/-- Lines and columns of the declaration. -/
def location (d : Declaration) : Location := d.place.location

/-- Whether a modifier of that name is written. -/
def hasModifier (d : Declaration) (name : String) : Bool :=
  d.header.modifiers.any fun m => m.name == name

/-- Whether an attribute of that name is written. -/
def hasAttribute (d : Declaration) (name : String) : Bool :=
  d.header.attributes.any fun a => a.name == name

/-! ## Sameness -/

mutual

/-- Whether two declarations are the same, wherever they stand. -/
def same : Declaration → Declaration → Bool
  | mk h _ d, mk h' _ d' => h == h' && sameDetails d d'

/-- Whether two declarations agree in what is special to their kind. -/
def sameDetails : Details → Details → Bool
  | .nominal f g i ds, .nominal f' g' i' ds' =>
    f.same f' && g == g' && i == i' && sameAll ds ds'
  | .function g s _ ds, .function g' s' _ ds' => g == g' && s == s' && sameAll ds ds'
  | .initializer m g s ds, .initializer m' g' s' ds' =>
    m == m' && g == g' && s == s' && sameAll ds ds'
  | .deinitializer e ds, .deinitializer e' ds' => e == e' && sameAll ds ds'
  | .subscript g s as ds, .subscript g' s' as' ds' =>
    g == g' && s.input == s'.input && s.output.getD .empty == s'.output.getD .empty && as == as'
      && sameAll ds ds'
  | .binding b, .binding b' => b.same b'
  | .typeAlias g t _, .typeAlias g' t' _ => g == g' && t == t'
  | .moduleImport p k, .moduleImport p' k' => p == p' && k == k'
  | .operator f p, .operator f' p' => f == f' && p == p'
  | .precedenceGroup p, .precedenceGroup p' => p == p'
  | .conditional bs, .conditional bs' => sameBranches bs bs'
  | .switch cs ds, .switch cs' ds' => cs == cs' && sameAll ds ds'
  | _, _ => false

/-- Whether two sequences of declarations are the same, one by one. -/
def sameAll : List Declaration → List Declaration → Bool
  | [], [] => true
  | d :: ds, d' :: ds' => same d d' && sameAll ds ds'
  | _, _ => false

/-- Whether two branches are the same. -/
def sameBranch : Branch → Branch → Bool
  | .mk k c ds, .mk k' c' ds' => k == k' && c == c' && sameAll ds ds'

/-- Whether two sequences of branches are the same, one by one. -/
def sameBranches : List Branch → List Branch → Bool
  | [], [] => true
  | b :: bs, b' :: bs' => sameBranch b b' && sameBranches bs bs'
  | _, _ => false

end

end Declaration

namespace Outline

/-- The declarations of one kind. -/
def sequence (o : Outline) (k : DeclarationKind) : List Declaration :=
  o.filter fun d => d.kind == k

/-- Whether a declaration does not begin behind another; of two with the same beginning, whether
    it does not end behind it. -/
def precedes (a b : Declaration) : Bool :=
  let s := a.span
  let t := b.span
  s.start < t.start || (s.start == t.start && s.stop ≤ t.stop)

/-- All declarations in the order of the text. -/
def inSourceOrder (o : Outline) : List Declaration := o.mergeSort precedes

/-- Whether two outlines are the same, wherever their declarations stand. -/
def same (a b : Outline) : Bool := Declaration.sameAll a b

end Outline

end SwiftOutline
