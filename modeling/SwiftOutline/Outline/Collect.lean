/-
  SwiftOutline.Outline.Collect

  From a tree to its outline. A search takes the declarations that stand in no
  other one; each of them finds its own nested declarations in the same way.
-/
import SwiftOutline.CasePattern.Classify
import SwiftOutline.Outline.Declaration
import SwiftOutline.Parse

namespace SwiftOutline

/-! ## Headers -/

namespace Header

/-- The word that introduces a declaration: its first token outside attributes and modifiers. -/
def keywordOf : List Cursor → String
  | [] => ""
  | e :: rest =>
    match e.tree with
    | .leaf t => if t.isTrivia then keywordOf rest else t.text
    | .node k _ =>
      if k == .attributeList || k == .modifierList then keywordOf rest
      else (e.firstSignificant?.map Cursor.text).getD ""

/-- The element that names a declaration without a declared name. -/
def nameNode? (c : Cursor) : Option Cursor :=
  match c.tree.nodeKind? with
  | some .extensionDecl => c.typeChild?
  | some .importDecl => c.child? .importPath
  | some .ifConfigDecl => do
    let clause ← c.child? .ifConfigClause
    clause.child? .ifConfigCondition
  | some .switchExpr => c.child? .expr
  | _ => none

/-- Whether a declaration of this kind has a name of its own, even if the name is missing. -/
def isNamedByPart (c : Cursor) : Bool :=
  match c.tree.nodeKind? with
  | some .extensionDecl | some .importDecl | some .ifConfigDecl | some .switchExpr => true
  | _ => false

/-- The name of a declaration; one without any is named by its keyword. -/
def nameOf (c : Cursor) : String :=
  match c.child? .declaredName with
  | some name => name.description
  | none =>
    if isNamedByPart c then ((nameNode? c).map Cursor.description).getD ""
    else keywordOf c.elements

/-- Reads what all declarations have. -/
def ofCursor (m : ViewMode) (c : Cursor) : Header where
  keyword := keywordOf c.elements
  name := nameOf c
  attributes := Attribute.allIn m c
  modifiers := Modifier.allIn m c
  description := c.description

end Header

/-! ## Variables -/

namespace Binding

/-- The type that a binding declares. -/
def ascribed? (c : Cursor) : Option Cursor := (c.child? .ascription).bind Cursor.typeChild?

/-- Whether a binding declares a type or has a value. -/
def isSettled (c : Cursor) : Bool :=
  (c.child? .ascription).isSome || (c.child? .initializerClause).isSome

/-- The type of a binding with the bindings `later` behind it. One without type and value has the
    type of the next that has either, as in `var a, b: Int`. -/
def typeNode? (c : Cursor) (later : List Cursor) : Option Cursor :=
  match ascribed? c with
  | some t => some t
  | none =>
    if (c.child? .initializerClause).isSome then none
    else (later.find? isSettled).bind ascribed?

/-- Reads a binding with the bindings `later` behind it. -/
def ofCursor (m : ViewMode) (c : Cursor) (later : List Cursor) : Binding :=
  let type := typeNode? c later
  { span := c.span
    type := (type.map TypeShape.classify).getD .empty
    typeText := type.map Cursor.description
    initializer := initialValue? m c
    accessors := Accessor.allIn m c }

/-- The name of a binding. -/
def nameOf (c : Cursor) : String :=
  ((c.children.find? Cursor.isPattern).map Cursor.description).getD ""

/-- Reads bindings in order, each with its name. -/
def allFrom (m : ViewMode) : List Cursor → List (String × Binding)
  | [] => []
  | c :: later => (nameOf c, ofCursor m c later) :: allFrom m later

end Binding

/-! ## Enumerations and protocols -/

/-- A search for members of one kind, which looks into conditional compilation. -/
def visitMembers (m : ViewMode) (member k : NodeKind) : Cursor.Visit :=
  if !m.shows k then .skip
  else if k == member then .take
  else if k == .ifConfigDecl || k == .ifConfigClause then .enter
  else .skip

/-- The members of one kind of a type. -/
def membersOf (m : ViewMode) (member : NodeKind) (c : Cursor) : List Cursor :=
  ((c.child? .memberBlock).map (Cursor.gatherBelow (visitMembers m member))).getD []

namespace EnumCase

/-- Reads one case of a `case` declaration. -/
def ofCursor (m : ViewMode) (indirect : Bool) (declaration element : Cursor) : EnumCase :=
  let modifiers := Modifier.allIn m declaration
  let values := element.child? .enumCaseParameterClause
  { name := ((element.child? .declaredName).map Cursor.description).getD ""
    rawValue := initialValue? m element
    associatedValues := (values.map fun v =>
      (v.childrenOf m .enumCaseParameter).map (Parameter.ofEnumCase m)).getD []
    attributes := Attribute.allIn m declaration
    modifiers := modifiers
    isIndirect := indirect || modifiers.any fun x => x.name == "indirect" }

/-- The cases of an enumeration. -/
def allIn (m : ViewMode) (c : Cursor) : List EnumCase :=
  let indirect := (Modifier.allIn m c).any fun x => x.name == "indirect"
  (membersOf m .enumCaseDecl c).flatMap fun d =>
    (d.childrenOf m .enumCaseElement).map (ofCursor m indirect d)

end EnumCase

/-- The type behind the `=` of a type alias or associated type. -/
def assignedType? (c : Cursor) : Option Cursor :=
  (c.child? .typeInitializerClause).bind Cursor.typeChild?

namespace AssociatedType

/-- Reads an associated type. -/
def ofCursor (m : ViewMode) (c : Cursor) : AssociatedType where
  header := Header.ofCursor m c
  place := c
  inheritance := inheritanceOf m c
  requirements := Generics.requirementsOf m c
  defaultType := ((assignedType? c).map TypeShape.classify).getD .empty

/-- The associated types of a protocol. -/
def allIn (m : ViewMode) (c : Cursor) : List AssociatedType :=
  (membersOf m .associatedTypeDecl c).map (ofCursor m)

end AssociatedType

namespace NominalForm

/-- Reads what a declaration of a type or an extension declares; none for other declarations. -/
def ofCursor? (m : ViewMode) (c : Cursor) : Option NominalForm :=
  match c.tree.nodeKind? with
  | some .actorDecl => some actor
  | some .classDecl => some classType
  | some .structDecl => some structType
  | some .extensionDecl => some extensionOf
  | some .enumDecl => some (enumeration (EnumCase.allIn m c))
  | some .protocolDecl =>
    let clause := c.child? .primaryAssociatedTypeClause
    let primary := clause.map fun p =>
      (p.children.filter fun e => e.isKind .declaredName).map Cursor.description
    some (protocolType (primary.getD []) (AssociatedType.allIn m c))
  | _ => none

end NominalForm

/-! ## Imports, operators and switches -/

/-- The components of the path of an import. -/
def importPath (m : ViewMode) (c : Cursor) : List String :=
  match c.child? .importPath with
  | some path => ((path.tokensIn m).filter fun t => t.kind != .dot).map Token.text
  | none => []

/-- What kind of thing an import imports, if it says so: the second token of its own. -/
def importKind? (c : Cursor) : Option String :=
  c.significantTokens[1]?.map Token.text

/-- The precedence group of an operator. -/
def precedenceGroup? (c : Cursor) : Option String :=
  ((c.child? .operatorPrecedenceClause).bind fun p => p.tokenOf? .ident).map Token.text

/-- A search for the sections of a `switch`, which does not look into another one. -/
def visitCases (k : NodeKind) : Cursor.Visit :=
  if k == .switchCase then .take else if k == .switchExpr then .skip else .enter

/-- The sections of a `switch`. -/
def switchCases (m : ViewMode) (c : Cursor) : List SwitchCase :=
  (c.gatherBelow visitCases).map (SwitchCase.ofCursor m)

/-- The mark behind the `init` of an initializer that can fail. -/
def failureMark? (c : Cursor) : Option Char :=
  if c.hasToken .question then some '?' else if c.hasToken .exclamation then some '!' else none

/-! ## Declarations -/

/-- A search for declarations. What belongs to an enumeration or a protocol itself is passed
    over. -/
def visitDeclarations (m : ViewMode) (k : NodeKind) : Cursor.Visit :=
  if !m.shows k then .skip
  else if (DeclarationKind.ofNode? k).isSome then .take
  else if k == .associatedTypeDecl || k == .enumCaseDecl then .skip
  else .enter

namespace Outline

/-- The outline of nodes that introduce declarations, each of which gives what `read` says. -/
def ofNodes (read : Cursor → List Declaration) (nodes : List Cursor) : Outline :=
  DeclarationKind.all.flatMap fun k =>
    (nodes.filter fun c => c.tree.nodeKind?.bind DeclarationKind.ofNode? == some k).flatMap read

/-- The outline of all declarations below a cursor. -/
def belowWith (read : Cursor → List Declaration) (m : ViewMode) (c : Cursor) : Outline :=
  ofNodes read (c.gatherBelow (visitDeclarations m))

/-- The outline of all declarations below a child, if there is one. -/
def insideWith (read : Cursor → List Declaration) (m : ViewMode) (c : Option Cursor) : Outline :=
  (c.map (belowWith read m)).getD []

end Outline

namespace Details

/-- Reads what is special to the kind of a declaration, none of a variable's; nested declarations
    are read by `read`. -/
def ofCursor? (read : Cursor → List Declaration) (m : ViewMode) (c : Cursor) : Option Details :=
  let generics := Generics.ofCursor m c
  let inside (k : NodeKind) := Outline.insideWith read m (c.child? k)
  match NominalForm.ofCursor? m c with
  | some form => some (nominal form generics (inheritanceOf m c) (inside .memberBlock))
  | none =>
    match c.tree.nodeKind? with
    | some .functionDecl =>
      some (function generics (Signature.ofCursor m c) (c.child? .codeBlock).isSome
        (inside .codeBlock))
    | some .initializerDecl =>
      some (initializer (failureMark? c) generics (Signature.ofCursor m c) (inside .codeBlock))
    | some .deinitializerDecl => some (deinitializer (Effects.ofCursor c) (inside .codeBlock))
    | some .subscriptDecl =>
      some (subscript generics (Signature.ofCursor m c) (Accessor.allIn m c)
        (inside .accessorBlock))
    | some .typeAliasDecl =>
      let type := assignedType? c
      some (typeAlias generics ((type.map TypeShape.classify).getD .empty)
        (type.map Cursor.description))
    | some .importDecl => some (moduleImport (importPath m c) (importKind? c))
    | some .operatorDecl =>
      some (operator (Fixity.ofModifiers (Modifier.allIn m c)) (precedenceGroup? c))
    | some .precedenceGroupDecl => some (precedenceGroup (Precedence.ofCursor c))
    | some .ifConfigDecl =>
      some (conditional ((c.childrenOf m .ifConfigClause).map fun b =>
        .mk ((b.firstSignificant?.map Cursor.text).getD "")
          ((b.child? .ifConfigCondition).map Cursor.description)
          (Outline.belowWith read m b)))
    | some .switchExpr => some (switch (switchCases m c) (Outline.belowWith read m c))
    | _ => none

end Details

namespace Declaration

/-- The variables of a `let` or `var`: one for each binding. -/
def variablesOf (m : ViewMode) (c : Cursor) : List Declaration :=
  match c.child? .patternBindingList with
  | some list =>
    let header := Header.ofCursor m c
    (Binding.allFrom m (list.childrenOf m .patternBinding)).map fun (name, b) =>
      .mk { header with name := name } c (.binding b)
  | none => []

/-- Reads the declarations that a node introduces; nested declarations are read by `read`. -/
def readWith (read : Cursor → List Declaration) (m : ViewMode) (c : Cursor) : List Declaration :=
  if c.isKind .variableDecl then variablesOf m c
  else
    ((Details.ofCursor? read m c).map fun d =>
      .mk (Header.ofCursor m c) c d).toList

/-- Reads the declarations that a node with at most `levels` levels introduces. -/
def readWithin (m : ViewMode) : (levels : Nat) → Cursor → List Declaration
  | 0, _ => []
  | n + 1, c => readWith (readWithin m n) m c

/-- Reads the declarations that a node introduces. -/
def read (m : ViewMode) (c : Cursor) : List Declaration := readWithin m c.tree.height c

end Declaration

namespace Outline

/-- The outline of all declarations at and below a cursor. -/
def ofCursor (m : ViewMode) (c : Cursor) : Outline :=
  ofNodes (Declaration.read m) (c.gather (visitDeclarations m))

/-- The outline of all declarations below a cursor. -/
def below (m : ViewMode) (c : Cursor) : Outline := belowWith (Declaration.read m) m c

/-- The outline of a source text. -/
def ofSource (m : ViewMode) (source : String) : Outline :=
  ofCursor m (.ofTree (parse source).tree)

end Outline

end SwiftOutline
