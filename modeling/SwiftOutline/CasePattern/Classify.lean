/-
  SwiftOutline.CasePattern.Classify

  Recognising the shape of a pattern in a tree. There is one recogniser for
  each shape, and the first that accepts a pattern decides.
-/
import SwiftOutline.CasePattern.Basic
import SwiftOutline.TypeShape.Classify

namespace SwiftOutline

namespace CasePattern

/-! ## Parts of patterns -/

/-- The child node, if there is exactly one. -/
def soleChild? (c : Cursor) : Option Cursor :=
  match c.children with
  | [child] => some child
  | _ => none

/-- The `let` or `var` that a binding pattern begins with. -/
def keyword? (c : Cursor) : Option String :=
  (c.firstSignificant?.filter fun t => t.isToken .kwLet || t.isToken .kwVar).map Cursor.text

/-- The name of a member, without a leading point. -/
def memberName? (c : Cursor) : Option String :=
  if c.isKind .memberAccessExpr then
    match c.description.toList with
    | '.' :: name => some (String.ofList name)
    | name => some (String.ofList name)
  else none

/-- The name of a member that is called, and the pattern of each argument. -/
def memberCall? (c : Cursor) : Option (String × List (Option Cursor)) := do
  if !c.isKind .expressionPattern then none
  let call ← (soleChild? c).filter fun e => e.isKind .functionCallExpr
  let name ← call.children.head?.bind memberName?
  let list ← call.child? .labeledExprList
  let arguments := list.children.filter fun e => e.isKind .labeledExpr
  pure (name, arguments.map fun a => a.children.find? Cursor.isPattern)

/-- Whether a pattern is a literal. -/
def isLiteral (c : Cursor) : Bool :=
  c.isKind .expressionPattern && (soleChild? c).any fun e => e.isKind .literalExpr

/-- The text of a pattern that is a name or `_`. -/
def boundName? (c : Cursor) : Option String :=
  if c.isKind .identifierPattern || c.isKind .wildcardPattern then some c.description else none

/-- Sets the keyword of a name: where the name stands already if it does, else behind all. -/
def bind (name keyword : String) : List (String × String) → List (String × String)
  | [] => [(name, keyword)]
  | (n, k) :: rest => if n == name then (n, keyword) :: rest else (n, k) :: bind name keyword rest

/-- The names bound in the arguments of a call, each with the keyword that bound it last. Literals
    and `_` bind nothing; `none` if there is any other argument. -/
def innerBindings? (bound : List (String × String)) :
    List (Option Cursor) → Option (List (String × String))
  | [] => some bound
  | none :: _ => none
  | some a :: rest =>
    if a.isKind .valueBindingPattern then do
      let keyword ← keyword? a
      let name ← (soleChild? a).filter fun e => e.isKind .identifierPattern
      innerBindings? (bind name.description keyword bound) rest
    else if a.isKind .wildcardPattern || isLiteral a then innerBindings? bound rest
    else none

/-! ## Recognisers -/

/-- Recognises a tuple. -/
def tuple? (c : Cursor) : Option CasePattern :=
  if c.isKind .tuplePattern then
    some (tuple ((c.children.filter fun e => e.isKind .tuplePatternElement).map
      Cursor.description))
  else none

/-- Recognises a member. -/
def member? (c : Cursor) : Option CasePattern :=
  if c.isKind .expressionPattern then ((soleChild? c).bind memberName?).map member else none

/-- Recognises a type test. -/
def typeTest? (c : Cursor) : Option CasePattern :=
  if c.isKind .isTypePattern then
    some (isType ((c.typeChild?.map TypeShape.classify).getD .empty))
  else none

/-- Recognises names bound inside the arguments of a member. -/
def innerBinding? (c : Cursor) : Option CasePattern := do
  let (name, arguments) ← memberCall? c
  let elements ← innerBindings? [] arguments
  if elements.isEmpty then none else some (innerBinding name elements)

/-- Recognises names bound behind a member. -/
def memberBinding? (c : Cursor) : Option CasePattern := do
  if !c.isKind .valueBindingPattern then none
  let keyword ← keyword? c
  let inner ← soleChild? c
  match member? inner with
  | some (.member name) => some (memberBinding keyword name [])
  | _ =>
    let (name, arguments) ← memberCall? inner
    let elements ← arguments.mapM fun a => a.bind boundName?
    some (memberBinding keyword name elements)

/-- Recognises bound names. -/
def binding? (c : Cursor) : Option CasePattern := do
  if !c.isKind .valueBindingPattern then none
  let keyword ← keyword? c
  let inner ← soleChild? c
  match inner.tree.nodeKind? with
  | some .identifierPattern => some (binding keyword [inner.description])
  | some .asPattern =>
    let bound ← inner.children.head?.filter fun e => e.isKind .identifierPattern
    some (binding keyword [bound.description])
  | some .tuplePattern =>
    let elements ← (inner.children.filter fun e => e.isKind .tuplePatternElement).mapM fun e =>
      (soleChild? e).bind boundName?
    some (binding keyword elements)
  | _ => none

/-- Recognises a literal. -/
def literal? (c : Cursor) : Option CasePattern :=
  if isLiteral c then some (literal c.description) else none

/-- All recognisers. -/
def recognizers : List (Cursor → Option CasePattern) :=
  [tuple?, member?, typeTest?, innerBinding?, memberBinding?, binding?, literal?]

/-! ## Classification -/

/-- The pattern of an item of a `case` label; a pattern is its own. -/
def patternOf? (c : Cursor) : Option Cursor :=
  if c.isKind .caseItem then c.children.find? Cursor.isPattern else some c

/-- The shape that the first accepting recogniser out of `rs` gives. -/
def classifyBy (rs : List (Cursor → Option CasePattern)) (c : Cursor) : CasePattern :=
  ((patternOf? c).bind fun p => rs.findSome? fun r => r p).getD (unsupported c.description)

/-- The shape of an item of a `case` label, or of a pattern. -/
def classify (c : Cursor) : CasePattern := classifyBy recognizers c

end CasePattern

namespace MatchedCase

/-- Reads an item of a `case` label. -/
def ofCursor (c : Cursor) : MatchedCase where
  pattern := CasePattern.classify c
  condition := ((c.child? .whereClause).bind fun w => w.child? .expr).map Cursor.description

end MatchedCase

namespace SwitchCase

/-- Reads a section of a `switch`. -/
def ofCursor (m : ViewMode) (c : Cursor) : SwitchCase where
  label := (c.child? .switchCaseLabel).map fun label =>
    (label.childrenOf m .caseItem).map MatchedCase.ofCursor
  text := c.description

/-- Whether the section is the `default` one. -/
def isDefault (s : SwitchCase) : Bool := s.label.isNone

end SwitchCase

end SwiftOutline
