/-
  SwiftOutline.Proofs.CasePattern.Spelling

  The patterns that names, `_`, literals and types are written in: their texts,
  the trees that the texts are written for, and the shapes that they have.
-/
import SwiftOutline.CasePattern.Classify
import SwiftOutline.Proofs.Tree.Written
import SwiftOutline.Proofs.TypeShape.Parsed

namespace SwiftOutline

open SwiftOutline.Tree
open TypeShape (blankTree)

/-- A name of ASCII letters, digits and `_`. -/
structure AsciiName extends Identifier where
  ascii : ∀ c ∈ text.toList, Lexer.isWordChar c = true

/-- A literal, as it is written: a single token, or a number behind a minus sign. -/
structure LiteralText where
  text : String
  leaves : List Token
  lexed : lex text = leaves
  isLiteral : (∃ k : TokenKind, k.isLiteral = true ∧ leaves = [⟨k, text⟩]) ∨
    ∃ (k : TokenKind) (n : String), k ∈ [TokenKind.intLiteral, .floatLiteral] ∧
      leaves = [⟨.operator, "-"⟩, ⟨k, n⟩]

namespace CasePattern

/-! ## Members -/

/-- Names with points between them, of which the first may be missing: `.m`, `A.m`, `A.B.m`. -/
inductive MemberPath where
  | implicit (m : AsciiName)
  | qualified (root m : AsciiName)
  | member (base : MemberPath) (m : AsciiName)

/-- A member of what is in front of the point, if something is. -/
def memberTree (base : List Tree) (m : AsciiName) : Tree :=
  .node .memberAccessExpr (base ++ [.leaf ⟨.dot, "."⟩, m.tree])

namespace MemberPath

def text : MemberPath → String
  | implicit m => "." ++ m.text
  | qualified root m => root.text ++ "." ++ m.text
  | member base m => base.text ++ "." ++ m.text

/-- The path without a leading point. -/
def name : MemberPath → String
  | implicit m => m.text
  | qualified root m => root.text ++ "." ++ m.text
  | member base m => base.name ++ "." ++ m.text

def tree : MemberPath → Tree
  | implicit m => memberTree [] m
  | qualified root m => memberTree [.node .declReferenceExpr [root.tree]] m
  | member base m => memberTree [base.tree] m

end MemberPath

/-! ## Elements -/

/-- The word in front of names that are bound. -/
inductive Introducer where
  | letWord
  | varWord

namespace Introducer

def text : Introducer → String
  | letWord => "let"
  | varWord => "var"

def kind : Introducer → TokenKind
  | letWord => .kwLet
  | varWord => .kwVar

/-- A pattern that the word introduces. -/
def binds (w : Introducer) (pattern : Tree) : Tree :=
  .node .valueBindingPattern [.leaf ⟨w.kind, w.text⟩, blankTree, pattern]

end Introducer

/-- What stands behind a word that binds names: a name or `_`. -/
inductive Slot where
  | name (x : AsciiName)
  | wildcard

namespace Slot

def text : Slot → String
  | name x => x.text
  | wildcard => "_"

def tree : Slot → Tree
  | name x => .node .identifierPattern [x.tree]
  | wildcard => .node .wildcardPattern [.leaf ⟨.underscore, "_"⟩]

end Slot

/-- An argument that binds a name or compares. -/
inductive Argument where
  | bound (w : Introducer) (x : AsciiName)
  | wildcard
  | literal (l : LiteralText)

namespace Argument

def text : Argument → String
  | bound w x => w.text ++ " " ++ x.text
  | wildcard => "_"
  | literal l => l.text

def tree : Argument → Tree
  | bound w x => w.binds (Slot.name x).tree
  | wildcard => Slot.wildcard.tree
  | literal l => .node .expressionPattern [.node .literalExpr (l.leaves.map .leaf)]

/-- The name that is bound, with the word that binds it. -/
def binding? : Argument → Option (String × String)
  | bound w x => some (x.text, w.text)
  | _ => none

end Argument

/-- An element of a list, with its label if it has one. -/
structure Labelled (α : Type) where
  label : Option AsciiName
  value : α

namespace Labelled

variable {α : Type}

def text (f : α → String) (e : Labelled α) : String :=
  e.label.elim "" (fun l => l.text ++ ": ") ++ f e.value

def tree (k : NodeKind) (f : α → Tree) (e : Labelled α) : Tree :=
  .node k (e.label.elim [] (fun l => [l.tree, .leaf ⟨.colon, ":"⟩, blankTree]) ++ [f e.value])

end Labelled

/-- Elements in parentheses. -/
def listText {α : Type} (f : α → String) (es : List (Labelled α)) : String :=
  "(" ++ commaText (es.map (Labelled.text f)) ++ ")"

/-- The same as a node of kind `k`, with elements of kind `element`. -/
def listTree {α : Type} (k element : NodeKind) (f : α → Tree) (es : List (Labelled α)) : Tree :=
  .node k (.leaf ⟨.lParen, "("⟩ ::
    (commaTrees (es.map (Labelled.tree element f)) ++ [.leaf ⟨.rParen, ")"⟩]))

/-- A member that is called. -/
def callTree {α : Type} (f : α → Tree) (p : MemberPath) (es : List (Labelled α)) : Tree :=
  .node .expressionPattern
    [.node .functionCallExpr [p.tree, listTree .labeledExprList .labeledExpr f es]]

/-! ## Patterns -/

/-- A pattern, as it is written. -/
inductive Spelled where
  /-- `.m` -/
  | member (p : MemberPath)
  /-- `.m(let x, _, 1)` -/
  | call (p : MemberPath) (arguments : List (Labelled Argument))
  /-- `let .m` -/
  | bindsMember (w : Introducer) (p : MemberPath)
  /-- `let .m(x, _)` -/
  | bindsCall (w : Introducer) (p : MemberPath) (slots : List (Labelled Slot))
  /-- `let (x, _)` -/
  | bindsTuple (w : Introducer) (slots : List (Labelled Slot))
  /-- `let x` -/
  | binds (w : Introducer) (x : Slot)
  /-- `let x as T` -/
  | bindsCast (w : Introducer) (x : Slot) (type : TypeText)
  /-- `is T` -/
  | typeTest (type : TypeText)

/-- The word that bound the name last. -/
def lastWord (bindings : List (String × String)) (n : String) : String :=
  (bindings.reverse.lookup n).getD ""

/-- Every bound name where it was bound first, with the word that bound it last. -/
def boundNames (bindings : List (String × String)) : List (String × String) :=
  (bindings.map Prod.fst).eraseDups.map fun n => (n, lastWord bindings n)

namespace Spelled

def text : Spelled → String
  | member p => p.text
  | call p es => p.text ++ listText Argument.text es
  | bindsMember w p => w.text ++ " " ++ p.text
  | bindsCall w p es => w.text ++ " " ++ (p.text ++ listText Slot.text es)
  | bindsTuple w es => w.text ++ " " ++ listText Slot.text es
  | binds w x => w.text ++ " " ++ x.text
  | bindsCast w x type => w.text ++ " " ++ (x.text ++ " as " ++ type.text)
  | typeTest type => "is " ++ type.text

def tree : Spelled → Tree
  | member p => .node .expressionPattern [p.tree]
  | call p es => callTree Argument.tree p es
  | bindsMember w p => w.binds (.node .expressionPattern [p.tree])
  | bindsCall w p es => w.binds (callTree Slot.tree p es)
  | bindsTuple w es => w.binds (listTree .tuplePattern .tuplePatternElement Slot.tree es)
  | binds w x => w.binds x.tree
  | bindsCast w x type => w.binds (.node .asPattern
      [x.tree, blankTree, .leaf ⟨.kwAs, "as"⟩, blankTree, type.tree])
  | typeTest type => .node .isTypePattern [.leaf ⟨.kwIs, "is"⟩, blankTree, type.tree]

/-- The shape of the pattern. -/
def shape (p : Spelled) : CasePattern :=
  match p with
  | member p => .member p.name
  | call p es =>
    match es.filterMap fun e => e.value.binding? with
    | [] => .unsupported (Text.trim (p.text ++ listText Argument.text es))
    | b :: bs => .innerBinding p.name (boundNames (b :: bs))
  | bindsMember w p => .memberBinding w.text p.name []
  | bindsCall w p es => .memberBinding w.text p.name (es.map fun e => e.value.text)
  | bindsTuple w es => .binding w.text (es.map fun e => e.value.text)
  | binds w (.name x) | bindsCast w (.name x) _ => .binding w.text [x.text]
  | binds _ .wildcard | bindsCast _ .wildcard _ => .unsupported (Text.trim p.text)
  | typeTest type => .isType (TypeShape.classify (.ofAscribed type.tree))

end Spelled

/-- A `switch` with the pattern in its only case. -/
def Spelled.inSwitch (p : Spelled) : String :=
  "switch v \x7b case " ++ p.text ++ ": break \x7d"

/-- The label of a case. -/
def caseLabel (pattern : Tree) : Tree :=
  .node .switchCaseLabel [.leaf ⟨.kwCase, "case"⟩, blankTree, .node .caseItem [pattern],
    .leaf ⟨.colon, ":"⟩]

/-- A case that breaks. -/
def caseTree (pattern : Tree) : Tree :=
  .node .switchCase [caseLabel pattern, blankTree, .node .breakStmt [.leaf ⟨.kwBreak, "break"⟩]]

/-- The syntax tree of a `switch` with the pattern in its only case. -/
def switchTree (pattern : Tree) : Tree :=
  .node .switchExpr [.leaf ⟨.kwSwitch, "switch"⟩, blankTree, .node .expr [.leaf ⟨.ident, "v"⟩],
    blankTree, .leaf ⟨.lBrace, "\x7b"⟩, blankTree, caseTree pattern, blankTree,
    .leaf ⟨.rBrace, "\x7d"⟩]

end CasePattern

end SwiftOutline
