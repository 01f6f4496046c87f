/-
  SwiftOutline.Proofs.Parameters.Spelling

  Functions that are written with parameters, effects and a result: their texts,
  the trees that the texts are written for, and the signatures that they declare.
-/
import SwiftOutline.Proofs.TypeShape.ByReference

namespace SwiftOutline

open SwiftOutline.Tree
open TypeShape (blankTree wordTree)

theorem TokenKind.isTrivia_of_isLiteral {k : TokenKind} (h : k.isLiteral = true) :
    k.isTrivia = false := by
  cases k <;> first | rfl | exact absurd h (by decide)

/-! ## Labels and values -/

/-- A label: a name, `_`, or a reserved word except `inout`, `var` and `let`. -/
structure LabelText where
  text : String
  kind : TokenKind
  lexed : lex text = [⟨kind, text⟩]
  isLabel : kind.isArgumentLabel = true

/-- The token of a label. -/
def LabelText.tree (l : LabelText) : Tree := .leaf ⟨l.kind, l.text⟩

/-- A literal that is a single token. -/
structure LiteralToken where
  text : String
  kind : TokenKind
  lexed : lex text = [⟨kind, text⟩]
  isLiteral : kind.isLiteral = true

/-- The initial value that a literal makes. -/
def LiteralToken.tree (l : LiteralToken) : Tree :=
  .node .initializerClause [.leaf ⟨.eq, "="⟩, blankTree, .node .expr [.leaf ⟨l.kind, l.text⟩]]

/-! ## Parameters -/

/-- A parameter, as it is written: `label name: inout T... = 1`. -/
structure ParameterText where
  /-- The external label, if one is written. -/
  label : Option LabelText
  name : Identifier
  /-- `inout` is written in front of the type. -/
  byReference : Bool
  type : TypeText
  variadic : Bool
  default : Option LiteralToken

namespace ParameterText

/-- The type with the `inout` in front of it. -/
def written (p : ParameterText) : TypeText := if p.byReference then p.type.byReference else p.type

def namesText (p : ParameterText) : String :=
  p.label.elim "" (fun l => l.text ++ " ") ++ p.name.text

def namesTrees (p : ParameterText) : List Tree :=
  p.label.elim [] (fun l => [l.tree, blankTree]) ++ [p.name.tree]

def dotsText (p : ParameterText) : String := if p.variadic then "..." else ""

def dotsTrees (p : ParameterText) : List Tree :=
  if p.variadic then [.leaf ⟨.ellipsis, "..."⟩] else []

def defaultText (p : ParameterText) : String := p.default.elim "" fun l => " = " ++ l.text

def defaultTrees (p : ParameterText) : List Tree := p.default.elim [] fun l => [blankTree, l.tree]

def text (p : ParameterText) : String :=
  p.namesText ++ ": " ++ p.written.text ++ p.dotsText ++ p.defaultText

def tree (p : ParameterText) : Tree :=
  .node .parameter (p.namesTrees ++ .leaf ⟨.colon, ":"⟩ :: blankTree :: p.written.tree ::
    (p.dotsTrees ++ p.defaultTrees))

/-- What the parameter is read as. A single name is label and name, and the text of the type has no
    white space at its ends. -/
def read (m : ViewMode) (p : ParameterText) : Parameter TypeShape where
  label := Parameter.named (p.label.elim p.name.text LabelText.text)
  name := some p.name.text
  type := p.type.shape
  typeText := some (Text.trim p.written.text)
  isVariadic := p.variadic
  isInout := p.byReference || p.type.isInout
  defaultValue := p.default.map LiteralToken.text
  attributes := p.type.attributes m
  isLabelOmitted := p.label.any fun l => l.text == "_"

end ParameterText

/-! ## Effects -/

/-- An effect, as it is written. -/
inductive EffectText where
  | async
  | throws
  | rethrows
  /-- `throws(E)` -/
  | throwing (type : TypeText)

namespace EffectText

def text : EffectText → String
  | async => "async"
  | throws => "throws"
  | rethrows => "rethrows"
  | throwing e => "throws(" ++ e.text ++ ")"

def trees : EffectText → List Tree
  | async => [wordTree "async"]
  | throws => [.leaf ⟨.kwThrows, "throws"⟩]
  | rethrows => [.leaf ⟨.kwRethrows, "rethrows"⟩]
  | throwing e =>
    [.leaf ⟨.kwThrows, "throws"⟩, .leaf ⟨.lParen, "("⟩, e.tree, .leaf ⟨.rParen, ")"⟩]

/-- The effects with one more; the last word that tells what is thrown counts. -/
def addTo (effects : Effects) : EffectText → Effects
  | async => { effects with async := some "async" }
  | e => { effects with throws := some e.text }

end EffectText

/-- Effects, each behind a blank. -/
def effectsText : List EffectText → String
  | [] => ""
  | e :: es => " " ++ e.text ++ effectsText es

/-- The trees of effects with blanks between them. -/
def spacedTrees : List EffectText → List Tree
  | [] => []
  | [e] => e.trees
  | e :: e' :: es => e.trees ++ blankTree :: spacedTrees (e' :: es)

/-- Effect specifiers behind a blank, if there are any. -/
def effectsTrees : List EffectText → List Tree
  | [] => []
  | e :: es => [blankTree, .node .effectSpecifiers (spacedTrees (e :: es))]

/-- What the effects are read as. -/
def effectsOf (es : List EffectText) : Effects := es.foldl EffectText.addTo {}

/-! ## Functions -/

/-- A function, as it is written: `func f(a: A) throws -> B {}`. -/
structure FunctionText where
  name : Identifier
  parameters : List ParameterText
  effects : List EffectText
  output : Option TypeText

namespace FunctionText

def outputText (f : FunctionText) : String := f.output.elim "" fun r => " -> " ++ r.text

def outputTrees (f : FunctionText) : List Tree :=
  f.output.elim [] fun r => [blankTree, TypeShape.returnTree r.tree]

def text (f : FunctionText) : String :=
  "func " ++ f.name.text ++ "(" ++ commaText (f.parameters.map ParameterText.text) ++ ")" ++
    effectsText f.effects ++ f.outputText ++ " \x7b\x7d"

def clauseTree (f : FunctionText) : Tree :=
  .node .parameterClause (.leaf ⟨.lParen, "("⟩ ::
    (commaTrees (f.parameters.map ParameterText.tree) ++ [.leaf ⟨.rParen, ")"⟩]))

def signatureTree (f : FunctionText) : Tree :=
  .node .functionSignature (f.clauseTree :: (effectsTrees f.effects ++ f.outputTrees))

def tree (f : FunctionText) : Tree :=
  .node .functionDecl [.leaf ⟨.kwFunc, "func"⟩, blankTree, .node .declaredName [f.name.tree],
    f.signatureTree, blankTree,
    .node .codeBlock [.leaf ⟨.lBrace, "\x7b"⟩, .leaf ⟨.rBrace, "\x7d"⟩]]

/-- The signature that the function is read with. -/
def signature (m : ViewMode) (f : FunctionText) : Signature where
  input := f.parameters.map (ParameterText.read m)
  output := f.output.map TypeText.shape
  outputText := f.output.map fun r => Text.trim r.text
  effects := effectsOf f.effects

end FunctionText

end SwiftOutline
