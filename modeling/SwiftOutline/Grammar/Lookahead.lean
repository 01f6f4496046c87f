/-
  SwiftOutline.Grammar.Lookahead

  Looking ahead without consuming: past attributes, modifiers and bracketed
  groups, to what they introduce. All of it works on the lexemes that are left
  and gives the rest behind what it skips.
-/
import SwiftOutline.Grammar.Parser

namespace SwiftOutline

namespace Lookahead

/-- Kind of the first lexeme; `eof` when there is none. -/
def headKind : List Lexeme → TokenKind
  | [] => .eof
  | l :: _ => l.kind

/-- Whether the first lexeme is the identifier `word`. -/
def spells (word : String) : List Lexeme → Bool
  | [] => false
  | l :: _ => l.kind == .ident && l.text == word

/-- Whether the first lexeme is a `k` that directly follows the one before it. -/
def seesJoined (k : TokenKind) : List Lexeme → Bool
  | [] => false
  | l :: _ => l.kind == k && !l.gap.trivia

/-- Applies `skip` for as long as it finds something, at most `rounds` times. -/
def skipMany (skip : List Lexeme → Option (List Lexeme)) :
    (rounds : Nat) → List Lexeme → List Lexeme
  | 0, ls => ls
  | n + 1, ls =>
    match skip ls with
    | some rest => skipMany skip n rest
    | none => ls

/-! ## Brackets -/

/-- Behind one lexeme, or, if it opens a bracket, behind the bracket that closes it, when `depth`
    brackets are open already. -/
def skipBalanced : (depth : Nat) → List Lexeme → List Lexeme
  | _, [] => []
  | depth, l :: ls =>
    if l.kind == .eof then l :: ls
    else
      let depth := Parser.depthAfter depth l.kind
      if depth == 0 then ls else skipBalanced depth ls

/-- Behind one lexeme, or, if it is a `<`, behind the `>` that closes it; a brace stops the
    search. -/
def skipAngles : (depth : Nat) → List Lexeme → List Lexeme
  | _, [] => []
  | depth, l :: ls =>
    if l.kind == .lBrace || l.kind == .rBrace || l.kind == .eof then l :: ls
    else
      let depth :=
        if l.kind == .lt then depth + 1 else if l.kind == .gt then depth - 1 else depth
      if depth == 0 then ls else skipAngles depth ls

/-! ## Attributes -/

/-- Behind any number of `.name`. -/
def skipMembers : List Lexeme → List Lexeme
  | d :: n :: ls => if d.kind == .dot && n.kind.isNameLike then skipMembers ls else d :: n :: ls
  | ls => ls

/-- Behind the attribute that begins with the first lexeme, an `@`. -/
def skipAttribute (ls : List Lexeme) : List Lexeme :=
  let ls := ls.drop 1
  let ls := if (headKind ls).isNameLike then skipMembers (ls.drop 1) else ls
  let ls := if seesJoined .lt ls then skipAngles 0 ls else ls
  if seesJoined .lParen ls then skipBalanced 0 ls else ls

/-- Behind the attribute that comes next, if one does. -/
def skipAttribute? (ls : List Lexeme) : Option (List Lexeme) :=
  if headKind ls == .atSign then some (skipAttribute ls) else none

/-- Behind all attributes. -/
def skipAttributes (ls : List Lexeme) : List Lexeme :=
  skipMany skipAttribute? ls.length ls

/-! ## Modifiers -/

/-- Words that modify a declaration. -/
def modifierWords : List String :=
  ["public", "private", "fileprivate", "internal", "open", "package", "final", "override",
    "required", "convenience", "dynamic", "lazy", "optional", "mutating", "nonmutating", "weak",
    "unowned", "indirect", "prefix", "postfix", "infix", "nonisolated", "distributed",
    "consuming", "borrowing", "__consuming"]

/-- Whether the first lexeme is one of the words that modify a declaration. -/
def atModifierWord : List Lexeme → Bool
  | [] => false
  | l :: _ => l.kind == .ident && modifierWords.contains l.text

/-- Whether a `class` before these lexemes is a modifier: a declaration has to follow. -/
def classModifies (ls : List Lexeme) : Bool :=
  match headKind ls with
  | .kwFunc | .kwVar | .kwLet | .kwSubscript | .kwTypealias | .kwStatic => true
  | _ =>
    atModifierWord ls
      && ((headKind (ls.drop 1)).isDeclKeyword || atModifierWord (ls.drop 1))

/-- Whether the first lexeme is a modifier. -/
def atModifier (ls : List Lexeme) : Bool :=
  match headKind ls with
  | .kwStatic => true
  | .kwClass => classModifies (ls.drop 1)
  | _ => atModifierWord ls

/-- Whether the detail of a modifier comes next, such as `(set)`. -/
def atModifierDetail (ls : List Lexeme) : Bool :=
  headKind ls == .lParen && headKind (ls.drop 1) == .ident && headKind (ls.drop 2) == .rParen

/-- Behind the modifier that comes next, if one does. -/
def skipModifier? (ls : List Lexeme) : Option (List Lexeme) :=
  if atModifier ls then some (ls.drop (if atModifierDetail (ls.drop 1) then 4 else 1))
  else none

/-- Behind all modifiers. -/
def skipModifiers (ls : List Lexeme) : List Lexeme :=
  skipMany skipModifier? ls.length ls

/-! ## Effects -/

/-- Whether the first lexeme is `throws` or `rethrows`. -/
def atThrows (ls : List Lexeme) : Bool :=
  headKind ls == .kwThrows || headKind ls == .kwRethrows

/-- Whether the first lexeme is an effect specifier. -/
def atEffect (ls : List Lexeme) : Bool :=
  atThrows ls || spells "async" ls || spells "reasync" ls

/-- Behind the effect specifier that comes next, if one does, with the type that it throws. -/
def skipEffect? (ls : List Lexeme) : Option (List Lexeme) :=
  if atThrows ls then
    let rest := ls.drop 1
    some (if seesJoined .lParen rest then skipBalanced 0 rest else rest)
  else if atEffect ls then some (ls.drop 1)
  else none

/-- Behind all effect specifiers. -/
def skipEffects (ls : List Lexeme) : List Lexeme :=
  skipMany skipEffect? ls.length ls

/-- Whether effect specifiers, if any, and then an arrow come next. -/
def atFunctionTail (ls : List Lexeme) : Bool :=
  headKind (skipEffects ls) == .arrow

/-! ## Accessors -/

/-- Names of accessors; `init` is one more, and a reserved word. -/
def accessorNames : List String :=
  ["get", "set", "willSet", "didSet", "_modify", "_read", "modify", "read", "unsafeAddress",
    "unsafeMutableAddress"]

/-- Words that modify an accessor. -/
def accessorModifiers : List String :=
  ["mutating", "nonmutating", "__consuming", "consuming", "borrowing"]

/-- Whether the first lexeme is an identifier out of `words`. -/
def atWordOf (words : List String) : List Lexeme → Bool
  | [] => false
  | l :: _ => l.kind == .ident && words.contains l.text

/-- Whether an accessor comes next, and not a statement. -/
def atAccessor (ls : List Lexeme) : Bool :=
  let ls := skipAttributes ls
  let ls := ls.dropWhile fun l => l.kind == .ident && accessorModifiers.contains l.text
  let next := ls.drop 1
  (headKind ls == .kwInit || atWordOf accessorNames ls)
    && match headKind next with
      | .lBrace | .rBrace | .kwThrows | .eof | .atSign => true
      | .lParen => !spells "get" ls
      | .ident =>
        atWordOf accessorNames next || atWordOf accessorModifiers next || spells "async" next
      | _ => false

/-- Whether a block of property observers comes next. -/
def atObservers (ls : List Lexeme) : Bool :=
  headKind ls == .lBrace
    && (let inner := skipAttributes (ls.drop 1)
        spells "willSet" inner || spells "didSet" inner)

/-! ## Closures -/

/-- How many lexemes of a closure are searched for the `in` that ends its signature. -/
def signatureLimit : Nat := 128

/-- Lexemes that a closure signature can hold outside brackets. -/
def isSignatureKind : TokenKind → Bool
  | .ident | .underscore | .comma | .colon | .arrow | .dot | .lt | .gt | .question | .exclamation
  | .amp | .ellipsis | .kwThrows | .kwRethrows | .kwSelf | .kwCapitalSelf | .kwInout => true
  | _ => false

/-- Whether an `in` comes after lexemes of a closure signature, with less than `signatureLimit`
    lexemes between it and the first of the `total` lexemes of the closure. -/
def atSignatureEnd (total : Nat) : (rounds : Nat) → List Lexeme → Bool
  | 0, _ => false
  | n + 1, ls =>
    if signatureLimit ≤ total - ls.length then false
    else
      match headKind ls with
      | .kwIn => true
      | .lParen | .lBracket => atSignatureEnd total n (skipBalanced 0 ls)
      | .atSign => atSignatureEnd total n (skipAttribute ls)
      | k => isSignatureKind k && atSignatureEnd total n (ls.drop 1)

/-- Behind the attributes and the capture list that a closure begins with. -/
def skipCaptures (ls : List Lexeme) : List Lexeme :=
  let inner := skipAttributes ls
  if headKind inner == .lBracket then skipBalanced 0 inner else inner

/-- Whether the lexemes behind the opening brace of a closure begin with a signature. -/
def atClosureSignature (ls : List Lexeme) : Bool :=
  atSignatureEnd ls.length signatureLimit (skipCaptures ls)

/-! ## Declarations -/

/-- Kind of the declaration that comes next, behind its attributes and modifiers. -/
def declaration? (scope : Scope) (ls : List Lexeme) : Option NodeKind :=
  let ls := skipModifiers (skipAttributes ls)
  match headKind ls with
  | .kwClass => some .classDecl
  | .kwStruct => some .structDecl
  | .kwEnum => some .enumDecl
  | .kwProtocol => some .protocolDecl
  | .kwExtension => some .extensionDecl
  | .kwFunc => some .functionDecl
  | .kwInit => some .initializerDecl
  | .kwDeinit => some .deinitializerDecl
  | .kwSubscript => some .subscriptDecl
  | .kwLet | .kwVar => some .variableDecl
  | .kwTypealias => some .typeAliasDecl
  | .kwAssociatedtype => some .associatedTypeDecl
  | .kwImport => some .importDecl
  | .kwOperator => some .operatorDecl
  | .kwPrecedencegroup => some .precedenceGroupDecl
  | .kwCase => if scope == .member then some .enumCaseDecl else none
  | .ident =>
    if spells "actor" ls && headKind (ls.drop 1) == .ident then some .actorDecl else none
  | _ => none

end Lookahead

end SwiftOutline
