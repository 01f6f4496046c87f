/-
  SwiftOutline.Token.Kind

  The kinds of lexical tokens of Swift source text, their printed names, the
  reserved words, and the classes of kinds that the grammar asks about.

  Contextual words (`public`, `get`, `actor`, `async`, ...) are ordinary
  identifiers here: the grammar recognises them by their text.
-/

namespace SwiftOutline

/-- Kinds of tokens. `error` covers text that no token pattern accepts, and `eof` is what
    looking past the last token shows; no token of a text has that kind. -/
inductive TokenKind where
  -- Trivia
  | whitespace | lineComment | blockComment
  -- Punctuation
  | lParen | rParen | lBracket | rBracket | lBrace | rBrace | comma | colon | semicolon | dot
  | atSign | backslash | eq | arrow | ellipsis | question | exclamation | amp | lt | gt | operator
  -- Directives
  | poundIf | poundElseif | poundElse | poundEndif | poundIdent
  -- Reserved words
  | kwAs | kwAssociatedtype | kwBreak | kwCase | kwCatch | kwClass | kwContinue | kwDefault
  | kwDefer | kwDeinit | kwDo | kwElse | kwEnum | kwExtension | kwFallthrough | kwFalse | kwFor
  | kwFunc | kwGuard | kwIf | kwImport | kwIn | kwInit | kwInout | kwIs | kwLet | kwNil
  | kwOperator | kwPrecedencegroup | kwProtocol | kwRepeat | kwRethrows | kwReturn | kwSelf
  | kwCapitalSelf | kwStatic | kwStruct | kwSubscript | kwSuper | kwSwitch | kwThrow | kwThrows
  | kwTrue | kwTry | kwTypealias | kwVar | kwWhere | kwWhile
  -- Literals, names and the rest
  | intLiteral | floatLiteral | stringLiteral | ident | underscore | error | eof
  deriving DecidableEq, Repr, Inhabited

namespace TokenKind

/-- Printed name of a kind. -/
def name : TokenKind → String
  | .whitespace => "Whitespace"
  | .lineComment => "LineComment"
  | .blockComment => "BlockComment"
  | .lParen => "LParen"
  | .rParen => "RParen"
  | .lBracket => "LBracket"
  | .rBracket => "RBracket"
  | .lBrace => "LBrace"
  | .rBrace => "RBrace"
  | .comma => "Comma"
  | .colon => "Colon"
  | .semicolon => "Semicolon"
  | .dot => "Dot"
  | .atSign => "At"
  | .backslash => "Backslash"
  | .eq => "Eq"
  | .arrow => "Arrow"
  | .ellipsis => "Ellipsis"
  | .question => "Question"
  | .exclamation => "Exclamation"
  | .amp => "Amp"
  | .lt => "Lt"
  | .gt => "Gt"
  | .operator => "Operator"
  | .poundIf => "PoundIf"
  | .poundElseif => "PoundElseif"
  | .poundElse => "PoundElse"
  | .poundEndif => "PoundEndif"
  | .poundIdent => "PoundIdent"
  | .kwAs => "KwAs"
  | .kwAssociatedtype => "KwAssociatedtype"
  | .kwBreak => "KwBreak"
  | .kwCase => "KwCase"
  | .kwCatch => "KwCatch"
  | .kwClass => "KwClass"
  | .kwContinue => "KwContinue"
  | .kwDefault => "KwDefault"
  | .kwDefer => "KwDefer"
  | .kwDeinit => "KwDeinit"
  | .kwDo => "KwDo"
  | .kwElse => "KwElse"
  | .kwEnum => "KwEnum"
  | .kwExtension => "KwExtension"
  | .kwFallthrough => "KwFallthrough"
  | .kwFalse => "KwFalse"
  | .kwFor => "KwFor"
  | .kwFunc => "KwFunc"
  | .kwGuard => "KwGuard"
  | .kwIf => "KwIf"
  | .kwImport => "KwImport"
  | .kwIn => "KwIn"
  | .kwInit => "KwInit"
  | .kwInout => "KwInout"
  | .kwIs => "KwIs"
  | .kwLet => "KwLet"
  | .kwNil => "KwNil"
  | .kwOperator => "KwOperator"
  | .kwPrecedencegroup => "KwPrecedencegroup"
  | .kwProtocol => "KwProtocol"
  | .kwRepeat => "KwRepeat"
  | .kwRethrows => "KwRethrows"
  | .kwReturn => "KwReturn"
  | .kwSelf => "KwSelf"
  | .kwCapitalSelf => "KwCapitalSelf"
  | .kwStatic => "KwStatic"
  | .kwStruct => "KwStruct"
  | .kwSubscript => "KwSubscript"
  | .kwSuper => "KwSuper"
  | .kwSwitch => "KwSwitch"
  | .kwThrow => "KwThrow"
  | .kwThrows => "KwThrows"
  | .kwTrue => "KwTrue"
  | .kwTry => "KwTry"
  | .kwTypealias => "KwTypealias"
  | .kwVar => "KwVar"
  | .kwWhere => "KwWhere"
  | .kwWhile => "KwWhile"
  | .intLiteral => "IntLiteral"
  | .floatLiteral => "FloatLiteral"
  | .stringLiteral => "StringLiteral"
  | .ident => "Ident"
  | .underscore => "Underscore"
  | .error => "Error"
  | .eof => "Eof"

/-! ## Reserved words -/

/-- The kind of a reserved word; `none` for every other word. -/
def reserved? : String → Option TokenKind
  | "as" => some .kwAs
  | "associatedtype" => some .kwAssociatedtype
  | "break" => some .kwBreak
  | "case" => some .kwCase
  | "catch" => some .kwCatch
  | "class" => some .kwClass
  | "continue" => some .kwContinue
  | "default" => some .kwDefault
  | "defer" => some .kwDefer
  | "deinit" => some .kwDeinit
  | "do" => some .kwDo
  | "else" => some .kwElse
  | "enum" => some .kwEnum
  | "extension" => some .kwExtension
  | "fallthrough" => some .kwFallthrough
  | "false" => some .kwFalse
  | "for" => some .kwFor
  | "func" => some .kwFunc
  | "guard" => some .kwGuard
  | "if" => some .kwIf
  | "import" => some .kwImport
  | "in" => some .kwIn
  | "init" => some .kwInit
  | "inout" => some .kwInout
  | "is" => some .kwIs
  | "let" => some .kwLet
  | "nil" => some .kwNil
  | "operator" => some .kwOperator
  | "precedencegroup" => some .kwPrecedencegroup
  | "protocol" => some .kwProtocol
  | "repeat" => some .kwRepeat
  | "rethrows" => some .kwRethrows
  | "return" => some .kwReturn
  | "self" => some .kwSelf
  | "Self" => some .kwCapitalSelf
  | "static" => some .kwStatic
  | "struct" => some .kwStruct
  | "subscript" => some .kwSubscript
  | "super" => some .kwSuper
  | "switch" => some .kwSwitch
  | "throw" => some .kwThrow
  | "throws" => some .kwThrows
  | "true" => some .kwTrue
  | "try" => some .kwTry
  | "typealias" => some .kwTypealias
  | "var" => some .kwVar
  | "where" => some .kwWhere
  | "while" => some .kwWhile
  | _ => none

/-- How a reserved word is spelled; `none` for the kinds that are no reserved word. -/
def spelling? : TokenKind → Option String
  | .kwAs => some "as"
  | .kwAssociatedtype => some "associatedtype"
  | .kwBreak => some "break"
  | .kwCase => some "case"
  | .kwCatch => some "catch"
  | .kwClass => some "class"
  | .kwContinue => some "continue"
  | .kwDefault => some "default"
  | .kwDefer => some "defer"
  | .kwDeinit => some "deinit"
  | .kwDo => some "do"
  | .kwElse => some "else"
  | .kwEnum => some "enum"
  | .kwExtension => some "extension"
  | .kwFallthrough => some "fallthrough"
  | .kwFalse => some "false"
  | .kwFor => some "for"
  | .kwFunc => some "func"
  | .kwGuard => some "guard"
  | .kwIf => some "if"
  | .kwImport => some "import"
  | .kwIn => some "in"
  | .kwInit => some "init"
  | .kwInout => some "inout"
  | .kwIs => some "is"
  | .kwLet => some "let"
  | .kwNil => some "nil"
  | .kwOperator => some "operator"
  | .kwPrecedencegroup => some "precedencegroup"
  | .kwProtocol => some "protocol"
  | .kwRepeat => some "repeat"
  | .kwRethrows => some "rethrows"
  | .kwReturn => some "return"
  | .kwSelf => some "self"
  | .kwCapitalSelf => some "Self"
  | .kwStatic => some "static"
  | .kwStruct => some "struct"
  | .kwSubscript => some "subscript"
  | .kwSuper => some "super"
  | .kwSwitch => some "switch"
  | .kwThrow => some "throw"
  | .kwThrows => some "throws"
  | .kwTrue => some "true"
  | .kwTry => some "try"
  | .kwTypealias => some "typealias"
  | .kwVar => some "var"
  | .kwWhere => some "where"
  | .kwWhile => some "while"
  | _ => none

/-- A word is the spelling of its reserved kind. -/
theorem spelling?_of_reserved? {w : String} {k : TokenKind} (h : reserved? w = some k) :
    spelling? k = some w := by
  unfold reserved? at h
  split at h
  all_goals cases h
  all_goals rfl

/-! ## Classes of kinds -/

/-- Whitespace and comments, which separate tokens and have no meaning of their own. -/
def isTrivia : TokenKind → Bool
  | whitespace | lineComment | blockComment => true
  | _ => false

/-- Reserved words. -/
def isKeyword (k : TokenKind) : Bool :=
  k.spelling?.isSome

/-- Literals, the word literals `true`, `false` and `nil` included. -/
def isLiteral : TokenKind → Bool
  | intLiteral | floatLiteral | stringLiteral | kwTrue | kwFalse | kwNil => true
  | _ => false

/-- Tokens that can spell an operator or a part of one. -/
def isOperatorLike : TokenKind → Bool
  | operator | eq | question | exclamation | amp | lt | gt | arrow | ellipsis => true
  | _ => false

/-- Tokens that can be an argument label: names, `_`, and every reserved word except `inout`,
    `var` and `let`. -/
def isArgumentLabel : TokenKind → Bool
  | ident | underscore => true
  | kwInout | kwVar | kwLet => false
  | k => k.isKeyword

/-- Words that open a declaration wherever they stand. -/
def isDeclKeyword : TokenKind → Bool
  | kwAssociatedtype | kwClass | kwDeinit | kwEnum | kwExtension | kwFunc | kwImport | kwInit
  | kwLet | kwOperator | kwPrecedencegroup | kwProtocol | kwStruct | kwSubscript | kwTypealias
  | kwVar => true
  | _ => false

/-- Words that open a statement that is no expression. -/
def isStatementKeyword : TokenKind → Bool
  | kwBreak | kwContinue | kwDefer | kwDo | kwFallthrough | kwFor | kwGuard | kwIf | kwRepeat
  | kwReturn | kwSwitch | kwThrow | kwWhile => true
  | _ => false

/-- Closing brackets. -/
def isCloser : TokenKind → Bool
  | rParen | rBracket | rBrace => true
  | _ => false

/-- Opening brackets. -/
def isOpener : TokenKind → Bool
  | lParen | lBracket | lBrace => true
  | _ => false

/-- The directives of conditional compilation. -/
def isDirective : TokenKind → Bool
  | poundIf | poundElseif | poundElse | poundEndif => true
  | _ => false

/-- Words that can name a member after `.` or an attribute after `@`. -/
def isNameLike (k : TokenKind) : Bool :=
  k == ident || k.isKeyword

end TokenKind

end SwiftOutline
