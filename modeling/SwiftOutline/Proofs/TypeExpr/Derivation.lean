/-
  SwiftOutline.Proofs.TypeExpr.Derivation

  The grammar of type expressions, as a relation between lexemes and trees that
  knows nothing of how a parser decides. Where two lexemes have to touch, or must
  not, the rule that has them side by side says so.
-/
import SwiftOutline.Grammar.TypeExpr

namespace SwiftOutline

/-! ## Lexemes of type expressions -/

namespace Lexeme

/-- The lexeme as a tree. -/
def leaf (l : Lexeme) : Tree := .leaf l.token

/-- The lexeme directly follows the one before it. -/
def IsJoined (l : Lexeme) : Prop := l.gap.trivia = false

/-- The lexeme is the identifier `word`. -/
def Spells (l : Lexeme) (word : String) : Prop := l.kind = .ident ∧ l.text = word

/-- The lexeme can be the first name of a type. Words that mean something in front of a type
    cannot. -/
def IsTypeName (l : Lexeme) : Prop :=
  l.kind = .kwCapitalSelf ∨
    l.kind = .ident ∧ l.text ∉ Grammar.typeSpecifiers ∧ l.text ≠ "some" ∧ l.text ≠ "any"

/-- The lexeme can be the name of a member type. -/
def IsMemberName (l : Lexeme) : Prop :=
  l.kind = .kwCapitalSelf ∨ l.kind = .ident ∧ l.text ≠ "Type" ∧ l.text ≠ "Protocol"

/-- The lexeme specifies how a value of the type behind it is passed. -/
def IsSpecifier (l : Lexeme) : Prop :=
  l.kind = .kwInout ∨ l.kind = .ident ∧ l.text ∈ Grammar.typeSpecifiers

/-- The lexeme is `async`, `reasync`, `throws` or `rethrows`. -/
def IsEffect (l : Lexeme) : Prop :=
  l.Spells "async" ∨ l.Spells "reasync" ∨ l.kind = .kwThrows ∨ l.kind = .kwRethrows

/-- The lexeme is neither a bracket nor the end. -/
def IsPlain (l : Lexeme) : Prop :=
  l.kind.isOpener = false ∧ l.kind.isCloser = false ∧ l.kind ≠ .eof

/-- Lexemes among which each opening bracket has a closing one. -/
inductive Nested : List Lexeme → Prop where
  | nil : Nested []
  | plain {l : Lexeme} {ls : List Lexeme} (first : l.IsPlain) (rest : Nested ls) :
      Nested (l :: ls)
  | group {o c : Lexeme} {inner ls : List Lexeme} (opens : o.kind.isOpener = true)
      (inside : Nested inner) (closes : c.kind.isCloser = true) (rest : Nested ls) :
      Nested (o :: (inner ++ c :: ls))

/-- Lexemes of one argument of an attribute: commas stand in brackets only. -/
inductive Argument : List Lexeme → Prop where
  | nil : Argument []
  | plain {l : Lexeme} {ls : List Lexeme} (first : l.IsPlain) (comma : l.kind ≠ .comma)
      (rest : Argument ls) : Argument (l :: ls)
  | group {o c : Lexeme} {inner ls : List Lexeme} (opens : o.kind.isOpener = true)
      (inside : Nested inner) (closes : c.kind.isCloser = true) (rest : Argument ls) :
      Argument (o :: (inner ++ c :: ls))

end Lexeme

/-! ## Phrases -/

namespace Grammar

/-- What commas separate in a type expression. -/
inductive Part where
  | genericArgument
  | tupleElement
  | attributeArgument
  deriving DecidableEq, Repr

/-- What a part of a type expression is. -/
inductive Phrase where
  /-- A type. -/
  | type
  /-- A type that does not begin with an attribute. -/
  | specified
  /-- A type that begins neither with an attribute nor with a specifier. -/
  | bare
  /-- Types joined by `&`, or a single one. -/
  | composition
  /-- `& B & C` -/
  | operands
  /-- A type with its marks; `function` tells whether it is a function type. -/
  | operand (function : Bool)
  /-- `(A, label: B)` -/
  | tuple
  /-- An element of a tuple type, without dots. -/
  | element
  /-- `Name<A>.Member` -/
  | name
  /-- `.Member<A>.Member`, or nothing. -/
  | members
  /-- Generic arguments in angle brackets, or none. -/
  | arguments
  | part (p : Part)
  /-- Parts with commas between them. -/
  | parts (p : Part)
  /-- `async throws(E)` -/
  | effects
  /-- One effect specifier. -/
  | effect
  /-- `inout borrowing` -/
  | specifiers
  /-- Attributes; `applied` tells whether the last one ends with arguments in parentheses. -/
  | attributes (applied : Bool)
  /-- `.Member.Member`, the rest of the name of an attribute. -/
  | path
  /-- Arguments of an attribute in parentheses, or none. -/
  | application (applied : Bool)
  deriving DecidableEq, Repr

open Lexeme (leaf)

/-- `Derives strict p ls ts` says that the lexemes `ls` are a phrase `p` with the trees `ts`.

    A parser has no way to tell some of these phrases apart but by the spacing and the order of
    words. With `strict` they are kept apart: parentheses belong to an attribute or to `throws` if
    and only if they directly follow, and `inout` stands in front of the other specifiers. -/
inductive Derives (strict : Bool) : Phrase → List Lexeme → List Tree → Prop where
  -- Prefixes
  | type {ls : List Lexeme} {t : Tree} (h : Derives strict .specified ls [t]) :
      Derives strict .type ls [t]
  | attributed {applied : Bool} {ls ms : List Lexeme} {us : List Tree} {t : Tree}
      (front : Derives strict (.attributes applied) ls us)
      (inner : Derives strict .specified ms [t])
      (apart : strict = true → applied = false → Lookahead.seesJoined .lParen ms = false) :
      Derives strict .type (ls ++ ms) [.node .attributedType [.node .attributeList us, t]]
  | bare {ls : List Lexeme} {t : Tree} (h : Derives strict .bare ls [t]) :
      Derives strict .specified ls [t]
  | specified {ls ms : List Lexeme} {us : List Tree} {t : Tree}
      (front : Derives strict .specifiers ls us) (inner : Derives strict .bare ms [t]) :
      Derives strict .specified (ls ++ ms) [.node .attributedType (us ++ [t])]
  | specifiedAttributed {applied : Bool} {ls ms ns : List Lexeme} {us vs : List Tree} {t : Tree}
      (front : Derives strict .specifiers ls us)
      (middle : Derives strict (.attributes applied) ms vs)
      (inner : Derives strict .specified ns [t])
      (apart : strict = true → applied = false → Lookahead.seesJoined .lParen ns = false) :
      Derives strict .specified (ls ++ (ms ++ ns))
        [.node .attributedType (us ++ [.node .attributeList vs, t])]
  | specifier {l : Lexeme} (h : l.IsSpecifier) : Derives strict .specifiers [l] [l.leaf]
  | specifiers {l m : Lexeme} {ls : List Lexeme} {us : List Tree} (first : l.IsSpecifier)
      (rest : Derives strict .specifiers (m :: ls) us)
      (order : strict = true → l.kind = .ident → m.kind ≠ .kwInout) :
      Derives strict .specifiers (l :: m :: ls) (l.leaf :: us)
  -- Attributes
  | oneAttribute {applied : Bool} {a n : Lexeme} {ls ms ns : List Lexeme} {us vs ws : List Tree}
      (sign : a.kind = .atSign) (name : n.kind.isNameLike = true)
      (path : Derives strict .path ls us) (arguments : Derives strict .arguments ms vs)
      (application : Derives strict (.application applied) ns ws) :
      Derives strict (.attributes applied) (a :: n :: (ls ++ (ms ++ ns)))
        [.node .attributeUse (a.leaf :: n.leaf :: (us ++ (vs ++ ws)))]
  | attributes {first last : Bool} {ls ms : List Lexeme} {us vs : List Tree}
      (head : Derives strict (.attributes first) ls us)
      (rest : Derives strict (.attributes last) ms vs) :
      Derives strict (.attributes last) (ls ++ ms) (us ++ vs)
  | pathNil : Derives strict .path [] []
  | path {d n : Lexeme} {ls : List Lexeme} {us : List Tree} (dot : d.kind = .dot)
      (name : n.kind.isNameLike = true) (rest : Derives strict .path ls us) :
      Derives strict .path (d :: n :: ls) (d.leaf :: n.leaf :: us)
  | unapplied : Derives strict (.application false) [] []
  | appliedNil {o c : Lexeme} (opens : o.kind = .lParen) (joined : strict = true → o.IsJoined)
      (closes : c.kind = .rParen) :
      Derives strict (.application true) [o, c] [.node .attributeArguments [o.leaf, c.leaf]]
  | applied {o c : Lexeme} {ls : List Lexeme} {us : List Tree} (opens : o.kind = .lParen)
      (joined : strict = true → o.IsJoined)
      (arguments : Derives strict (.parts .attributeArgument) ls us) (closes : c.kind = .rParen) :
      Derives strict (.application true) (o :: (ls ++ [c]))
        [.node .attributeArguments (o.leaf :: (us ++ [c.leaf]))]
  | attributeArgument {l : Lexeme} {ls : List Lexeme} (h : Lexeme.Argument (l :: ls)) :
      Derives strict (.part .attributeArgument) (l :: ls)
        [.node .attributeArgument ((l :: ls).map leaf)]
  -- Parts
  | lastPart {p : Part} {ls : List Lexeme} {us : List Tree} (h : Derives strict (.part p) ls us) :
      Derives strict (.parts p) ls us
  | moreParts {p : Part} {a : Lexeme} {ls ms : List Lexeme} {us vs : List Tree}
      (first : Derives strict (.part p) ls us) (comma : a.kind = .comma)
      (rest : Derives strict (.parts p) ms vs) :
      Derives strict (.parts p) (ls ++ a :: ms) (us ++ a.leaf :: vs)
  -- Types
  | someOrAny {w l : Lexeme} {ls : List Lexeme} {t : Tree} (word : w.Spells "some" ∨ w.Spells "any")
      (line : l.gap.newline = false) (inner : Derives strict .composition (l :: ls) [t]) :
      Derives strict .bare (w :: l :: ls) [.node .someOrAnyType [w.leaf, t]]
  | composition {ls : List Lexeme} {t : Tree} (h : Derives strict .composition ls [t]) :
      Derives strict .bare ls [t]
  | single {function : Bool} {ls : List Lexeme} {t : Tree}
      (h : Derives strict (.operand function) ls [t]) : Derives strict .composition ls [t]
  | joined {ls ms : List Lexeme} {t : Tree} {us : List Tree}
      (first : Derives strict (.operand false) ls [t]) (rest : Derives strict .operands ms us) :
      Derives strict .composition (ls ++ ms) [.node .compositionType (t :: us)]
  | lastOperand {function : Bool} {a : Lexeme} {ls : List Lexeme} {t : Tree} (amp : a.kind = .amp)
      (operand : Derives strict (.operand function) ls [t]) :
      Derives strict .operands (a :: ls) [a.leaf, t]
  | moreOperands {a : Lexeme} {ls ms : List Lexeme} {t : Tree} {us : List Tree} (amp : a.kind = .amp)
      (operand : Derives strict (.operand false) ls [t]) (rest : Derives strict .operands ms us) :
      Derives strict .operands (a :: (ls ++ ms)) (a.leaf :: t :: us)
  | named {ls : List Lexeme} {us : List Tree} (h : Derives strict .name ls us) :
      Derives strict (.operand false) ls [.node .simpleType us]
  | array {o c : Lexeme} {ls : List Lexeme} {t : Tree} (opens : o.kind = .lBracket)
      (element : Derives strict .type ls [t]) (closes : c.kind = .rBracket) :
      Derives strict (.operand false) (o :: (ls ++ [c])) [.node .arrayType [o.leaf, t, c.leaf]]
  | dictionary {o a c : Lexeme} {ls ms : List Lexeme} {t u : Tree} (opens : o.kind = .lBracket)
      (key : Derives strict .type ls [t]) (colon : a.kind = .colon)
      (value : Derives strict .type ms [u]) (closes : c.kind = .rBracket) :
      Derives strict (.operand false) (o :: (ls ++ a :: (ms ++ [c])))
        [.node .dictionaryType [o.leaf, t, a.leaf, u, c.leaf]]
  | tupled {ls : List Lexeme} {t : Tree} (h : Derives strict .tuple ls [t]) :
      Derives strict (.operand false) ls [t]
  | function {a : Lexeme} {ls ms : List Lexeme} {t u : Tree} (input : Derives strict .tuple ls [t])
      (arrow : a.kind = .arrow) (output : Derives strict .type ms [u]) :
      Derives strict (.operand true) (ls ++ a :: ms)
        [.node .functionType [t, .node .returnClause [a.leaf, u]]]
  | functionEffects {a : Lexeme} {ls es ms : List Lexeme} {t u : Tree} {vs : List Tree}
      (input : Derives strict .tuple ls [t]) (effects : Derives strict .effects es vs)
      (arrow : a.kind = .arrow) (output : Derives strict .type ms [u]) :
      Derives strict (.operand true) (ls ++ (es ++ a :: ms))
        [.node .functionType [t, .node .effectSpecifiers vs, .node .returnClause [a.leaf, u]]]
  | optional {q : Lexeme} {ls : List Lexeme} {t : Tree}
      (inner : Derives strict (.operand false) ls [t]) (mark : q.kind = .question)
      (joined : q.IsJoined) :
      Derives strict (.operand false) (ls ++ [q]) [.node .optionalType [t, q.leaf]]
  | unwrapped {q : Lexeme} {ls : List Lexeme} {t : Tree}
      (inner : Derives strict (.operand false) ls [t]) (mark : q.kind = .exclamation)
      (joined : q.IsJoined) :
      Derives strict (.operand false) (ls ++ [q])
        [.node .implicitlyUnwrappedOptionalType [t, q.leaf]]
  | metatype {d w : Lexeme} {ls : List Lexeme} {t : Tree}
      (inner : Derives strict (.operand false) ls [t]) (dot : d.kind = .dot)
      (word : w.Spells "Type" ∨ w.Spells "Protocol") :
      Derives strict (.operand false) (ls ++ [d, w]) [.node .metatypeType [t, d.leaf, w.leaf]]
  -- Tuples
  | unit {o c : Lexeme} (opens : o.kind = .lParen) (closes : c.kind = .rParen) :
      Derives strict .tuple [o, c] [.node .tupleType [o.leaf, c.leaf]]
  | tuple {o c : Lexeme} {ls : List Lexeme} {us : List Tree} (opens : o.kind = .lParen)
      (elements : Derives strict (.parts .tupleElement) ls us) (closes : c.kind = .rParen) :
      Derives strict .tuple (o :: (ls ++ [c])) [.node .tupleType (o.leaf :: (us ++ [c.leaf]))]
  | plain {ls : List Lexeme} {us : List Tree} (h : Derives strict .element ls us) :
      Derives strict (.part .tupleElement) ls [.node .tupleTypeElement us]
  | variadic {d : Lexeme} {ls : List Lexeme} {us : List Tree} (h : Derives strict .element ls us)
      (dots : d.kind = .ellipsis) :
      Derives strict (.part .tupleElement) (ls ++ [d]) [.node .tupleTypeElement (us ++ [d.leaf])]
  | element {ls : List Lexeme} {t : Tree} (h : Derives strict .type ls [t]) :
      Derives strict .element ls [t]
  | labelled {l a : Lexeme} {ls : List Lexeme} {t : Tree} (label : l.kind.isArgumentLabel = true)
      (colon : a.kind = .colon) (h : Derives strict .type ls [t]) :
      Derives strict .element (l :: a :: ls) [l.leaf, a.leaf, t]
  | labelledTwice {l m a : Lexeme} {ls : List Lexeme} {t : Tree}
      (outer : l.kind.isArgumentLabel = true) (label : m.kind.isArgumentLabel = true)
      (colon : a.kind = .colon) (h : Derives strict .type ls [t]) :
      Derives strict .element (l :: m :: a :: ls) [l.leaf, m.leaf, a.leaf, t]
  -- Names
  | name {n : Lexeme} {ls ms : List Lexeme} {us vs : List Tree} (first : n.IsTypeName)
      (arguments : Derives strict .arguments ls us) (members : Derives strict .members ms vs) :
      Derives strict .name (n :: (ls ++ ms)) (n.leaf :: (us ++ vs))
  | membersNil : Derives strict .members [] []
  | members {d n : Lexeme} {ls ms : List Lexeme} {us vs : List Tree} (dot : d.kind = .dot)
      (first : n.IsMemberName) (arguments : Derives strict .arguments ls us)
      (rest : Derives strict .members ms vs) :
      Derives strict .members (d :: n :: (ls ++ ms)) (d.leaf :: n.leaf :: (us ++ vs))
  | argumentsNil : Derives strict .arguments [] []
  | arguments {o c : Lexeme} {ls : List Lexeme} {us : List Tree} (opens : o.kind = .lt)
      (joined : o.IsJoined) (types : Derives strict (.parts .genericArgument) ls us)
      (closes : c.kind = .gt) :
      Derives strict .arguments (o :: (ls ++ [c]))
        [.node .genericArgumentClause (o.leaf :: (us ++ [c.leaf]))]
  | genericArgument {ls : List Lexeme} {t : Tree} (h : Derives strict .type ls [t]) :
      Derives strict (.part .genericArgument) ls [.node .genericArgument [t]]
  -- Effects
  | lastEffect {ls : List Lexeme} {us : List Tree} (h : Derives strict .effect ls us) :
      Derives strict .effects ls us
  | moreEffects {ls ms : List Lexeme} {us vs : List Tree} (first : Derives strict .effect ls us)
      (rest : Derives strict .effects ms vs) : Derives strict .effects (ls ++ ms) (us ++ vs)
  | effect {e : Lexeme} (h : e.IsEffect) : Derives strict .effect [e] [e.leaf]
  | thrown {e o c : Lexeme} {ls : List Lexeme} {t : Tree}
      (word : e.kind = .kwThrows ∨ e.kind = .kwRethrows) (opens : o.kind = .lParen)
      (joined : strict = true → o.IsJoined) (type : Derives strict .type ls [t])
      (closes : c.kind = .rParen) :
      Derives strict .effect (e :: o :: (ls ++ [c])) [e.leaf, o.leaf, t, c.leaf]

namespace Derives

variable {strict : Bool} {ls : List Lexeme} {t : Tree}

/-- An operand alone is a type. -/
theorem type_of_operand {function : Bool} (h : Derives strict (.operand function) ls [t]) :
    Derives strict .type ls [t] :=
  .type (.bare (.composition (.single h)))

/-- A name alone is an operand. -/
theorem operand_of_isTypeName {n : Lexeme} (h : n.IsTypeName) :
    Derives strict (.operand false) [n] [.node .simpleType [n.leaf]] :=
  .named (.name h .argumentsNil .membersNil)

/-! ### The kinds of types -/

theorem nodeKind?_of_tuple (h : Derives strict .tuple ls [t]) : t.nodeKind? = some .tupleType := by
  cases h <;> rfl

theorem exists_nodeKind?_of_operand {function : Bool}
    (h : Derives strict (.operand function) ls [t]) :
    ∃ k, t.nodeKind? = some k ∧ k.isType = true ∧ k ≠ .attributedType := by
  cases h with
  | tupled h => exact ⟨_, h.nodeKind?_of_tuple, rfl, by decide⟩
  | _ => exact ⟨_, rfl, rfl, by decide⟩

/-- A type that begins neither with an attribute nor with a specifier is of another kind than those
    that do. -/
theorem exists_nodeKind?_of_bare (h : Derives strict .bare ls [t]) :
    ∃ k, t.nodeKind? = some k ∧ k.isType = true ∧ k ≠ .attributedType := by
  cases h with
  | someOrAny _ _ _ => exact ⟨_, rfl, rfl, by decide⟩
  | composition h =>
    cases h with
    | single h => exact h.exists_nodeKind?_of_operand
    | joined _ _ => exact ⟨_, rfl, rfl, by decide⟩

theorem isType_of_specified (h : Derives strict .specified ls [t]) :
    t.nodeKind?.any NodeKind.isType = true := by
  cases h with
  | bare h =>
    obtain ⟨k, hk, htype, -⟩ := h.exists_nodeKind?_of_bare
    rw [hk, Option.any_some, htype]
  | specified _ _ | specifiedAttributed _ _ _ _ => rfl

/-- Specifiers are words. -/
theorem nodeKind?_of_specifiers {ls : List Lexeme} {us : List Tree}
    (h : Derives strict .specifiers ls us) : ∀ u ∈ us, u.nodeKind? = none := by
  cases h with
  | specifier _ => exact List.forall_mem_singleton.mpr rfl
  | specifiers _ rest _ => exact List.forall_mem_cons.mpr ⟨rfl, nodeKind?_of_specifiers rest⟩
termination_by ls.length

end Derives

end Grammar

end SwiftOutline
