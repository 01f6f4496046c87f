/-
  SwiftOutline.Proofs.TypeShape.Respelling

  Type expressions that differ only in how some types in them are spelled: `[T]`,
  `Array<T>` or `Swift.Array<T>`, `[K: V]` or `Dictionary<K, V>`, `T?` or
  `Optional<T>`. A type can be respelled at any depth below collections, optionals,
  parentheses, tuples, functions, `Set` and `Result`, but not below other names.

  The trees are those of a text, and trivia may stand anywhere between the parts of
  a type, on both sides in different places.
-/
import SwiftOutline.Proofs.Tree.Parts
import SwiftOutline.TypeShape.Classify

namespace SwiftOutline

open SwiftOutline.Tree

namespace TypeShape

/-! ## The spellings of types -/

/-- The tree is a generic argument with the type `t`. -/
inductive IsGenericArgument (t : Tree) : Tree → Prop where
  | intro {us : List Tree} (parts : (Tree.node .genericArgument us).parts = [t]) :
      IsGenericArgument t (.node .genericArgument us)

/-- The tree is a list of generic arguments with the types `ts`. -/
inductive IsArgumentClause (ts : List Tree) : Tree → Prop where
  | intro {us es ws : List Tree} {o : Token}
      (parts : (Tree.node .genericArgumentClause us).parts = .leaf o :: ws)
      (listed : Listed .gt es ws) (arguments : List.Forall₂ IsGenericArgument ts es) :
      IsArgumentClause ts (.node .genericArgumentClause us)

/-- The tree is `name<A, B>` or `Swift.name<A, B>` with the types `ts` as generic arguments. -/
inductive IsGeneric (name : String) (ts : List Tree) : Tree → Prop where
  | intro {words : List Token} {us : List Tree} {clause : Tree}
      (spells : String.join (words.map Token.text) ∈ [name, "Swift." ++ name])
      (parts : (Tree.node .simpleType us).parts = words.map .leaf ++ [clause])
      (arguments : IsArgumentClause ts clause) : IsGeneric name ts (.node .simpleType us)

/-- The tree is an array type with elements of the type `t`. -/
inductive IsArray (t : Tree) : Tree → Prop where
  | bracket {us : List Tree} {o b : Token}
      (parts : (Tree.node .arrayType us).parts = [.leaf o, t, .leaf b])
      (closes : b.kind = .rBracket) : IsArray t (.node .arrayType us)
  | generic {u : Tree} (h : IsGeneric "Array" [t] u) : IsArray t u

/-- The tree is a dictionary type with keys of the type `k` and values of the type `v`. -/
inductive IsDictionary (k v : Tree) : Tree → Prop where
  | bracket {us : List Tree} {o a b : Token}
      (parts : (Tree.node .dictionaryType us).parts = [.leaf o, k, .leaf a, v, .leaf b])
      (colon : a.kind = .colon) (closes : b.kind = .rBracket) :
      IsDictionary k v (.node .dictionaryType us)
  | generic {u : Tree} (h : IsGeneric "Dictionary" [k, v] u) : IsDictionary k v u

/-- The tree is the type `t` with specifiers in front of it, such as `inout`. -/
inductive IsSpecified (words : List Token) (t : Tree) : Tree → Prop where
  | intro {us : List Tree}
      (parts : (Tree.node .attributedType us).parts = words.map .leaf ++ [t]) :
      IsSpecified words t (.node .attributedType us)

/-- The trees `es` are elements of a tuple type without dots: their types are `ts`, and in front
    of these stand the tokens `labels`, the labels with their colon. -/
inductive AreElements : (labels : List (List Token)) → (ts es : List Tree) → Prop where
  | nil : AreElements [] [] []
  | cons {words : List Token} {labels : List (List Token)} {t : Tree} {us ts es : List Tree}
      (parts : (Tree.node .tupleTypeElement us).parts = words.map .leaf ++ [t])
      (dots : ∀ w ∈ words, w.kind ≠ .ellipsis) (rest : AreElements labels ts es) :
      AreElements (words :: labels) (t :: ts) (.node .tupleTypeElement us :: es)

/-- The tree is a tuple type, or a type in parentheses. -/
inductive IsTuple (labels : List (List Token)) (ts : List Tree) : Tree → Prop where
  | intro {us es ws : List Tree} {o : Token}
      (parts : (Tree.node .tupleType us).parts = .leaf o :: ws) (listed : Listed .rParen es ws)
      (elements : AreElements labels ts es) : IsTuple labels ts (.node .tupleType us)

/-- The types that a mark of optionality can stand behind. -/
def IsOperand (t : Tree) : Prop :=
  t.nodeKind? ≠ some .functionType ∧ t.nodeKind? ≠ some .attributedType

/-- The tree is an optional type around the type `t`, which is in parentheses behind which the mark
    stands if this cannot stand behind the type. -/
inductive IsOptional (t : Tree) : Tree → Prop where
  | marked {us : List Tree} {q : Token} (operand : IsOperand t)
      (parts : (Tree.node .optionalType us).parts = [t, .leaf q]) :
      IsOptional t (.node .optionalType us)
  | parenthesized {us : List Tree} {v : Tree} {q : Token} (tuple : IsTuple [[]] [t] v)
      (parts : (Tree.node .optionalType us).parts = [v, .leaf q]) :
      IsOptional t (.node .optionalType us)
  | generic {u : Tree} (h : IsGeneric "Optional" [t] u) : IsOptional t u

/-- The tree is `T!` with the type `t`. -/
inductive IsUnwrapped (t : Tree) : Tree → Prop where
  | intro {us : List Tree} {q : Token} (operand : IsOperand t)
      (parts : (Tree.node .implicitlyUnwrappedOptionalType us).parts = [t, .leaf q]) :
      IsUnwrapped t (.node .implicitlyUnwrappedOptionalType us)

/-- The tree is a function type with the effect specifiers `effects` and the result `out`. -/
inductive IsFunction (labels : List (List Token)) (ts effects : List Tree) (out : Tree) :
    Tree → Prop where
  | intro {us vs : List Tree} {input : Tree} {a : Token}
      (parts : (Tree.node .functionType us).parts =
        input :: (effects ++ [.node .returnClause vs]))
      (tuple : IsTuple labels ts input)
      (specifiers : ∀ e ∈ effects, e.nodeKind? = some .effectSpecifiers)
      (result : (Tree.node .returnClause vs).parts = [.leaf a, out]) :
      IsFunction labels ts effects out (.node .functionType us)

/-- The generic types that are more than their name, with their numbers of arguments. -/
def isStandard (name : String) (arguments : Nat) : Bool :=
  match name with
  | "Array" | "Set" | "Optional" => arguments == 1
  | "Dictionary" => arguments == 2
  | "Result" => arguments != 0
  | _ => false

/-- The tree is a type that is not respelled inside: a named type that is no standard generic type,
    a metatype, a composition, or a type behind `some` or `any`. -/
inductive IsFixed : Tree → Prop where
  | named {us : List Tree}
      (notStandard : ∀ name arguments,
        genericForm? "" none (Cursor.ofTree (.node .simpleType us)).elements =
          some (name, arguments) → isStandard (unqualified name) arguments.length = false) :
      IsFixed (.node .simpleType us)
  | other {k : NodeKind} {us : List Tree}
      (kind : k ∈ [.metatypeType, .compositionType, .someOrAnyType]) : IsFixed (.node k us)

/-! ## Respelling -/

mutual

/-- Two type expressions differ only in how types are spelled. -/
inductive Respelled : Tree → Tree → Prop where
  | fixed {u : Tree} (h : IsFixed u) : Respelled u u
  | array {t t' u u' : Tree} (hu : IsArray t u) (hu' : IsArray t' u') (element : Respelled t t') :
      Respelled u u'
  | dictionary {k k' v v' u u' : Tree} (hu : IsDictionary k v u) (hu' : IsDictionary k' v' u')
      (key : Respelled k k') (value : Respelled v v') : Respelled u u'
  | set {t t' u u' : Tree} (hu : IsGeneric "Set" [t] u) (hu' : IsGeneric "Set" [t'] u')
      (element : Respelled t t') : Respelled u u'
  | result {ts ts' : List Tree} {u u' : Tree} (hu : IsGeneric "Result" ts u)
      (hu' : IsGeneric "Result" ts' u') (arguments : RespelledAll ts ts') : Respelled u u'
  | optional {t t' u u' : Tree} (hu : IsOptional t u) (hu' : IsOptional t' u')
      (inner : Respelled t t') : Respelled u u'
  | unwrapped {t t' u u' : Tree} (hu : IsUnwrapped t u) (hu' : IsUnwrapped t' u')
      (inner : Respelled t t') : Respelled u u'
  | specified {words : List Token} {t t' u u' : Tree} (hu : IsSpecified words t u)
      (hu' : IsSpecified words t' u') (inner : Respelled t t') : Respelled u u'
  | tuple {labels : List (List Token)} {ts ts' : List Tree} {u u' : Tree}
      (hu : IsTuple labels ts u) (hu' : IsTuple labels ts' u') (elements : RespelledAll ts ts') :
      Respelled u u'
  | function {labels : List (List Token)} {ts ts' effects : List Tree} {out out' u u' : Tree}
      (hu : IsFunction labels ts effects out u) (hu' : IsFunction labels ts' effects out' u')
      (input : RespelledAll ts ts') (output : Respelled out out') : Respelled u u'

/-- Two sequences of type expressions differ only in how types are spelled. -/
inductive RespelledAll : List Tree → List Tree → Prop where
  | nil : RespelledAll [] []
  | cons {t t' : Tree} {ts ts' : List Tree} (first : Respelled t t')
      (rest : RespelledAll ts ts') : RespelledAll (t :: ts) (t' :: ts')

end

end TypeShape

end SwiftOutline
