/-
  SwiftOutline.Proofs.Generics.Operators

  Generic functions whose names are operators. A `<` opens their parameters if it is
  a token of its own, and that it is behind a slash only. Behind all other operators
  it is the last character of the name, so that neither generic parameters nor a
  parameter list are found.
-/
import SwiftOutline.Proofs.Generics.Parsed
import SwiftOutline.Proofs.Outline.SourceOrder
import SwiftOutline.Proofs.Token.Literal
import SwiftOutline.Proofs.Token.OperatorRuns

namespace SwiftOutline

open Lexer SwiftOutline.Tree
open TypeShape (blankTree)

/-! ## Operators -/

/-- The spelling of an operator in which there is no `<`. -/
structure OperatorText where
  text : String
  nonempty : text ≠ ""
  chars : ∀ c ∈ text.toList, c ∈ "/=-+*%>&|^~!?".toList
  lexed : ∀ t ∈ lex text, t.kind.isOperatorLike = true

namespace OperatorText

variable (o : OperatorText)

theorem toList_ne_nil : o.text.toList ≠ [] := fun h =>
  o.nonempty (String.toList_eq_nil_iff.mp h)

theorem lex_ne_nil : lex o.text ≠ [] := by
  intro h
  have hjoin := join_lex o.text
  rw [h] at hjoin
  exact o.nonempty hjoin.symm

theorem isOperatorChar_or : ∀ d ∈ o.text.toList, isOperatorChar d = true ∨ d = '/' := by
  have hall : ∀ d ∈ "/=-+*%>&|^~!?".toList, isOperatorChar d = true ∨ d = '/' :=
    forall_mem_of_all (by decide)
  exact fun d hd => hall d (o.chars d hd)

theorem lt_notMem : '<' ∉ o.text.toList := fun hmem => absurd (o.chars '<' hmem) (by decide)

theorem isBlank (rest : List Char) :
    ∀ d ∈ (o.text.toList ++ rest).head?, Lexer.isBlank d = false := by
  have hall : ∀ d ∈ "/=-+*%>&|^~!?".toList, Lexer.isBlank d = false :=
    forall_mem_of_all (by decide)
  intro d hd
  obtain ⟨c, cs, hcs⟩ := List.exists_cons_of_ne_nil o.toList_ne_nil
  rw [hcs, List.cons_append, List.head?_cons, Option.mem_def, Option.some.injEq] at hd
  exact hall d (o.chars d (hcs ▸ hd ▸ List.mem_cons_self))

/-- Such a name has no white space at its ends, be there a `<` behind it. -/
theorem trim_append {s : String} (hs : s = "" ∨ s = "<") :
    Text.trim (o.text ++ s) = o.text ++ s := by
  refine Text.trim_eq_self fun d hd => isBlank_of_isOperatorPart ?_
  rw [String.toList_append] at hd
  rcases List.mem_append.mp hd with hd | hd
  · rcases o.isOperatorChar_or d hd with hop | rfl
    · simp [isOperatorPart, hop]
    · rfl
  · rcases hs with rfl | rfl
    · cases hd
    · rw [List.mem_singleton.mp hd]
      rfl

end OperatorText

/-! ## Functions -/

/-- A generic function, as it is written: `func +<T>(a: T) {}`. -/
structure GenericOperator where
  name : OperatorText
  parameter : Identifier
  label : Identifier

namespace GenericOperator

variable (f : GenericOperator)

def text : String :=
  "func " ++ f.name.text ++ "<" ++ f.parameter.text ++ ">(" ++ f.label.text ++ ": " ++
    f.parameter.text ++ ") \x7b\x7d"

/-- What stands behind the first `<`. -/
def tail : List Char :=
  f.parameter.text.toList ++ '>' :: '(' :: (f.label.text.toList ++ ':' :: ' ' ::
    (f.parameter.text.toList ++ ") \x7b\x7d".toList))

/-- The parameter list and the body. -/
def restTrees : List Tree :=
  [Grammar.namedSignature f.label f.parameter, blankTree,
    .node .codeBlock [.leaf ⟨.lBrace, "\x7b"⟩, .leaf ⟨.rBrace, "\x7d"⟩]]

theorem tokensOf_tail : tokensOf f.tail =
    ⟨.ident, f.parameter.text⟩ :: ⟨.gt, ">"⟩ :: forestLeaves f.restTrees := by
  have hbody : tokensOf " \x7b\x7d".toList =
      [⟨.whitespace, " "⟩, ⟨.lBrace, "\x7b"⟩, ⟨.rBrace, "\x7d"⟩] :=
    (@tokensOf_blank "\x7b\x7d".toList fun _ hd =>
      Option.some.inj hd ▸ (by decide : isBlank '\x7b' = false)).trans (congrArg _ tokensOf_braces)
  have hend : ") \x7b\x7d".toList = ')' :: " \x7b\x7d".toList := by decide
  have hname : ∀ c ∈ ">:)".toList, isNameChar c = false := forall_mem_of_all (by decide)
  have hident : ∀ (n : Identifier) (c : Char) (rest : List Char), c ∈ ">:)".toList →
      tokensOf (n.text.toList ++ c :: rest) = ⟨.ident, n.text⟩ :: tokensOf (c :: rest) :=
    fun n c rest hc => TypeShape.tokensOf_ident n.lexed fun d hd =>
      Option.some.inj hd ▸ hname c hc
  rw [tail, hident _ _ _ (by decide), TypeShape.tokensOf_gt (.cons (by decide) (by decide)),
    TypeShape.tokensOf_lParen, hident _ _ _ (by decide), TypeShape.tokensOf_colon,
    tokensOf_blank (Begins.of_lex f.parameter.lexed rfl).append.isBlank, hend,
    hident _ _ _ (by decide), TypeShape.tokensOf_rParen, hbody]
  rfl

theorem lex_text : lex f.text = ⟨.kwFunc, "func"⟩ :: ⟨.whitespace, " "⟩ ::
    tokensOf (f.name.text.toList ++ '<' :: f.tail) := by
  have hfunc : lex "func" = [⟨.kwFunc, "func"⟩] := Lexer.lex_word rfl rfl nofun
  have hword : Written "func" [.leaf ⟨.kwFunc, "func"⟩] := .of_token hfunc (by decide)
  have htext : f.text.toList = "func".toList ++ ' ' :: (f.name.text.toList ++ '<' :: f.tail) := by
    show ("func " ++ f.name.text ++ "<" ++ f.parameter.text ++ ">(" ++ f.label.text ++ ": " ++
      f.parameter.text ++ ") \x7b\x7d").toList = _
    simp [tail]
  show tokensOf f.text.toList = _
  rw [htext, hword _ (.of_mem (by decide) _), tokensOf_blank (f.name.isBlank _)]
  rfl

theorem isOperatorChar_tail : ∀ d ∈ f.tail.head?, isOperatorChar d = false :=
  (Begins.of_lex f.parameter.lexed rfl).append.isOperatorChar

/-- The name without the function, and the `<` behind it. -/
theorem operators_lex : ∀ t ∈ lex f.name.text, t.kind.isOperatorLike = true ∧ t.kind ≠ .lt :=
  fun t ht => ⟨f.name.lexed t ht, ne_lt_of_mem_lex ht f.name.isOperatorChar_or f.name.lt_notMem⟩

/-! ### Behind a slash -/

/-- What the parts of the function are, if the `<` is a token of its own. -/
def parts : List Tree :=
  .leaf ⟨.kwFunc, "func"⟩ :: blankTree :: .node .declaredName ((lex f.name.text).map .leaf) ::
    Grammar.genericsTree f.parameter :: f.restTrees

/-- Where the function stands that is the whole text. -/
def cursor : Cursor := ⟨.node .functionDecl f.parts, 0, [⟨.sourceFile, 0, [], []⟩]⟩

theorem snug_parts : Snug (.node .functionDecl f.parts) := by
  have hname := Grammar.snug_declaredName f.name.lex_ne_nil f.name.lexed
  have hblock : Snug (.node .codeBlock [.leaf ⟨.lBrace, "\x7b"⟩, .leaf ⟨.rBrace, "\x7d"⟩]) :=
    .node (.leaf rfl) (.cons (.leaf rfl) .nil)
  have hrest : SnugForest f.restTrees :=
    .cons (Grammar.snug_namedSignature f.label f.parameter) (.trivia rfl (.cons hblock .nil))
  exact .node (.leaf rfl)
    (.trivia rfl (.cons hname (.cons (Grammar.snug_genericsTree f.parameter) hrest)))

/-- The function is parsed without problems. -/
theorem parse_text (h : EndsInSlash f.name.text.toList) :
    parse f.text = ⟨.node .sourceFile [.node .functionDecl f.parts], []⟩ := by
  have htokens : tokensOf (f.name.text.toList ++ '<' :: f.tail) =
      lex f.name.text ++ ⟨.lt, "<"⟩ :: tokensOf f.tail :=
    tokensOf_lt_of_slash f.name.toList_ne_nil f.name.isOperatorChar_or f.name.lexed h
      f.isOperatorChar_tail
  have hname : Parser.Recovers Grammar.functionName ()
      [.node .declaredName ((lex f.name.text).map .leaf)]
      (forestLeaves (Grammar.genericsTree f.parameter :: f.restTrees) ++ []) :=
    Grammar.recovers_functionName f.name.lex_ne_nil f.operators_lex fun _ => Token.kindAt_zero rfl
  have hrest : Parser.Recovers Grammar.functionRest ()
      (Grammar.genericsTree f.parameter :: f.restTrees) [] :=
    Grammar.recovers_functionRest_named f.parameter f.label
  have hfunction := Grammar.recovers_functionDecl hname (.of_recovers hrest)
  refine Grammar.parse_of_function hfunction.recovers f.snug_parts rfl ?_
  rw [f.lex_text, htokens, f.tokensOf_tail]
  simp [parts, forestLeaves, leaves, Grammar.genericsTree, blankTree, forestLeaves_map_leaf,
    Identifier.tree]

/-- The name of the function, in whichever tree it stands. -/
theorem nameOf_eq {c name : Cursor} {ts : List Token} (hname : c.child? .declaredName = some name)
    (htree : name.tree = .node .declaredName (ts.map .leaf)) :
    Header.nameOf c = Text.trim (String.join (ts.map Token.text)) := by
  rw [Header.nameOf, hname]
  dsimp only
  rw [Cursor.description, Cursor.text, htree, Tree.text, leaves, forestLeaves_map_leaf]

theorem generics_cursor (m : ViewMode) : Generics.ofCursor m f.cursor =
    ⟨[⟨Text.trim f.parameter.text, none, false⟩], []⟩ := by
  have hread : Generics.ofCursor m f.cursor =
      ⟨[⟨Text.trim (String.join [f.parameter.text]), none, false⟩], []⟩ := by cases m <;> rfl
  have hjoin : String.join [f.parameter.text] = f.parameter.text := String.empty_append
  rw [hread, hjoin]

/-- The declaration is read as a function with its generic parameter and its body. -/
theorem read_cursor (m : ViewMode) : ∃ header signature, Declaration.read m f.cursor =
    [.mk header f.cursor (.function ⟨[⟨Text.trim f.parameter.text, none, false⟩], []⟩ signature
      true [])] ∧ header.name = f.name.text := by
  have hread : Declaration.read m f.cursor =
      [.mk (Header.ofCursor m f.cursor) f.cursor
        (.function (Generics.ofCursor m f.cursor) (Signature.ofCursor m f.cursor) true [])] := rfl
  rw [hread, f.generics_cursor]
  obtain ⟨name, hname, htree⟩ : ∃ name, f.cursor.child? .declaredName = some name ∧
      name.tree = .node .declaredName ((lex f.name.text).map .leaf) := ⟨_, rfl, rfl⟩
  have htrim := f.name.trim_append (.inl rfl)
  rw [String.append_empty] at htrim
  refine ⟨_, _, rfl, ?_⟩
  exact (nameOf_eq hname htree).trans ((congrArg Text.trim (join_lex f.name.text)).trans htrim)

theorem outline_of_slash (m : ViewMode) (h : EndsInSlash f.name.text.toList) :
    (parse f.text).diagnostics = [] ∧ ∃ header place signature, Outline.ofSource m f.text =
        [.mk header place (.function ⟨[⟨Text.trim f.parameter.text, none, false⟩], []⟩ signature
          true [])] ∧ header.name = f.name.text := by
  have hnodes : (Cursor.ofTree (parse f.text).tree).gather (visitDeclarations m) = [f.cursor] := by
    rw [f.parse_text h]
    cases m <;> rfl
  obtain ⟨header, signature, hread, hname⟩ := f.read_cursor m
  refine ⟨by rw [f.parse_text h], header, f.cursor, signature, ?_, hname⟩
  rw [Outline.ofSource, Outline.ofCursor, hnodes, ← hread]
  simp [Outline.ofNodes, DeclarationKind.all, cursor, nodeKind?, DeclarationKind.ofNode?]

/-! ### Behind another operator -/

/-- The tokens of the name, if the `<` is its last character. -/
theorem lex_longer (h : ¬ EndsInSlash f.name.text.toList) :
    lex f.text = ⟨.kwFunc, "func"⟩ :: ⟨.whitespace, " "⟩ ::
        (lex (f.name.text ++ "<") ++ tokensOf f.tail) ∧
      ∀ t ∈ lex (f.name.text ++ "<"), t.kind.isOperatorLike = true ∧ t.kind ≠ .lt := by
  obtain ⟨htokens, hmem⟩ := tokensOf_lt_of_run f.name.toList_ne_nil f.name.isOperatorChar_or
    f.name.lexed h f.isOperatorChar_tail
  have hlex : lex (f.name.text ++ "<") = tokensOf (f.name.text.toList ++ ['<']) := by
    show tokensOf (f.name.text ++ "<").toList = _
    rw [String.toList_append]
    rfl
  rw [hlex]
  refine ⟨by rw [f.lex_text, htokens], fun t ht => ?_⟩
  rcases hmem t ht with ht | hk
  · exact f.operators_lex t ht
  · rw [hk]
    decide

/-- Where a function stands that has only a name and the signature `us`, at the beginning of a
    text. -/
def bareCursor (ts : List Token) (us items : List Tree) : Cursor :=
  ⟨.node .functionDecl (Grammar.operatorFront ts ++ [.node .functionSignature us]), 0,
    [⟨.sourceFile, 0, [], items⟩]⟩

theorem read_bareCursor (m : ViewMode) (ts : List Token) (us items : List Tree) :
    ∃ header signature, Declaration.read m (bareCursor ts us items) =
        [.mk header (bareCursor ts us items) (.function ⟨[], []⟩ signature false [])] ∧
      header.name = Text.trim (String.join (ts.map Token.text)) := by
  obtain ⟨name, hname, htree⟩ : ∃ name, (bareCursor ts us items).child? .declaredName = some name ∧
      name.tree = .node .declaredName (ts.map .leaf) := ⟨_, rfl, rfl⟩
  have hnamed := nameOf_eq hname htree
  exact ⟨_, _, rfl, hnamed⟩

/-- The name takes the `<`, and no parameter list is found behind it. -/
theorem outline_of_run (m : ViewMode) (h : ¬ EndsInSlash f.name.text.toList) :
    (parse f.text).diagnostics.head?.map Diagnostic.problem = some .noParameterList ∧
      ∃ header place signature,
        .mk header place (.function ⟨[], []⟩ signature false []) ∈ Outline.ofSource m f.text ∧
        header.name = f.name.text ++ "<" := by
  obtain ⟨hlex, hoperators⟩ := f.lex_longer h
  have hne : lex (f.name.text ++ "<") ≠ [] := by
    intro hnil
    have hjoin := join_lex (f.name.text ++ "<")
    rw [hnil] at hjoin
    exact absurd (congrArg String.toList hjoin) (by simp [String.join])
  rw [f.tokensOf_tail] at hlex
  obtain ⟨us, items, htree, hproblem⟩ :=
    Grammar.exists_parse_missing hne hoperators (Token.kindAt_zero rfl) hlex
  obtain ⟨header, signature, hread, hname⟩ :=
    read_bareCursor m (lex (f.name.text ++ "<")) us items
  refine ⟨hproblem, header, bareCursor (lex (f.name.text ++ "<")) us items, signature, ?_, ?_⟩
  · rw [Outline.ofSource, Outline.ofCursor, htree]
    refine (Outline.sublist_ofNodes ?_ ?_).subset (hread ▸ List.mem_cons_self)
    · cases m <;> exact List.mem_cons_self
    · rfl
  · rw [hname, join_lex, f.name.trim_append (.inr rfl)]

/-- A generic function whose name is an operator: if the operator ends with a slash, or with a slash
    and a `=`, it is read with its name and its generic parameter. For all other operators the `<`
    becomes a part of the name, there are no generic parameters, and a parameter list is missed. -/
theorem generic_iff_endsInSlash (m : ViewMode) :
    (EndsInSlash f.name.text.toList →
      (parse f.text).diagnostics = [] ∧ ∃ header place signature, Outline.ofSource m f.text =
          [.mk header place (.function ⟨[⟨Text.trim f.parameter.text, none, false⟩], []⟩ signature
            true [])] ∧ header.name = f.name.text) ∧
    (¬ EndsInSlash f.name.text.toList →
      (parse f.text).diagnostics.head?.map Diagnostic.problem = some .noParameterList ∧
      ∃ header place signature,
        .mk header place (.function ⟨[], []⟩ signature false []) ∈ Outline.ofSource m f.text ∧
        header.name = f.name.text ++ "<") :=
  ⟨f.outline_of_slash m, f.outline_of_run m⟩

/-- A slash and a plus. -/
theorem generic_iff_endsInSlash_signs :
    ∃ slash plus : GenericOperator,
      slash.text = "func /<T>(a: T) \x7b\x7d" ∧ EndsInSlash slash.name.text.toList ∧
      ((parse slash.text).diagnostics = [] ∧ ∃ header place signature,
        Outline.ofSource .fixedUp slash.text = [.mk header place
          (.function ⟨[⟨Text.trim slash.parameter.text, none, false⟩], []⟩ signature true [])] ∧
        header.name = slash.name.text) ∧
      plus.text = "func +<T>(a: T) \x7b\x7d" ∧ ¬ EndsInSlash plus.name.text.toList ∧
      ((parse plus.text).diagnostics.head?.map Diagnostic.problem = some .noParameterList ∧
        ∃ header place signature,
          .mk header place (.function ⟨[], []⟩ signature false []) ∈
            Outline.ofSource .fixedUp plus.text ∧
          header.name = plus.name.text ++ "<") := by
  have hslash : ∀ t ∈ lex "/", t.kind.isOperatorLike = true := by decide +kernel
  have hplus : ∀ t ∈ lex "+", t.kind.isOperatorLike = true := by decide +kernel
  let t : Identifier := ⟨"T", Lexer.lex_word rfl rfl nofun⟩
  let a : Identifier := ⟨"a", Lexer.lex_word rfl rfl nofun⟩
  have hslashText : "func " ++ "/" ++ "<" ++ "T" ++ ">(" ++ "a" ++ ": " ++ "T" ++ ") \x7b\x7d" =
      "func /<T>(a: T) \x7b\x7d" := by decide +kernel
  have hplusText : "func " ++ "+" ++ "<" ++ "T" ++ ">(" ++ "a" ++ ": " ++ "T" ++ ") \x7b\x7d" =
      "func +<T>(a: T) \x7b\x7d" := by decide +kernel
  have hdivide : EndsInSlash "/".toList := by decide +kernel
  have hadd : ¬ EndsInSlash "+".toList := by decide +kernel
  refine ⟨⟨⟨"/", by decide, forall_mem_of_all (by decide), hslash⟩, t, a⟩,
    ⟨⟨"+", by decide, forall_mem_of_all (by decide), hplus⟩, t, a⟩,
    hslashText, hdivide, ?_, hplusText, hadd, ?_⟩
  · exact (generic_iff_endsInSlash _ .fixedUp).1 hdivide
  · exact (generic_iff_endsInSlash _ .fixedUp).2 hadd

/-- The plus is an operator as the slash is, but a generic function is not read back by that
    name. -/
theorem not_generic_plus :
    "+" ≠ "" ∧ (∀ c ∈ "+".toList, c ∈ "/=-+*%>&|^~!?".toList) ∧
    (∀ t ∈ lex "+", t.kind.isOperatorLike = true) ∧ lex "T" = [⟨.ident, "T"⟩] ∧
    (parse "func +<T>(a: T) \x7b\x7d").ok = false ∧
    ((Outline.ofSource .sourceAccurate "func +<T>(a: T) \x7b\x7d").map fun d =>
      d.header.name) = ["+<"] := by
  refine ⟨by decide, forall_mem_of_all (by decide), by decide +kernel,
    lex_word rfl rfl nofun, by decide +kernel, ?_⟩
  decide +kernel

end GenericOperator

end SwiftOutline
