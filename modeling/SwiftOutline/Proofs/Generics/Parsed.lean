/-
  SwiftOutline.Proofs.Generics.Parsed

  Names that are operators, generic parameters behind them, and what the parser
  makes of a function that has no parameter list.
-/
import SwiftOutline.Proofs.Parameters.Parsed
import SwiftOutline.Proofs.Token.Operators

namespace SwiftOutline

open SwiftOutline.Tree SwiftOutline.Parser
open Lexeme (ahead behind)
open TypeShape (blankTree)

theorem TokenKind.isTrivia_of_extendsOperator {k : TokenKind} (h : k.extendsOperator = true) :
    k.isTrivia = false := by
  cases k <;> first | rfl | exact absurd h (by decide)

theorem TokenKind.extendsOperator_of_isOperatorLike {k : TokenKind} (h : k.isOperatorLike = true) :
    k.extendsOperator = true := by
  rw [extendsOperator, h, Bool.true_or]

theorem TokenKind.ne_eof_of_extendsOperator {k : TokenKind} (h : k.extendsOperator = true) :
    k ≠ .eof := by
  rintro rfl
  exact absurd h (by decide)

namespace Tree

variable {ts : List Token}

theorem snug_map_leaf (h : ∀ t ∈ ts, t.isTrivia = false) : SnugForest (ts.map .leaf) := by
  induction ts with
  | nil => exact .nil
  | cons t ts ih =>
    obtain ⟨ht, hts⟩ := List.forall_mem_cons.mp h
    exact .cons (.leaf ht) (ih hts)

theorem withoutTrivia_map_leaf (h : ∀ t ∈ ts, t.isTrivia = false) :
    forestWithoutTrivia (ts.map .leaf) = ts.map .leaf := by
  induction ts with
  | nil => rfl
  | cons t ts ih =>
    obtain ⟨ht, hts⟩ := List.forall_mem_cons.mp h
    rw [List.map_cons, forestWithoutTrivia, isTriviaLeaf_leaf, ht, if_neg Bool.false_ne_true,
      ih hts, withoutTrivia]

/-! ### A last node, which may be empty -/

variable {front us : List Tree} {k : NodeKind} {rest : List Token}

theorem behind_append_node (hfront : SnugForest front) (hne : front ≠ []) (hus : SnugForest us) :
    behind .none (front ++ [Tree.node k us]) = .none := by
  have hleaves : forestLeaves [.node k us] = forestLeaves us := by
    rw [forestLeaves, leaves, forestLeaves, List.append_nil]
  rw [Lexeme.behind_append, Lexeme.behind_of_snug hfront hne, behind, hleaves]
  cases us with
  | nil => rfl
  | cons u us => exact Lexeme.behind_of_snug hus (List.cons_ne_nil u us)

/-- With a token next that is no trivia, snug trees and the node are woven from their tokens. -/
theorem weaveForest_append_node {u : Token} {more : List Token} (hfront : SnugForest front)
    (hus : SnugForest us) (hmore : forestLeaves us ++ rest = u :: more) (hu : u.isTrivia = false) :
    weaveForest (forestWithoutTrivia (front ++ [Tree.node k us]))
      (forestLeaves (front ++ [Tree.node k us]) ++ rest) = (front ++ [Tree.node k us], rest) := by
  have hleaves : forestLeaves [.node k us] = forestLeaves us := by
    rw [forestLeaves, leaves, forestLeaves, List.append_nil]
  have hlast : forestWithoutTrivia [.node k us] = [.node k (forestWithoutTrivia us)] := rfl
  rw [forestWithoutTrivia_append, forestLeaves_append, List.append_assoc, weaveForest_append,
    hfront.weaveForest_eq, hleaves, hlast, weaveForest_cons hmore hu, weave, hus.weaveForest_eq]
  rfl

end Tree

namespace Grammar

variable {stops : TokenKind → Bool} {t : Token} {ts rest : List Token} {n : Identifier}

/-! ## Names that are operators -/

/-- An operator goes on up to a token that does not extend it or that stops it. -/
theorem readsAll_operatorPart
    (hts : ∀ t ∈ ts, t.kind.extendsOperator = true ∧ stops t.kind = false)
    (hrest : (Token.kindAt rest 0).extendsOperator = true → stops (Token.kindAt rest 0) = true) :
    ReadsAll (operatorPart stops) ⟨ahead .none (ts ++ rest), []⟩
      ⟨ahead .none rest, ts.map .leaf⟩ := by
  induction ts with
  | nil =>
    refine .stop (.view fun v hv => ?_)
    have hkind : v.kind = Token.kindAt rest 0 := View.kindAt_of_ahead hv 0
    rw [hkind, if_neg]
    · exact .pure
    · simp only [Bool.and_eq_true, Bool.not_eq_true', not_and, Bool.not_eq_false]
      exact fun hextends => hrest hextends.2
  | cons t ts ih =>
    obtain ⟨⟨hextends, hgo⟩, hts⟩ := List.forall_mem_cons.mp hts
    have htrivia := TokenKind.isTrivia_of_extendsOperator hextends
    have hahead : ahead .none (t :: ts ++ rest) =
        ⟨t.kind, t.text, .none⟩ :: ahead .none (ts ++ rest) := Lexeme.ahead_cons htrivia
    rw [hahead]
    refine .again (d := ⟨ahead .none (ts ++ rest), [.leaf t]⟩) ⟨.view fun v hv => ?_, by simp⟩
      ((ih hts).onto [.leaf t])
    have hkind : v.kind = t.kind := by rw [View.kind_eq, hv]; rfl
    have hgap : v.gap = .none := by rw [View.gap, View.gapAt, hv]; rfl
    have hpart : (!v.gap.trivia && (v.kind.isOperatorLike || v.kind == .dot) && !stops v.kind) =
        true := by
      rw [hkind, hgap, hgo]
      rw [TokenKind.extendsOperator] at hextends
      rw [hextends]
      rfl
    rw [if_pos hpart]
    exact (Reads.bump (TokenKind.ne_eof_of_extendsOperator hextends)).bind .pure

theorem recovers_operatorName (ht : t.kind.extendsOperator = true)
    (hts : ∀ t ∈ ts, t.kind.extendsOperator = true ∧ stops t.kind = false)
    (hrest : (Token.kindAt rest 0).extendsOperator = true → stops (Token.kindAt rest 0) = true) :
    Recovers (operatorName stops) () [.node .declaredName ((t :: ts).map .leaf)] rest := by
  have htrivia := TokenKind.isTrivia_of_extendsOperator ht
  have hall : ∀ u ∈ t :: ts, u.isTrivia = false := List.forall_mem_cons.mpr
    ⟨htrivia, fun u hu => TokenKind.isTrivia_of_extendsOperator (hts u hu).1⟩
  refine .node fun gap => ?_
  have hbehind : behind gap ((t :: ts).map .leaf) = .none :=
    Lexeme.behind_of_snug (snug_map_leaf hall) (by simp)
  have hahead : ahead gap (t :: ts ++ rest) = ⟨t.kind, t.text, gap⟩ :: ahead .none (ts ++ rest) :=
    Lexeme.ahead_cons htrivia
  rw [hbehind, forestLeaves_map_leaf, hahead, withoutTrivia_map_leaf hall]
  refine (Reads.bump (TokenKind.ne_eof_of_extendsOperator ht)).bind ?_
  exact ((readsAll_operatorPart hts hrest).onto [.leaf t]).repeating

theorem snug_declaredName (hne : ts ≠ []) (hts : ∀ t ∈ ts, t.kind.isOperatorLike = true) :
    Snug (.node .declaredName (ts.map .leaf)) := by
  have htrivia : ∀ t ∈ ts, t.isTrivia = false := fun t ht =>
    TokenKind.isTrivia_of_extendsOperator (TokenKind.extendsOperator_of_isOperatorLike (hts t ht))
  obtain ⟨t, ts, rfl⟩ := List.exists_cons_of_ne_nil hne
  exact (snug_map_leaf htrivia).node (htrivia t List.mem_cons_self)

/-- A `<` ends the name of a function. -/
theorem recovers_functionName (hne : ts ≠ [])
    (hts : ∀ t ∈ ts, t.kind.isOperatorLike = true ∧ t.kind ≠ .lt)
    (hrest : (Token.kindAt rest 0).extendsOperator = true → Token.kindAt rest 0 = .lt) :
    Recovers functionName () [.node .declaredName (ts.map .leaf)] rest := by
  obtain ⟨t, ts, rfl⟩ := List.exists_cons_of_ne_nil hne
  obtain ⟨⟨ht, -⟩, hts⟩ := List.forall_mem_cons.mp hts
  have hextends := TokenKind.extendsOperator_of_isOperatorLike ht
  have hfirst : Token.kindAt (forestLeaves [.node .declaredName ((t :: ts).map .leaf)] ++ rest) 0 =
      t.kind := by
    rw [forestLeaves, leaves, forestLeaves, List.append_nil, forestLeaves_map_leaf]
    exact Token.kindAt_zero (TokenKind.isTrivia_of_extendsOperator hextends)
  refine .kind ?_
  rw [hfirst, if_neg, if_pos (by rw [ht, Bool.true_or])]
  · refine recovers_operatorName hextends (fun t ht => ?_) fun h => beq_iff_eq.mpr (hrest h)
    obtain ⟨hlike, hlt⟩ := hts t ht
    exact ⟨TokenKind.extendsOperator_of_isOperatorLike hlike, beq_false_of_ne hlt⟩
  · intro hident
    rw [eq_of_beq hident] at ht
    cases ht

/-! ## Generic parameters -/

/-- Generic parameters that are a single name. -/
def genericsTree (n : Identifier) : Tree :=
  .node .genericParameterClause [.leaf ⟨.lt, "<"⟩,
    .node .genericParameter [.node .declaredName [n.tree]], .leaf ⟨.gt, ">"⟩]

theorem recovers_genericParameter (n : Identifier) (hrest : Token.kindAt rest 0 ∈ [.comma, .gt]) :
    Recovers genericParameter () [.node .genericParameter [.node .declaredName [n.tree]]] rest := by
  have hne : ∀ k ∉ [TokenKind.comma, .gt], Token.kindAt rest 0 ≠ k := by
    rintro k hk rfl
    exact hk hrest
  have hattributes : Recovers attributes () []
      (forestLeaves [.node .declaredName [n.tree]] ++ rest) :=
    recovers_attributes_none (by show TokenKind.ident ≠ .atSign; decide)
  refine .node (.skip (a := ()) hattributes (.view fun gap v hv => ?_))
  -- `each` is the name itself, since no other one follows it
  have hnext : v.kindAt 1 = Token.kindAt rest 0 := View.kindAt_of_ahead hv 1
  have heach : (v.spells "each" && v.kindAt 1 == .ident) = false := by
    rw [hnext, Bool.and_eq_false_iff]
    exact .inr (beq_false_of_ne (hne .ident (by decide)))
  rw [heach, if_neg Bool.false_ne_true]
  refine (recovers_name n).last (.last (.eat_not (hne .colon (by decide))) ?_)
  exact .pure

theorem isElement_genericParameter (n : Identifier) :
    IsElement .gt (do genericParameter; pure true)
      (.node .genericParameter [.node .declaredName [n.tree]]) := by
  refine ⟨.node (.node (.leaf rfl) .nil) .nil, fun more hmem => ?_, fun more hmore => ?_⟩
  · have hident : TokenKind.ident ∈ [TokenKind.gt, .eof] := hmem
    exact absurd hident (by decide)
  · exact (recovers_genericParameter n hmore).last .pure

theorem recovers_genericsTree (n : Identifier) :
    Recovers genericParameters () [genericsTree n] rest := by
  have hlist : Recovers (separatedUntil .gt do genericParameter; pure true) ()
      [.node .genericParameter [.node .declaredName [n.tree]]] (⟨.gt, ">"⟩ :: rest) := by
    show Recovers _ () (commaTrees [.node .genericParameter [.node .declaredName [n.tree]]]) _
    refine .separatedUntil (fun t ht => ?_) (by decide) (Token.kindAt_zero rfl)
    rw [List.mem_singleton.mp ht]
    exact isElement_genericParameter n
  have hwhere : Recovers whereRequirements () [] (⟨.gt, ">"⟩ :: rest) :=
    recovers_whereRequirements_none (by show TokenKind.gt ≠ .kwWhere; decide)
  have hclose : Recovers (require .gt .openGenericParameters) () [.leaf ⟨.gt, ">"⟩] rest :=
    .require rfl (by decide)
  have hopen : ∀ more, Recovers bump () [.leaf ⟨.lt, "<"⟩] more := fun more =>
    .bump rfl (by decide)
  refine .present (Token.kindAt_zero rfl) (.node ?_)
  refine .cons (hopen _) (.cons hlist ?_)
  exact .skip hwhere hclose

theorem snug_genericsTree (n : Identifier) : (genericsTree n).Snug :=
  .node (.leaf rfl) (.cons (.node (.node (.leaf rfl) .nil) .nil) (.cons (.leaf rfl) .nil))

/-! ## Names as types -/

/-- In front of a comma or a closing parenthesis every name is a type, be it a word that could stand
    in front of a type. -/
theorem recovers_namedType (n : Identifier) (hrest : Token.kindAt rest 0 ∈ [.comma, .rParen]) :
    Recovers (follow' .type) () [.node .simpleType [n.tree]] rest := by
  refine .follow' (b := true) fun gap => ?_
  have hsnug : SnugForest [.node .simpleType [n.tree]] := .cons (.node (.leaf rfl) .nil) .nil
  have hbehind : behind gap [.node .simpleType [n.tree]] = .none :=
    Lexeme.behind_of_snug hsnug (by simp)
  have hahead : ahead gap (forestLeaves [.node .simpleType [n.tree]] ++ rest) =
      ⟨.ident, n.text, gap⟩ :: ahead .none rest := Lexeme.ahead_cons rfl
  rw [hbehind, hahead]
  rw [← Lexeme.headKind_ahead .none] at hrest
  generalize ahead .none rest = ls at hrest
  have hne : ∀ k ∉ [TokenKind.comma, .rParen], Lookahead.headKind ls ≠ k := by
    rintro k hk rfl
    exact hk hrest
  have hends : beginsType (Lookahead.headKind ls) = false := by
    revert hrest
    cases Lookahead.headKind ls <;> decide
  have hmember : atMember ls = false := by
    rw [atMember, beq_false_of_ne (hne .dot (by decide))]
    simp
  have hident : TokenKind.ident ≠ .eof := by decide
  have hsimple : Reads simpleType () ⟨⟨.ident, n.text, gap⟩ :: ls, []⟩
      ⟨ls, [.node .simpleType [n.tree]]⟩ :=
    reads_simpleType hident (reads_joinedGenericArguments_none
      (seesJoined_of_headKind (hne .lt (by decide)))) .refl hmember
  have hprimary : Reads primaryType true ⟨⟨.ident, n.text, gap⟩ :: ls, []⟩
      ⟨ls, [.node .simpleType [n.tree]]⟩ := .kind (hsimple.bind .pure)
  have hpostfix : Reads postfixType true ⟨⟨.ident, n.text, gap⟩ :: ls, []⟩
      ⟨ls, [.node .simpleType [n.tree]]⟩ := by
    refine reads_postfixType hprimary (fun h => ?_) .refl (reads_typeSuffix_none
      (hne .question (by decide)) (hne .exclamation (by decide)) (hne .dot (by decide)))
    have hparen : TokenKind.ident = .lParen := h
    cases hparen
  show Reads typeExpr true _ _
  refine .view fun v hv => ?_
  have hkind : v.kind = .ident := by rw [View.kind_eq, hv]; rfl
  have hnext : v.kindAt 1 = Lookahead.headKind ls := by
    rw [View.kindAt_eq, hv]
    cases ls <;> rfl
  have hspecifier : atTypeSpecifier v = false := by
    rw [atTypeSpecifier, hkind, hnext]
    simp [hends, hne .atSign (by decide)]
  rw [hspecifier, hkind, hnext, if_neg (by decide), if_neg (by simp [hends])]
  exact reads_compositionType_single hpostfix (hne .amp (by decide))

/-- A parameter with a name as its type. -/
def namedParameter (a n : Identifier) : Tree :=
  .node .parameter [a.tree, .leaf ⟨.colon, ":"⟩, blankTree, .node .simpleType [n.tree]]

theorem snug_namedParameter (a n : Identifier) : (namedParameter a n).Snug :=
  .node (.leaf rfl) (.cons (.leaf rfl) (.trivia rfl (.cons (.node (.leaf rfl) .nil) .nil)))

theorem recovers_namedParameter (a n : Identifier)
    (hrest : Token.kindAt rest 0 ∈ [.comma, .rParen]) :
    Recovers parameter () [namedParameter a n] rest := by
  have hne : ∀ k ∉ [TokenKind.comma, .rParen], Token.kindAt rest 0 ≠ k := by
    rintro k hk rfl
    exact hk hrest
  have hattributes : ∀ more, Recovers attributes () [] (⟨.ident, a.text⟩ :: more) := fun more =>
    recovers_attributes_none (by rw [Token.kindAt_zero rfl]; decide)
  have hnames : ∀ more, Recovers parameterNames () [a.tree] (⟨.colon, ":"⟩ :: more) := by
    refine fun more => .view fun gap v hv => ?_
    have hkind : v.kind = .ident := View.kindAt_of_ahead hv 0
    have hnext : v.kindAt 1 = .colon := View.kindAt_of_ahead hv 1
    dsimp only
    rw [if_pos (by rw [hkind]; rfl), if_pos (by rw [hnext]; rfl)]
    exact .bump rfl (by decide)
  have hdots : Recovers (eat .ellipsis) false [] rest := .eat_not (hne .ellipsis (by decide))
  have hvalue : Recovers initialValue () [] rest := .absent (hne .eq (by decide))
  refine .node (.skip (a := ()) (hattributes _) (.cons (hnames _) ?_))
  refine .cons (.eat rfl (by decide)) ?_
  rw [if_pos rfl]
  exact .blank (.last (recovers_namedType n hrest) (.skip hdots hvalue))

theorem isElement_namedParameter (a n : Identifier) :
    IsElement .rParen parameterElement (namedParameter a n) :=
  isElement_parameter (snug_namedParameter a n) (fun _ => rfl)
    fun _ => recovers_namedParameter a n

/-! ## Signatures -/

/-- A signature with one such parameter. -/
def namedSignature (a n : Identifier) : Tree :=
  .node .functionSignature [.node .parameterClause
    [.leaf ⟨.lParen, "("⟩, namedParameter a n, .leaf ⟨.rParen, ")"⟩]]

theorem snug_namedSignature (a n : Identifier) : (namedSignature a n).Snug :=
  .node (.node (.leaf rfl) (.cons (snug_namedParameter a n) (.cons (.leaf rfl) .nil))) .nil

theorem recovers_namedSignature (a n : Identifier) (hrest : Token.kindAt rest 0 = .lBrace) :
    Recovers functionSignature () [namedSignature a n] rest := by
  have hne : ∀ k ≠ TokenKind.lBrace, Token.kindAt rest 0 ≠ k := by
    intro k hk h
    exact hk (h.symm.trans hrest)
  have hclause : Recovers parameterClause () [.node .parameterClause (.leaf ⟨.lParen, "("⟩ ::
      (commaTrees [namedParameter a n] ++ [Tree.leaf ⟨.rParen, ")"⟩]))] rest := by
    refine recovers_parameterClause fun t ht => ?_
    rw [List.mem_singleton.mp ht]
    exact isElement_namedParameter a n
  have heffects : Recovers effects () [] rest := recovers_effects_none (by rw [hrest]; decide)
  have hopen : ∀ ts, Token.kindAt (forestLeaves [.node .parameterClause
      (.leaf ⟨.lParen, "("⟩ :: ts)] ++ rest) 0 = .lParen := fun _ => rfl
  refine .node (.sees ?_)
  rw [hopen, if_pos (by decide)]
  exact hclause.last (.skip heffects (.absent (hne .arrow (by decide))))

theorem recovers_functionRest_named (n a : Identifier) :
    Recovers functionRest () [genericsTree n, namedSignature a n, blankTree,
      .node .codeBlock [.leaf ⟨.lBrace, "\x7b"⟩, .leaf ⟨.rBrace, "\x7d"⟩]] [] := by
  refine .cons (recovers_genericsTree n) (.cons (recovers_namedSignature a n rfl) (.blank ?_))
  exact .skip (a := ()) (recovers_whereRequirements_none (by decide)) recovers_optionalCodeBlock

/-! ## Missing parameter lists -/

/-- Effects in front of which there is no parameter list. -/
theorem recovers_functionSignature_missing {ts : List Tree}
    (hfirst : Token.kindAt (forestLeaves ts ++ rest) 0 ≠ .lParen)
    (heffects : Recovers effects () ts rest) (hrest : Token.kindAt rest 0 ≠ .arrow) :
    RecoversReporting functionSignature ()
      [⟨.noParameterList, (Token.significant (forestLeaves ts ++ rest)).length⟩]
      [.node .functionSignature ts] rest := by
  have hresult : Recovers optionalReturnClause () [] rest := .absent hrest
  refine .node (.sees ?_)
  rw [if_neg (by simpa using hfirst)]
  exact (RecoversReporting.report .noParameterList).bind (.of_recovers (heffects.last hresult))

/-- What follows the name of a function up to a name or `>`, if a name comes first. -/
theorem recovers_functionRest_missing {ts : List Tree}
    (hfirst : Token.kindAt (forestLeaves ts ++ rest) 0 = .ident)
    (heffects : Recovers effects () ts rest) (hrest : Token.kindAt rest 0 ∈ [.ident, .gt]) :
    RecoversReporting functionRest ()
      [⟨.noParameterList, (Token.significant (forestLeaves ts ++ rest)).length⟩]
      [.node .functionSignature ts] rest := by
  have hne : ∀ k ∉ [TokenKind.ident, .gt], Token.kindAt rest 0 ≠ k := by
    rintro k hk rfl
    exact hk hrest
  have hgenerics : Recovers genericParameters () []
      (forestLeaves [.node .functionSignature ts] ++ rest) := by
    refine recovers_genericParameters_none ?_
    rw [forestLeaves, leaves, forestLeaves, List.append_nil, hfirst]
    decide
  have hsignature := recovers_functionSignature_missing (hfirst ▸ (by decide)) heffects
    (hne .arrow (by decide))
  have hwhere : Recovers whereRequirements () [] rest :=
    recovers_whereRequirements_none (hne .kwWhere (by decide))
  have hbody : Recovers optionalCodeBlock () [] rest := .absent (hne .lBrace (by decide))
  refine .skip (a := ()) hgenerics ?_
  exact hsignature.last (hwhere.last hbody)

/-- A name in front of a `>` is no parameter list. It is left to what follows the function, unless
    it is an effect. -/
theorem exists_recovers_functionRest_missing (n : Identifier) (hrest : Token.kindAt rest 0 = .gt) :
    ∃ us back, SnugForest us ∧ ⟨.ident, n.text⟩ :: rest = forestLeaves us ++ back ∧
      RecoversReporting functionRest ()
        [⟨.noParameterList, (Token.significant (⟨.ident, n.text⟩ :: rest)).length⟩]
        [.node .functionSignature us] back := by
  cases heffect : Lookahead.atEffect (ahead .none (⟨.ident, n.text⟩ :: rest)) with
  | false =>
    have hnone : Recovers effects () [] (⟨.ident, n.text⟩ :: rest) := by
      refine fun gap => reads_effects_none ?_
      show Lookahead.atEffect (ahead gap (⟨.ident, n.text⟩ :: rest)) = false
      rw [Lexeme.ahead_cons rfl, Bool.eq_false_iff, ne_eq, Lexeme.atEffect_iff] at heffect ⊢
      exact heffect
    have hfirst : Token.kindAt (⟨.ident, n.text⟩ :: rest) 0 = .ident := Token.kindAt_zero rfl
    refine ⟨[], _, .nil, rfl, @recovers_functionRest_missing _ [] hfirst hnone ?_⟩
    rw [hfirst]
    decide
  | true =>
    rw [Lexeme.ahead_cons rfl, Lexeme.atEffect_iff] at heffect
    have hword : FormsForest .effects [n.tree] :=
      (FormsForest.effectWord fun _ => heffect).imp fun _ _ hd => .lastEffect hd
    have heffects : Recovers effects () [.node .effectSpecifiers [n.tree]] rest :=
      recovers_effects hword (by rw [hrest]; decide)
    refine ⟨[.node .effectSpecifiers [n.tree]], rest, .cons (.node (.leaf rfl) .nil) .nil, rfl,
      recovers_functionRest_missing (Token.kindAt_zero rfl) heffects ?_⟩
    rw [hrest]
    decide

/-- A function that is an operator, up to its signature. -/
def operatorFront (ts : List Token) : List Tree :=
  [.leaf ⟨.kwFunc, "func"⟩, blankTree, .node .declaredName (ts.map .leaf)]

/-- A text that begins with a function that is an operator, with a name in front of `>` where the
    parameters should be. The function has neither generic parameters nor a body. -/
theorem exists_parse_missing {source : String} (hne : ts ≠ [])
    (hts : ∀ t ∈ ts, t.kind.isOperatorLike = true ∧ t.kind ≠ .lt)
    (hrest : Token.kindAt rest 0 = .gt)
    (hsource : lex source = ⟨.kwFunc, "func"⟩ :: ⟨.whitespace, " "⟩ ::
      (ts ++ ⟨.ident, n.text⟩ :: rest)) :
    ∃ us items, (parse source).tree = .node .sourceFile
        (.node .functionDecl (operatorFront ts ++ [Tree.node .functionSignature us]) :: items) ∧
      (parse source).diagnostics.head?.map Diagnostic.problem = some .noParameterList := by
  obtain ⟨us, back, hus, hsplit, hmissing⟩ := exists_recovers_functionRest_missing n hrest
  have hname : Recovers functionName () [.node .declaredName (ts.map .leaf)]
      (forestLeaves [.node .functionSignature us] ++ back) := by
    refine recovers_functionName hne hts fun hextends => ?_
    rw [forestLeaves, leaves, forestLeaves, List.append_nil, ← hsplit, Token.kindAt_zero rfl]
      at hextends
    cases hextends
  have hfunction := recovers_functionDecl hname hmissing
  have hfront : SnugForest (operatorFront ts) :=
    .cons (.leaf rfl) (.trivia rfl (.cons (snug_declaredName hne fun t ht => (hts t ht).1) .nil))
  have hleaves : lex source =
      forestLeaves (operatorFront ts ++ [Tree.node .functionSignature us]) ++ back := by
    rw [hsource, hsplit]
    simp [operatorFront, forestLeaves, leaves, blankTree, forestLeaves_map_leaf]
  have hdeclaration : Lookahead.declaration? .topLevel (ahead .none
      (forestLeaves (operatorFront ts ++ [Tree.node .functionSignature us]) ++ back)) =
        some .functionDecl := declaration?_func rfl
  obtain ⟨items, problems, htree, hproblems⟩ := exists_parse_of_declaration hleaves rfl rfl
    (behind_append_node hfront (List.cons_ne_nil _ _) hus) hdeclaration hfunction
    (congrArg Prod.fst (weaveForest_append_node hfront hus hsplit.symm rfl))
  refine ⟨us, items, htree, ?_⟩
  rw [← List.head?_map, hproblems]
  rfl

end Grammar

end SwiftOutline
