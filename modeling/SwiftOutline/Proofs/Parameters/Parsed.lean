/-
  SwiftOutline.Proofs.Parameters.Parsed

  A function that is written is recovered by the parser: parameter by parameter,
  then its effects, its result and its body.
-/
import SwiftOutline.Proofs.Parameters.Spelling
import SwiftOutline.Proofs.Parser.Reporting

namespace SwiftOutline

open SwiftOutline.Tree SwiftOutline.Parser
open Lexeme (ahead behind)
open TypeShape (blankTree wordTree)

namespace Grammar

variable {rest : List Token} {t : Tree} {ts : List Tree}

/-! ## Parts that are missing -/

theorem recovers_attributes_none (h : Token.kindAt rest 0 ≠ .atSign) :
    Recovers attributes () [] rest := .absent h

theorem recovers_genericParameters_none (h : Token.kindAt rest 0 ≠ .lt) :
    Recovers genericParameters () [] rest := .absent h

theorem recovers_whereRequirements_none (h : Token.kindAt rest 0 ≠ .kwWhere) :
    Recovers whereRequirements () [] rest := .absent h

/-! ## Effects and results -/

/-- Neither a word nor a reserved word of an effect comes next. -/
theorem atEffect_ahead (h : Token.kindAt rest 0 ∉ [.ident, .kwThrows, .kwRethrows]) (gap : Gap) :
    Lookahead.atEffect (ahead gap rest) = false := by
  rw [← Lexeme.headKind_ahead gap] at h
  cases hahead : ahead gap rest with
  | nil => rfl
  | cons l ls =>
    rw [hahead] at h
    have hkind : l.kind ∉ [TokenKind.ident, .kwThrows, .kwRethrows] := h
    simp only [List.mem_cons, List.not_mem_nil, or_false, not_or] at hkind
    simp [Lookahead.atEffect, Lookahead.atThrows, Lookahead.spells, hkind]

theorem recovers_effects_none (h : Token.kindAt rest 0 ∉ [.ident, .kwThrows, .kwRethrows]) :
    Recovers effects () [] rest :=
  fun gap => reads_effects_none (atEffect_ahead h gap)

/-- Effects, in front of what is none and does not directly follow as a parenthesis. -/
theorem recovers_effects (h : FormsForest .effects ts)
    (hrest : Token.kindAt rest 0 ∉ [.ident, .kwThrows, .kwRethrows, .lParen]) :
    Recovers effects () [.node .effectSpecifiers ts] rest := by
  intro gap
  obtain ⟨ls, hls, hd⟩ := h.derives gap
  have hleaves : forestLeaves [.node .effectSpecifiers ts] = forestLeaves ts := by
    rw [forestLeaves, leaves, forestLeaves, List.append_nil]
  have hahead : ahead gap (forestLeaves ts ++ rest) = ls ++ ahead .none rest := by
    rw [ahead, Lexeme.ofTokensAfter_append hls]
    rfl
  have hfirst : Lookahead.atEffect (ls ++ ahead .none rest) = true := by
    obtain ⟨l, ls', rfl, hl⟩ := hd.fronts.exists_cons rfl
    exact Lexeme.atEffect_iff.mpr hl
  -- what follows is no further effect, nor the parenthesis of a thrown type
  have hstop : Lookahead.atEffect (ahead .none rest) = false := by
    refine atEffect_ahead (fun hmem => hrest ?_) .none
    exact List.mem_append_left [.lParen] hmem
  have hopen : Lookahead.seesJoined .lParen (ahead .none rest) = false := by
    refine seesJoined_of_headKind ?_
    rw [Lexeme.headKind_ahead]
    intro hkind
    rw [hkind] at hrest
    exact absurd hrest (by decide)
  rw [behind, hleaves, hls, hahead]
  exact reads_effects hfirst (hd.isRead _ hopen) hstop

theorem recovers_optionalReturnClause (h : FormsTree .type t)
    (hrest : Token.kindAt rest 0 ∉ [TokenKind.question, .exclamation, .dot, .lt, .amp, .arrow,
      .ident, .kwThrows, .kwRethrows]) :
    Recovers optionalReturnClause () [TypeShape.returnTree t] rest :=
  .present rfl (.node ((Recovers.bump rfl (by decide)).cons (Recovers.type' h hrest).blank))

/-! ## Names and bodies -/

theorem recovers_name (n : Identifier) : Recovers name () [.node .declaredName [n.tree]] rest := by
  have hbump : Recovers bump () [n.tree] rest := .bump rfl (by decide)
  refine .sees ?_
  show Recovers (if TokenKind.ident == .ident then _ else _) () _ rest
  rw [if_pos (by decide)]
  exact hbump.node

/-- A body without statements. -/
theorem recovers_optionalCodeBlock :
    Recovers optionalCodeBlock ()
      [.node .codeBlock [.leaf ⟨.lBrace, "\x7b"⟩, .leaf ⟨.rBrace, "\x7d"⟩]] rest := by
  have hitems : Recovers (follow' (.items .block)) () [] (⟨.rBrace, "\x7d"⟩ :: rest) := by
    refine .follow' (b := true) (.last (a := ()) (recovers_items_none fun v hv => ?_) .pure)
    have hkind : v.kind = .rBrace := hv
    simp [endsItems, hkind]
  have hblock : Recovers (node .codeBlock do
      bump
      follow' (.items .block)
      require .rBrace .openBlock) ()
      [.node .codeBlock [.leaf ⟨.lBrace, "\x7b"⟩, .leaf ⟨.rBrace, "\x7d"⟩]] rest :=
    .node ((Recovers.bump rfl (by decide)).cons (.skip hitems (.require rfl (by decide))))
  exact .present rfl (.sees hblock)

/-! ## Parameter lists -/

/-- One round of a parameter list. It goes on if the parameter is not empty. -/
def parameterElement : Parser Bool := do
  let before ← view
  parameter
  let after ← view
  pure (after.lexemes.length != before.lexemes.length)

/-- A parameter that begins with a name is an element of a list in parentheses. -/
theorem isElement_parameter (ht : t.Snug)
    (hfirst : ∀ more, (Token.kindAt (t.leaves ++ more) 0).isArgumentLabel = true)
    (h : ∀ more, Token.kindAt more 0 ∈ [.comma, .rParen] → Recovers parameter () [t] more) :
    IsElement .rParen parameterElement t := by
  refine ⟨ht, fun more hmem => ?_, fun more hmore => ?_⟩
  · have hlabel := hfirst more
    generalize Token.kindAt (t.leaves ++ more) 0 = k at hlabel hmem
    simp only [List.mem_cons, List.not_mem_nil, or_false] at hmem
    rcases hmem with rfl | rfl <;> exact absurd hlabel (by decide)
  · refine .view fun gap v hv => (h more hmore).last (.view fun gap' w hw => ?_)
    have hlt : (ahead .none more).length < (ahead gap (forestLeaves [t] ++ more)).length :=
      Lexeme.length_ahead_lt (.cons ht .nil) (List.cons_ne_nil _ []) more
    have hlength : w.lexemes.length = (ahead .none more).length := by
      rw [hw, Lexeme.length_ahead, Lexeme.length_ahead]
      rfl
    have hne : w.lexemes.length ≠ v.lexemes.length := by
      rw [hlength, hv]
      exact Nat.ne_of_lt hlt
    rw [bne_iff_ne.mpr hne]
    exact .pure

/-- A list of such parameters. -/
theorem recovers_parameterClause (h : ∀ t ∈ ts, IsElement .rParen parameterElement t) :
    Recovers parameterClause () [.node .parameterClause (.leaf ⟨.lParen, "("⟩ ::
      (commaTrees ts ++ [Tree.leaf ⟨.rParen, ")"⟩]))] rest := by
  refine .node ((Recovers.bump rfl (by decide)).cons ?_)
  exact (Recovers.separatedUntil h (by decide) rfl).bind (.require rfl (by decide))

/-! ## Declarations of functions -/

/-- No modifier stands in front of `func`. -/
theorem atModifier_func {l : Lexeme} {ls : List Lexeme} (h : l.kind = .kwFunc) :
    Lookahead.atModifier (l :: ls) = false := by
  simp [Lookahead.atModifier, Lookahead.atModifierWord, Lookahead.headKind, h]

theorem declaration?_func {scope : Scope} {l : Lexeme} {ls : List Lexeme} (h : l.kind = .kwFunc) :
    Lookahead.declaration? scope (l :: ls) = some .functionDecl := by
  simp [Lookahead.declaration?, Lookahead.skipModifiers, Lookahead.skipAttributes,
    Lookahead.skipMany, Lookahead.skipAttribute?, Lookahead.skipModifier?,
    Lookahead.atModifier, Lookahead.atModifierWord, Lookahead.headKind, h]

/-- A function without attributes and modifiers is made of `func`, its name, and what follows. -/
theorem recovers_functionDecl {rs : List Report} {us : List Tree}
    (hname : Recovers functionName () ts (forestLeaves us ++ rest))
    (hrest : RecoversReporting functionRest () rs us rest) :
    RecoversReporting (declaration .functionDecl) () rs
      [.node .functionDecl (.leaf ⟨.kwFunc, "func"⟩ :: blankTree :: (ts ++ us))] rest := by
  have hmodifiers : ∀ more, Recovers modifiers () [] (⟨.kwFunc, "func"⟩ :: more) := by
    refine fun more => .view fun gap v hv => ?_
    rw [hv, forestLeaves, List.nil_append, Lexeme.ahead_cons rfl, atModifier_func rfl,
      if_neg Bool.false_ne_true]
    exact .pure
  have hattributes : ∀ more, Recovers attributes () [] (⟨.kwFunc, "func"⟩ :: more) := fun more =>
    recovers_attributes_none (by rw [Token.kindAt_zero rfl]; decide)
  have hfunc : ∀ more, Recovers bump () [.leaf ⟨.kwFunc, "func"⟩] more := fun more =>
    .bump rfl (by decide)
  refine .node (.skip (a := ()) (hattributes _) (.skip (a := ()) (hmodifiers _) ?_))
  exact .cons (hfunc _) (.blank (.after hname hrest))

/-- A text that is one function. -/
theorem parse_of_function {source : String} {us : List Tree}
    (h : Recovers (declaration .functionDecl) () [.node .functionDecl us] [])
    (hsnug : Snug (.node .functionDecl us))
    (hfirst : us.head? = some (.leaf ⟨.kwFunc, "func"⟩)) (hsource : lex source = forestLeaves us) :
    parse source = ⟨.node .sourceFile [.node .functionDecl us], []⟩ := by
  obtain ⟨us, rfl⟩ : ∃ vs, us = .leaf ⟨.kwFunc, "func"⟩ :: vs := by
    cases us with
    | nil => cases hfirst
    | cons u us => exact ⟨us, by rw [Option.some.inj hfirst]⟩
  have hitem : Recovers (item .topLevel) () [.node .functionDecl (.leaf ⟨.kwFunc, "func"⟩ :: us)]
      [] := by
    refine .kind ?_
    show Recovers (declarationOrStatement .topLevel) () _ []
    refine .view fun gap v hv => ?_
    have hlexemes : v.lexemes = ahead gap (⟨.kwFunc, "func"⟩ :: _) := hv
    rw [hlexemes, Lexeme.ahead_cons rfl, declaration?_func rfl]
    exact h
  refine parse_of_recovers hitem hsnug (fun v hv => ?_) hsource
  have hkind : v.kind = .kwFunc := hv
  simp [View.atEnd, endsItems, hkind]

end Grammar

open Grammar

/-! ## Parameters -/

namespace ParameterText

variable {rest : List Token}

theorem recovers_names (p : ParameterText) (more : List Token) :
    Recovers parameterNames () p.namesTrees (⟨.colon, ":"⟩ :: more) := by
  obtain ⟨label, name, -, -, -, -⟩ := p
  cases label with
  | none =>
    refine .view fun gap v hv => ?_
    have hkind : v.kind = .ident := View.kindAt_of_ahead hv 0
    have hnext : v.kindAt 1 = .colon := View.kindAt_of_ahead hv 1
    dsimp only
    rw [if_pos (by rw [hkind]; rfl), if_pos (by rw [hnext]; rfl)]
    exact .bump rfl (by decide)
  | some l =>
    have htrivia : l.kind.isTrivia = false := TokenKind.isTrivia_of_isArgumentLabel l.isLabel
    have heof : l.kind ≠ .eof := by
      intro h
      exact absurd (h ▸ l.isLabel) (by decide)
    refine .view fun gap v hv => ?_
    have hkind : v.kind = l.kind := (View.kindAt_of_ahead hv 0).trans (Token.kindAt_zero htrivia)
    have hname : v.kindAt 1 = .ident := (View.kindAt_of_ahead hv 1).trans (Token.kindAt_succ htrivia)
    have hcolon : v.kindAt 2 = .colon := (View.kindAt_of_ahead hv 2).trans (Token.kindAt_succ htrivia)
    dsimp only
    rw [if_pos (by rw [hkind, l.isLabel]), if_neg (by rw [hname]; decide),
      if_pos (by rw [hname, hcolon]; rfl)]
    exact (Recovers.bump htrivia heof).cons (.blank (.bump rfl (by decide)))

/-- What stands behind the type. -/
theorem kindAt_defaultTrees (p : ParameterText) (hrest : Token.kindAt rest 0 ∈ [.comma, .rParen]) :
    Token.kindAt (forestLeaves p.defaultTrees ++ rest) 0 ∈ [.eq, .comma, .rParen] := by
  rw [defaultTrees]
  cases p.default with
  | none => exact .tail _ hrest
  | some l => exact .head _

theorem kindAt_dotsTrees (p : ParameterText) (hrest : Token.kindAt rest 0 ∈ [.comma, .rParen]) :
    Token.kindAt (forestLeaves (p.dotsTrees ++ p.defaultTrees) ++ rest) 0 ∈
      [.ellipsis, .eq, .comma, .rParen] := by
  rw [dotsTrees]
  cases p.variadic with
  | false => exact .tail _ (p.kindAt_defaultTrees hrest)
  | true => exact .head _

theorem recovers_dots (p : ParameterText) (hrest : Token.kindAt rest 0 ∈ [.eq, .comma, .rParen]) :
    Recovers (eat .ellipsis) p.variadic p.dotsTrees rest := by
  rw [dotsTrees]
  cases p.variadic with
  | false =>
    refine .eat_not fun h => ?_
    rw [h] at hrest
    exact absurd hrest (by decide)
  | true => exact .eat rfl (by decide)

theorem recovers_default (p : ParameterText) (hrest : Token.kindAt rest 0 ∈ [.comma, .rParen]) :
    Recovers initialValue () p.defaultTrees rest := by
  rw [defaultTrees]
  cases p.default with
  | none =>
    have hne : Token.kindAt rest 0 ≠ .eq := by
      intro h
      rw [h] at hrest
      exact absurd hrest (by decide)
    exact .absent hne
  | some l =>
    have hvalue : Recovers (follow' (.expr .initializer)) () [.node .expr [.leaf ⟨l.kind, l.text⟩]]
        rest := (recovers_operand (.inr l.isLiteral) (.inl hrest)).discard
    exact .blank (.present rfl (.node ((Recovers.bump rfl (by decide)).cons hvalue.blank)))

/-- A parameter begins with a label or name. -/
theorem isArgumentLabel_kindAt (p : ParameterText) (more : List Token) :
    (Token.kindAt (p.tree.leaves ++ more) 0).isArgumentLabel = true := by
  rw [tree, leaves, namesTrees]
  cases p.label with
  | none => rfl
  | some l =>
    have htrivia : l.kind.isTrivia = false := TokenKind.isTrivia_of_isArgumentLabel l.isLabel
    exact (congrArg TokenKind.isArgumentLabel (Token.kindAt_zero htrivia)).trans l.isLabel

theorem snug_defaultTrees (p : ParameterText) : SnugForest p.defaultTrees := by
  rw [defaultTrees]
  cases p.default with
  | none => exact .nil
  | some l =>
    have hl : l.kind.isTrivia = false := TokenKind.isTrivia_of_isLiteral l.isLiteral
    have hvalue : Snug (.node .expr [.leaf ⟨l.kind, l.text⟩]) := .node (.leaf hl) .nil
    exact .trivia rfl (.cons (.node (.leaf rfl) (.trivia rfl (.cons hvalue .nil))) .nil)

theorem snug (p : ParameterText) : p.tree.Snug := by
  have hdots : SnugForest p.dotsTrees := by
    rw [dotsTrees]
    cases p.variadic with
    | false => exact .nil
    | true => exact .cons (.leaf rfl) .nil
  have hrest : SnugForest (.leaf ⟨.colon, ":"⟩ :: blankTree :: p.written.tree ::
      (p.dotsTrees ++ p.defaultTrees)) :=
    .cons (.leaf rfl) (.trivia rfl (.cons p.written.forms.snug
      (hdots.append p.snug_defaultTrees)))
  rw [tree, namesTrees]
  cases p.label with
  | none => exact .node (.leaf rfl) hrest
  | some l =>
    have hl : l.kind.isTrivia = false := TokenKind.isTrivia_of_isArgumentLabel l.isLabel
    exact .node (.leaf hl) (.trivia rfl (.cons (.leaf rfl) hrest))

theorem recovers (p : ParameterText) (hrest : Token.kindAt rest 0 ∈ [.comma, .rParen]) :
    Recovers parameter () [p.tree] rest := by
  have hfirst := p.isArgumentLabel_kindAt rest
  have hattributes : Recovers attributes () [] (p.tree.leaves ++ rest) := by
    refine recovers_attributes_none fun h => ?_
    rw [h] at hfirst
    exact absurd hfirst (by decide)
  have hdots := p.kindAt_dotsTrees hrest
  have htype : Recovers (follow' .type) () [p.written.tree]
      (forestLeaves (p.dotsTrees ++ p.defaultTrees) ++ rest) := by
    refine Recovers.type' p.written.forms ?_
    revert hdots
    cases Token.kindAt (forestLeaves (p.dotsTrees ++ p.defaultTrees) ++ rest) 0 <;> decide
  refine .node (.skip (a := ()) hattributes ?_)
  refine (p.recovers_names _).bind ?_
  refine (Recovers.eat rfl (by decide)).cons ?_
  rw [if_pos rfl]
  refine .blank (htype.cons ?_)
  exact (p.recovers_dots (p.kindAt_defaultTrees hrest)).bind (p.recovers_default hrest)

theorem isElement (p : ParameterText) : IsElement .rParen parameterElement p.tree :=
  isElement_parameter p.snug p.isArgumentLabel_kindAt fun _ => p.recovers

end ParameterText

/-! ## Effects -/

namespace EffectText

theorem forms (e : EffectText) : FormsForest .effect e.trees := by
  cases e with
  | async => exact FormsForest.effectWord fun _ => .inl ⟨rfl, rfl⟩
  | throws => exact FormsForest.effectWord fun _ => .inr (.inr (.inl rfl))
  | rethrows => exact FormsForest.effectWord fun _ => .inr (.inr (.inr rfl))
  | throwing type => exact FormsForest.thrownType type.forms

theorem trees_ne_nil (e : EffectText) : e.trees ≠ [] := by
  cases e <;> exact List.cons_ne_nil _ _

end EffectText

theorem spacedTrees_ne_nil (e : EffectText) (es : List EffectText) : spacedTrees (e :: es) ≠ [] := by
  cases es with
  | nil => exact e.trees_ne_nil
  | cons e' es => simp [spacedTrees]

theorem forms_spacedTrees (e : EffectText) (es : List EffectText) :
    FormsForest .effects (spacedTrees (e :: es)) := by
  induction es generalizing e with
  | nil => exact e.forms.imp fun _ _ hd => .lastEffect hd
  | cons e' es ih => exact e.forms.moreEffects (ih e') (spacedTrees_ne_nil e' es)

theorem recovers_effectsTrees {rest : List Token} (es : List EffectText)
    (hrest : Token.kindAt rest 0 ∉ [.ident, .kwThrows, .kwRethrows, .lParen]) :
    Recovers effects () (effectsTrees es) rest := by
  cases es with
  | nil =>
    refine recovers_effects_none fun hmem => hrest ?_
    exact List.mem_append_left [.lParen] hmem
  | cons e es => exact (recovers_effects (forms_spacedTrees e es) hrest).blank

theorem snug_effectsTrees (es : List EffectText) : SnugForest (effectsTrees es) := by
  cases es with
  | nil => exact .nil
  | cons e es =>
    have hforms := forms_spacedTrees e es
    obtain ⟨u, us, hus, hu⟩ : ∃ u us, spacedTrees (e :: es) = u :: us ∧ u.isTriviaLeaf = false := by
      cases e <;> cases es <;> exact ⟨_, _, rfl, rfl⟩
    rw [effectsTrees, hus]
    rw [hus] at hforms
    exact .trivia rfl (.cons (hforms.snug.node hu) .nil)

/-! ## Functions -/

namespace FunctionText

variable (f : FunctionText) {rest : List Token}

theorem recovers_clauseTree : Recovers parameterClause () [f.clauseTree] rest := by
  refine recovers_parameterClause fun t ht => ?_
  obtain ⟨p, -, rfl⟩ := List.mem_map.mp ht
  exact p.isElement

theorem snug_clauseTree : f.clauseTree.Snug := by
  have hparameters : SnugForest (commaTrees (f.parameters.map ParameterText.tree)) :=
    snug_commaTrees (List.forall_mem_map.mpr fun p _ => p.snug)
  exact .node (.leaf rfl) (hparameters.append (.cons (.leaf rfl) .nil))

theorem snug_outputTrees : SnugForest f.outputTrees := by
  rw [outputTrees]
  cases f.output with
  | none => exact .nil
  | some r => exact .trivia rfl (.cons (.node (.leaf rfl) (.trivia rfl (.cons r.forms.snug .nil))) .nil)

/-- A result begins with its arrow. -/
theorem kindAt_outputTrees (more : List Token) (hmore : Token.kindAt more 0 = .lBrace) :
    Token.kindAt (forestLeaves f.outputTrees ++ more) 0 ∈ [.arrow, .lBrace] := by
  rw [outputTrees]
  cases f.output with
  | none => exact .tail _ (hmore ▸ .head _)
  | some r => exact .head _

theorem recovers_output (hrest : Token.kindAt rest 0 = .lBrace) :
    Recovers optionalReturnClause () f.outputTrees rest := by
  rw [outputTrees]
  cases f.output with
  | none => exact .absent (by rw [hrest]; decide)
  | some r => exact (recovers_optionalReturnClause r.forms (by rw [hrest]; decide)).blank

theorem recovers_signatureTree (hrest : Token.kindAt rest 0 = .lBrace) :
    Recovers functionSignature () [f.signatureTree] rest := by
  have houtput := f.kindAt_outputTrees rest hrest
  have heffects : Recovers Grammar.effects () (effectsTrees f.effects)
      (forestLeaves f.outputTrees ++ rest) := by
    refine recovers_effectsTrees f.effects ?_
    revert houtput
    cases Token.kindAt (forestLeaves f.outputTrees ++ rest) 0 <;> decide
  have hopen : ∀ ts more, Token.kindAt (forestLeaves (f.clauseTree :: ts) ++ more) 0 = .lParen :=
    fun _ _ => rfl
  refine .node (.sees ?_)
  rw [hopen, if_pos (by decide)]
  exact f.recovers_clauseTree.cons (heffects.bind (f.recovers_output hrest))

theorem snug_signatureTree : f.signatureTree.Snug :=
  .node f.snug_clauseTree ((snug_effectsTrees f.effects).append f.snug_outputTrees)

theorem snug : f.tree.Snug :=
  .node (.leaf rfl) (.trivia rfl (.cons (.node (.leaf rfl) .nil) (.cons f.snug_signatureTree
    (.trivia rfl (.cons (.node (.leaf rfl) (.cons (.leaf rfl) .nil)) .nil)))))

theorem recovers_functionRest :
    Recovers functionRest () [f.signatureTree, blankTree,
      .node .codeBlock [.leaf ⟨.lBrace, "\x7b"⟩, .leaf ⟨.rBrace, "\x7d"⟩]] [] := by
  have hgenerics : Recovers genericParameters () [] (forestLeaves [f.signatureTree, blankTree,
      .node .codeBlock [.leaf ⟨.lBrace, "\x7b"⟩, .leaf ⟨.rBrace, "\x7d"⟩]] ++ []) := by
    refine recovers_genericParameters_none ?_
    show TokenKind.lParen ≠ .lt
    decide
  refine .skip (a := ()) hgenerics ?_
  refine (f.recovers_signatureTree rfl).cons (.blank ?_)
  exact .skip (a := ()) (recovers_whereRequirements_none (by decide)) recovers_optionalCodeBlock

theorem recovers_declaration : Recovers (declaration .functionDecl) () [f.tree] [] := by
  have hname : ∀ more, Recovers functionName () [.node .declaredName [f.name.tree]] more := by
    refine fun more => .kind ?_
    show Recovers (if TokenKind.ident == .ident then Grammar.name else _) () _ more
    rw [if_pos (by decide)]
    exact recovers_name f.name
  have hfunction := recovers_functionDecl (hname _) (.of_recovers f.recovers_functionRest)
  exact hfunction.recovers

end FunctionText

end SwiftOutline
