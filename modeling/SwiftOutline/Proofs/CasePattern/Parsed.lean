/-
  SwiftOutline.Proofs.CasePattern.Parsed

  The patterns that are written are recovered by the parser, and a `switch` with
  one of them in its case is parsed without problems into the tree of its text.
-/
import SwiftOutline.Proofs.CasePattern.Spelling

namespace SwiftOutline

open SwiftOutline.Tree SwiftOutline.Parser
open Lexeme (ahead behind)
open TypeShape (blankTree)

namespace Grammar

variable {b : Bool} {t u : Tree} {ts us : List Tree} {rest more : List Token} {k : NodeKind}
  {x : Point}

/-! ## Members and calls -/

/-- One member or call behind what an expression pattern begins with. -/
def patternSuffix (binding : Bool) : Parser Bool := do
  let v ← view
  if v.kind == .dot && (v.kindAt 1).isNameLike then
    wrap .memberAccessExpr do
      bump
      bump
    pure true
  else if v.seesJoined .lParen then
    wrap .functionCallExpr (patternArguments binding)
    pure true
  else
    pure false

theorem readsOn_patternSuffix_member (t : Tree) (m : Identifier) (more : List Token) :
    ReadsOn (patternSuffix b) ⟨ahead .none (⟨.dot, "."⟩ :: ⟨.ident, m.text⟩ :: more), [t]⟩
      ⟨ahead .none more, [.node .memberAccessExpr [t, .leaf ⟨.dot, "."⟩, m.tree]]⟩ := by
  have hahead : ahead .none (⟨.dot, "."⟩ :: ⟨.ident, m.text⟩ :: more) =
      ⟨.dot, ".", .none⟩ :: ⟨.ident, m.text, .none⟩ :: ahead .none more := by
    rw [Lexeme.ahead_cons rfl, Lexeme.ahead_cons rfl]
  rw [hahead]
  refine ⟨.view fun v hv => ?_, by simp only [List.length_cons]; omega⟩
  have hdot : v.kind = .dot := by rw [View.kind_eq, hv]; rfl
  have hname : v.kindAt 1 = .ident := by rw [View.kindAt_eq, hv]; rfl
  rw [if_pos (by rw [hdot, hname]; rfl)]
  refine Reads.bind (a := ()) (Reads.wrap [] ?_) .pure
  exact (Reads.bump (by simp)).bind (Reads.bump (by simp))

theorem reads_patternSuffix_none
    (hmore : Token.kindAt more 0 ≠ .dot ∧ Token.kindAt more 0 ≠ .lParen) :
    Reads (patternSuffix b) false ⟨ahead .none more, ts⟩ ⟨ahead .none more, ts⟩ := by
  refine .view fun v hv => ?_
  have hkind := View.kindAt_of_ahead hv 0
  rw [if_neg (by simp [View.kind, hkind, hmore.1]),
    if_neg (by simp [View.seesJoined, View.kind, hkind, hmore.2])]
  exact .pure

/-- A call, whose arguments directly follow. -/
theorem readsOn_patternSuffix_call (h : Recovers (patternArguments b) () [u] rest) (hu : u.Snug)
    (hparen : ∃ us, u.leaves = ⟨.lParen, "("⟩ :: us) (ht : t.isTriviaLeaf = false) :
    ReadsOn (patternSuffix b) ⟨ahead .none (u.leaves ++ rest), [t.withoutTrivia]⟩
      ⟨ahead .none rest, [(Tree.node .functionCallExpr [t, u]).withoutTrivia]⟩ := by
  have hsnug : SnugForest [u] := .cons hu .nil
  have hlt : (ahead .none rest).length < (ahead .none (forestLeaves [u] ++ rest)).length :=
    Lexeme.length_ahead_lt hsnug (List.cons_ne_nil u []) rest
  have hread := h.wrap (k := .functionCallExpr) ht .none
  rw [Lexeme.behind_of_snug hsnug (List.cons_ne_nil u [])] at hread
  rw [forestLeaves, forestLeaves, List.append_nil] at hlt hread
  refine ⟨.view fun v hv => ?_, hlt⟩
  obtain ⟨us, hus⟩ := hparen
  have hjoined : v.seesJoined .lParen = true := by
    rw [View.seesJoined_eq (by decide), hv]
    dsimp only
    rw [hus, List.cons_append, Lexeme.ahead_cons rfl]
    rfl
  have hkind : v.kind = .lParen := by
    rw [View.seesJoined, Bool.and_eq_true] at hjoined
    exact eq_of_beq hjoined.1
  rw [if_neg (by simp [hkind]), if_pos hjoined]
  exact hread.bind .pure

end Grammar

namespace CasePattern

open Grammar

namespace MemberPath

variable {b : Bool} {more : List Token} {x : Point}

theorem snug (p : MemberPath) : p.tree.Snug := by
  induction p with
  | implicit m => exact .node (.leaf rfl) (.cons (.leaf rfl) .nil)
  | qualified root m =>
    exact .node (.node (.leaf rfl) .nil) (.cons (.leaf rfl) (.cons (.leaf rfl) .nil))
  | member base m ih => exact .node ih (.cons (.leaf rfl) (.cons (.leaf rfl) .nil))

@[simp] theorem withoutTrivia_tree (p : MemberPath) : p.tree.withoutTrivia = p.tree := by
  induction p with
  | implicit m => rfl
  | qualified root m => rfl
  | member base m ih =>
    simp [tree, memberTree, withoutTrivia, forestWithoutTrivia, base.snug.isTriviaLeaf_eq, ih,
      Identifier.tree, Token.isTrivia, TokenKind.isTrivia]

/-- The parser takes a path member by member, and goes on behind it. -/
theorem reads_patternPrimary (p : MemberPath)
    (h : ReadsAll (patternSuffix b) ⟨ahead .none more, [p.tree]⟩ x) (gap : Gap) :
    Reads (patternPrimary b) true ⟨ahead gap (p.tree.leaves ++ more), []⟩ x := by
  induction p generalizing more with
  | implicit m =>
    have hahead : ahead gap ((implicit m).tree.leaves ++ more) =
        ⟨.dot, ".", gap⟩ :: ⟨.ident, m.text, .none⟩ :: ahead .none more := by
      show ahead gap (⟨.dot, "."⟩ :: ⟨.ident, m.text⟩ :: more) = _
      rw [Lexeme.ahead_cons rfl, Lexeme.ahead_cons rfl]
    rw [hahead]
    unfold patternPrimary
    refine .view fun v hv => ?_
    have hdot : v.kind = .dot := by rw [View.kind_eq, hv]; rfl
    have hname : v.kindAt 1 = .ident := by rw [View.kindAt_eq, hv]; rfl
    rw [if_neg (by simp [hdot, TokenKind.isLiteral]), if_neg (by simp [hdot]),
      if_pos (by rw [hdot, hname]; rfl)]
    have hnode : Reads (node .memberAccessExpr (bump >>= fun _ => bump)) ()
        ⟨⟨.dot, ".", gap⟩ :: ⟨.ident, m.text, .none⟩ :: ahead .none more, []⟩
        ⟨ahead .none more, [(implicit m).tree]⟩ :=
      Reads.node [] ((Reads.bump (by simp)).bind (Reads.bump (by simp)))
    exact hnode.bind (h.repeating.bind .pure)
  | qualified root m =>
    have hahead : ahead gap ((qualified root m).tree.leaves ++ more) =
        ⟨.ident, root.text, gap⟩ :: ahead .none (⟨.dot, "."⟩ :: ⟨.ident, m.text⟩ :: more) := by
      show ahead gap (⟨.ident, root.text⟩ :: ⟨.dot, "."⟩ :: ⟨.ident, m.text⟩ :: more) = _
      rw [Lexeme.ahead_cons rfl]
    rw [hahead]
    unfold patternPrimary
    refine .view fun v hv => ?_
    have hword : v.kind = .ident := by rw [View.kind_eq, hv]; rfl
    rw [if_neg (by simp [hword, TokenKind.isLiteral]), if_neg (by simp [hword]),
      if_neg (by simp [hword])]
    simp only [hword]
    have hnode : Reads (node .declReferenceExpr bump) ()
        ⟨⟨.ident, root.text, gap⟩ :: ahead .none (⟨.dot, "."⟩ :: ⟨.ident, m.text⟩ :: more), []⟩
        ⟨ahead .none (⟨.dot, "."⟩ :: ⟨.ident, m.text⟩ :: more),
          [.node .declReferenceExpr [root.tree]]⟩ :=
      Reads.node [] (Reads.bump (by simp))
    have hround := readsOn_patternSuffix_member (b := b) (.node .declReferenceExpr [root.tree])
      m.toIdentifier more
    exact hnode.bind ((ReadsAll.again hround h).repeating.bind .pure)
  | member base m ih =>
    have hround := readsOn_patternSuffix_member (b := b) base.tree m.toIdentifier more
    have hleaves : (member base m).tree.leaves ++ more =
        base.tree.leaves ++ ⟨.dot, "."⟩ :: ⟨.ident, m.text⟩ :: more := by
      simp [tree, memberTree, leaves, forestLeaves, Identifier.tree]
    rw [hleaves]
    exact ih (.again hround h)

/-- A path begins with a point and a name, or with a name and a point. -/
theorem kindAt_leaves (p : MemberPath) (more : List Token) :
    Token.kindAt (p.tree.leaves ++ more) 0 = .dot ∧
        Token.kindAt (p.tree.leaves ++ more) 1 = .ident ∨
      Token.kindAt (p.tree.leaves ++ more) 0 = .ident ∧
        Token.kindAt (p.tree.leaves ++ more) 1 = .dot := by
  induction p generalizing more with
  | implicit m => exact .inl ⟨rfl, rfl⟩
  | qualified root m => exact .inr ⟨rfl, rfl⟩
  | member base m ih =>
    have hleaves : (member base m).tree.leaves ++ more =
        base.tree.leaves ++ ⟨.dot, "."⟩ :: ⟨.ident, m.text⟩ :: more := by
      simp [tree, memberTree, leaves, forestLeaves, Identifier.tree]
    rw [hleaves]
    exact ih _

/-- A path alone. -/
theorem recovers (p : MemberPath)
    (hrest : Token.kindAt rest 0 ≠ .dot ∧ Token.kindAt rest 0 ≠ .lParen) :
    Recovers (patternPrimary b) true [p.tree] rest := by
  intro gap
  have hread := p.reads_patternPrimary (.stop (reads_patternSuffix_none (b := b) hrest)) gap
  rw [Lexeme.behind_of_snug (.cons p.snug .nil) (List.cons_ne_nil _ []), forestLeaves, forestLeaves,
    List.append_nil]
  simpa [forestWithoutTrivia, p.snug.isTriviaLeaf_eq] using hread

/-- A path with arguments. -/
theorem recovers_call (p : MemberPath) {u : Tree} (h : Recovers (patternArguments b) () [u] rest)
    (hu : u.Snug) (hparen : ∃ us, u.leaves = ⟨.lParen, "("⟩ :: us)
    (hrest : Token.kindAt rest 0 ≠ .dot ∧ Token.kindAt rest 0 ≠ .lParen) :
    Recovers (patternPrimary b) true [.node .functionCallExpr [p.tree, u]] rest := by
  intro gap
  have hsnug : Snug (.node .functionCallExpr [p.tree, u]) := .node p.snug (.cons hu .nil)
  have hcall := readsOn_patternSuffix_call h hu hparen p.snug.isTriviaLeaf_eq
  rw [p.withoutTrivia_tree] at hcall
  have hread := p.reads_patternPrimary (.again hcall (.stop (reads_patternSuffix_none hrest))) gap
  rw [Lexeme.behind_of_snug (.cons hsnug .nil) (List.cons_ne_nil _ [])]
  simpa [forestLeaves, leaves, forestWithoutTrivia] using hread

end MemberPath

/-! ## Patterns -/

/-- A tree that is recovered as a pattern, in front of what ends one. -/
structure IsPattern (b : Bool) (t : Tree) : Prop where
  snug : t.Snug
  recovers : ∀ rest, Token.kindAt rest 0 ∈ [TokenKind.comma, .rParen, .colon] →
    Recovers (follow (.pattern b)) true [t] rest

/-- A pattern that can be an element of a list, where it does not look like a label. -/
structure IsElementPattern (b : Bool) (t : Tree) : Prop extends IsPattern b t where
  begins : ∀ more, Token.kindAt (t.leaves ++ more) 0 ∉ [TokenKind.rParen, .eof]
  unlabelled : ∀ more, Token.kindAt more 0 ≠ .colon → Token.kindAt (t.leaves ++ more) 1 ≠ .colon

variable {b : Bool} {t u : Tree} {rest : List Token}

/-- A pattern with nothing behind it. -/
theorem recovers_pattern (h : Recovers (primaryPattern b) true [t] rest)
    (hrest : Token.kindAt rest 0 ≠ .kwAs) : Recovers (follow (.pattern b)) true [t] rest := by
  have hnone : Recovers (sees .kwAs >>= fun found => do
      if found then
        wrap .asPattern do
          bump
          follow' .type
      Pure.pure true) true [] rest := by
    refine .sees ?_
    rw [forestLeaves, List.nil_append, if_neg (by simpa using hrest)]
    exact .pure
  refine .follow (.last h ?_)
  rw [if_pos rfl]
  exact hnone

theorem recovers_expressionPattern (h : Recovers (patternPrimary b) true [t] rest)
    (hfirst : endsPattern (Token.kindAt (t.leaves ++ rest) 0) = false)
    (hrest : endsPattern (Token.kindAt rest 0) = true) :
    Recovers (expressionPattern b) true [.node .expressionPattern [t]] rest := by
  have hleaves : forestLeaves [.node .expressionPattern [t]] = t.leaves := by
    simp [forestLeaves, leaves]
  unfold expressionPattern
  refine .kind ?_
  rw [hleaves, hfirst, if_neg Bool.false_ne_true]
  refine .last (a := ()) (.node (h.last (.kind ?_))) .pure
  rw [forestLeaves, List.nil_append, if_pos hrest]
  exact .pure

/-- What may follow a pattern ends it, and introduces no type. -/
theorem endsPattern_of_mem {k : TokenKind} (hk : k ∈ [TokenKind.comma, .rParen, .colon]) :
    endsPattern k = true ∧ k ≠ .kwAs := by
  revert hk
  cases k <;> decide

/-! ### Members and calls -/

/-- An expression that begins with a path, under a word that binds names or not. -/
theorem IsPattern.expression (p : MemberPath) (tail : List Tree) (hsnug : t.Snug)
    (hleaves : t.leaves = p.tree.leaves ++ forestLeaves tail)
    (h : ∀ rest, Token.kindAt rest 0 ∈ [TokenKind.comma, .rParen, .colon] →
      Recovers (patternPrimary b) true [t] rest) :
    IsPattern b (.node .expressionPattern [t]) := by
  refine ⟨.node hsnug .nil, fun rest hrest => ?_⟩
  obtain ⟨hends, has⟩ := endsPattern_of_mem hrest
  have htokens : t.leaves ++ rest = p.tree.leaves ++ (forestLeaves tail ++ rest) := by
    rw [hleaves, List.append_assoc]
  have hpath := p.kindAt_leaves (forestLeaves tail ++ rest)
  rw [← htokens] at hpath
  have hpattern : Recovers (expressionPattern b) true [.node .expressionPattern [t]] rest := by
    refine recovers_expressionPattern (h rest hrest) ?_ hends
    rcases hpath with ⟨h, -⟩ | ⟨h, -⟩ <;> rw [h] <;> rfl
  refine recovers_pattern (.view fun gap v hv => ?_) has
  have hkind := View.kindAt_of_ahead hv
  rw [forestLeaves, forestLeaves, List.append_nil, leaves, forestLeaves, forestLeaves,
    List.append_nil] at hkind
  rcases hpath with ⟨h, h'⟩ | ⟨h, h'⟩
  · simp only [View.kind, hkind, h]
    exact hpattern
  · -- a name that a point follows is not bound
    simp only [View.kind, hkind, h, h']
    rw [if_neg (by simp [endsPattern])]
    exact hpattern

theorem MemberPath.isPattern (p : MemberPath) (b : Bool) :
    IsPattern b (.node .expressionPattern [p.tree]) := by
  refine .expression p [] p.snug (by rw [forestLeaves, List.append_nil]) ?_
  intro rest hrest
  refine p.recovers ?_
  revert hrest
  cases Token.kindAt rest 0 <;> decide

/-! ### Names and wildcards -/

theorem Slot.snug (x : Slot) : x.tree.Snug := by
  cases x with
  | name x => exact .node (.leaf rfl) .nil
  | wildcard => exact .node (.leaf rfl) .nil

/-- Under a word that binds names, a name is bound. -/
theorem Slot.recovers (x : Slot) (hrest : endsPattern (Token.kindAt rest 0) = true) :
    Recovers (primaryPattern true) true [x.tree] rest := by
  refine .view fun gap v hv => ?_
  have hnext : v.kindAt 1 = Token.kindAt rest 0 := by
    rw [View.kindAt_of_ahead hv]
    cases x <;> rfl
  cases x with
  | name x =>
    have hkind : v.kind = .ident := View.kindAt_of_ahead hv 0
    simp only [hkind]
    rw [if_pos (by rw [hnext, hrest]; rfl)]
    exact (Recovers.node (.bump rfl (by decide))).last .pure
  | wildcard =>
    have hkind : v.kind = .underscore := View.kindAt_of_ahead hv 0
    simp only [hkind]
    rw [if_pos (by rw [hnext, hrest])]
    exact (Recovers.node (.bump rfl (by decide))).last .pure

theorem isElementPattern_wildcard (b : Bool) : IsElementPattern b Slot.wildcard.tree := by
  have hbegins : TokenKind.underscore ∉ [TokenKind.rParen, .eof] := by decide
  refine ⟨⟨Slot.wildcard.snug, fun rest hrest => ?_⟩, fun _ => hbegins, fun more hmore => hmore⟩
  obtain ⟨hends, has⟩ := endsPattern_of_mem hrest
  refine recovers_pattern (.view fun gap v hv => ?_) has
  have hkind : v.kind = .underscore := View.kindAt_of_ahead hv 0
  have hnext : v.kindAt 1 = Token.kindAt rest 0 := View.kindAt_of_ahead hv 1
  simp only [hkind]
  rw [if_pos (by rw [hnext, hends])]
  exact (Recovers.node (.bump rfl (by decide))).last .pure

theorem Slot.isElementPattern (x : Slot) : IsElementPattern true x.tree := by
  cases x with
  | name x =>
    have hbegins : TokenKind.ident ∉ [TokenKind.rParen, .eof] := by decide
    refine ⟨⟨(Slot.name x).snug, fun rest hrest => ?_⟩, fun _ => hbegins, fun more hmore => hmore⟩
    obtain ⟨hends, has⟩ := endsPattern_of_mem hrest
    exact recovers_pattern ((Slot.name x).recovers hends) has
  | wildcard => exact isElementPattern_wildcard true

/-! ### Words in front of patterns -/

/-- Names behind the word that binds them. -/
theorem Introducer.isPattern (w : Introducer) (h : IsPattern true t) :
    IsPattern false (w.binds t) := by
  have hword : w.kind.isTrivia = false ∧ w.kind ≠ .eof := by
    cases w <;> decide
  refine ⟨.node (.leaf hword.1) (FormsForest.snug_blank (.cons h.snug .nil) (by simp)), ?_⟩
  intro rest hrest
  obtain ⟨-, has⟩ := endsPattern_of_mem hrest
  refine recovers_pattern (.view fun gap v hv => ?_) has
  have hkind : v.kind = w.kind := by
    rw [View.kind, View.kindAt_of_ahead hv]
    exact Token.kindAt_zero hword.1
  have hread : Recovers (do
      node .valueBindingPattern do
        bump
        follow' (.pattern true)
      Pure.pure true) true [w.binds t] rest := by
    refine .last (a := ()) (.node ?_) .pure
    exact (Recovers.bump hword.1 hword.2).cons (h.recovers rest hrest).discard.blank
  cases w <;> simp only [hkind, Introducer.kind] <;> exact hread

/-- Behind a type, a pattern ends. -/
theorem recovers_type (type : TypeText)
    (hrest : Token.kindAt rest 0 ∈ [TokenKind.comma, .rParen, .colon]) :
    Recovers (follow' .type) () [type.tree] rest := by
  refine .type' type.forms ?_
  revert hrest
  cases Token.kindAt rest 0 <;> decide

theorem isPattern_typeTest (type : TypeText) : IsPattern false (Spelled.typeTest type).tree := by
  refine ⟨.node (.leaf rfl) (FormsForest.snug_blank (.cons type.forms.snug .nil) (by simp)), ?_⟩
  intro rest hrest
  obtain ⟨-, has⟩ := endsPattern_of_mem hrest
  refine recovers_pattern (.view fun gap v hv => ?_) has
  have hkind : v.kind = .kwIs := View.kindAt_of_ahead hv 0
  simp only [hkind]
  refine .last (a := ()) (.node ?_) .pure
  exact (Recovers.bump rfl (by decide)).cons (recovers_type type hrest).blank

/-- What stands behind a name or `_` that is cast. -/
def castTail (type : TypeText) : List Tree :=
  [blankTree, .leaf ⟨.kwAs, "as"⟩, blankTree, type.tree]

/-- A name or `_` with a type behind it. -/
theorem isPattern_cast (x : Slot) (type : TypeText) :
    IsPattern true (.node .asPattern (x.tree :: castTail type)) := by
  have htail : SnugForest (castTail type) :=
    .trivia rfl (.cons (.leaf rfl) (.trivia rfl (.cons type.forms.snug .nil)))
  have hsnug : Snug (.node .asPattern (x.tree :: castTail type)) := .node x.snug htail
  refine ⟨hsnug, fun rest hrest => .follow fun gap => ?_⟩
  have htype : Recovers (bump >>= fun _ => follow' .type) () (castTail type) rest :=
    ((Recovers.bump rfl (by decide)).cons (recovers_type type hrest).blank).blank
  have hname : Recovers (primaryPattern true) true [x.tree] (forestLeaves (castTail type) ++ rest) :=
    x.recovers rfl
  have hprimary := hname gap
  have hwrap := htype.wrap (k := .asPattern) x.snug.isTriviaLeaf_eq .none
  have hleaves : forestLeaves [.node .asPattern (x.tree :: castTail type)] ++ rest =
      forestLeaves [x.tree] ++ (forestLeaves (castTail type) ++ rest) := by
    simp [forestLeaves, leaves]
  rw [Lexeme.behind_of_snug (.cons x.snug .nil) (List.cons_ne_nil _ [])] at hprimary
  rw [Lexeme.behind_of_snug htail (List.cons_ne_nil _ _)] at hwrap
  rw [Lexeme.behind_of_snug (.cons hsnug .nil) (List.cons_ne_nil _ []), hleaves]
  have hx : forestWithoutTrivia [x.tree] = [x.tree.withoutTrivia] := by
    simp [forestWithoutTrivia, x.snug.isTriviaLeaf_eq]
  rw [hx] at hprimary
  refine hprimary.bind ?_
  rw [if_pos rfl]
  have has : Lookahead.headKind (ahead .none (forestLeaves (castTail type) ++ rest)) = .kwAs :=
    Lexeme.headKind_ahead _ _
  refine .sees ?_
  rw [has, if_pos (by decide)]
  exact hwrap.bind .pure

/-! ### Literals -/

/-- What a literal begins with. -/
def literalKinds : List TokenKind :=
  [.intLiteral, .floatLiteral, .stringLiteral, .kwTrue, .kwFalse, .kwNil, .operator]

/-- A tree that begins like a literal, and that an expression pattern begins with. -/
theorem isElementPattern_of_beginsLiteral (hsnug : t.Snug)
    (hfirst : ∀ more, Token.kindAt (t.leaves ++ more) 0 ∈ literalKinds)
    (hsecond : ∀ more, Token.kindAt more 0 ≠ .colon → Token.kindAt (t.leaves ++ more) 1 ≠ .colon)
    (h : ∀ rest, Recovers (patternPrimary b) true [t] rest) :
    IsElementPattern b (.node .expressionPattern [t]) := by
  have hkinds : ∀ k ∈ literalKinds, endsPattern k = false ∧ k ∉ [TokenKind.rParen, .eof] := by
    decide
  have hleaves : (Tree.node .expressionPattern [t]).leaves = t.leaves := by
    simp [leaves, forestLeaves]
  refine ⟨⟨.node hsnug .nil, fun rest hrest => ?_⟩, fun more => ?_, fun more hmore => ?_⟩
  · obtain ⟨hends, has⟩ := endsPattern_of_mem hrest
    have hread := recovers_expressionPattern (h rest) (hkinds _ (hfirst rest)).1 hends
    refine recovers_pattern (.view fun gap v hv => ?_) has
    have hkind := View.kindAt_of_ahead hv 0
    rw [forestLeaves, forestLeaves, List.append_nil, hleaves] at hkind
    have hbegins := hfirst rest
    rw [← hkind, ← View.kind] at hbegins
    simp only [literalKinds, List.mem_cons, List.not_mem_nil, or_false] at hbegins
    rcases hbegins with h | h | h | h | h | h | h <;> rw [h] <;> exact hread
  · rw [hleaves]
    exact (hkinds _ (hfirst more)).2
  · rw [hleaves]
    exact hsecond more hmore

theorem isElementPattern_literal (l : LiteralText) :
    IsElementPattern false (Argument.literal l).tree := by
  have hkinds : ∀ k : TokenKind, k.isLiteral = true →
      k.isTrivia = false ∧ k ≠ .eof ∧ k ∈ literalKinds := by
    intro k
    cases k <;> decide
  obtain ⟨text, leaves, lexed, ⟨k, hk, rfl⟩ | ⟨k, n, hk, rfl⟩⟩ := l
  · obtain ⟨htrivia, heof, hbegins⟩ := hkinds k hk
    have hfirst : ∀ more, Token.kindAt (⟨k, text⟩ :: more) 0 = k := fun _ =>
      Token.kindAt_zero htrivia
    refine isElementPattern_of_beginsLiteral (.node (.leaf htrivia) .nil) (fun more => ?_)
      (fun more hmore => ?_) (fun rest => .view fun gap v hv => ?_)
    · show Token.kindAt (⟨k, text⟩ :: more) 0 ∈ literalKinds
      rw [hfirst]
      exact hbegins
    · intro hcolon
      exact hmore ((Token.kindAt_succ htrivia).symm.trans hcolon)
    · have hkind : v.kind = k := (View.kindAt_of_ahead hv 0).trans (hfirst rest)
      rw [if_pos (by rw [hkind, hk])]
      exact (Recovers.node (.bump htrivia heof)).last .pure
  · have hnumber : k.isTrivia = false ∧ k ≠ .eof ∧ k ≠ .colon ∧
        (k == .intLiteral || k == .floatLiteral) = true := by
      revert hk
      cases k <;> decide
    obtain ⟨htrivia, heof, hcolon, hnumber⟩ := hnumber
    have hsecond : ∀ more, Token.kindAt (⟨.operator, "-"⟩ :: ⟨k, n⟩ :: more) 1 = k := by
      intro more
      rw [Token.kindAt_succ rfl, Token.kindAt_zero htrivia]
    refine isElementPattern_of_beginsLiteral (.node (.leaf rfl) (.cons (.leaf htrivia) .nil))
      (fun more => List.mem_of_elem_eq_true rfl) (fun more _ h => hcolon ((hsecond more).symm.trans h))
      (fun rest => .view fun gap v hv => ?_)
    have hahead : v.lexemes =
        ⟨.operator, "-", gap⟩ :: ⟨k, n, .none⟩ :: ahead .none rest := by
      rw [hv]
      show ahead gap (⟨.operator, "-"⟩ :: ⟨k, n⟩ :: rest) = _
      rw [Lexeme.ahead_cons rfl, Lexeme.ahead_cons htrivia]
    have hminus : (v.kind == .operator && v.text == "-" && !(v.gapAt 1).trivia &&
        (v.kindAt 1 == .intLiteral || v.kindAt 1 == .floatLiteral)) = true := by
      simpa [View.kind, View.kindAt, View.text, View.textAt, View.gapAt, hahead, Gap.none] using hnumber
    have hliteral : v.kind.isLiteral = false := by
      rw [View.kind_eq, hahead]
      rfl
    rw [if_neg (by simp [hliteral]), if_pos hminus]
    exact (Recovers.node ((Recovers.bump rfl (by decide)).cons (.bump htrivia heof))).last .pure

/-! ### Lists -/

theorem Labelled.snug {α : Type} {k : NodeKind} {f : α → Tree} (e : Labelled α) (h : (f e.value).Snug) :
    (e.tree k f).Snug := by
  obtain ⟨label, a⟩ := e
  cases label with
  | none => exact .node h .nil
  | some l => exact .node (.leaf rfl) (.cons (.leaf rfl) (.trivia rfl (.cons h .nil)))

/-- An element of a list, with its label if it has one. -/
theorem isElement_labelled {α : Type} {k : NodeKind} {f : α → Tree} (e : Labelled α)
    (h : IsElementPattern b (f e.value)) :
    IsElement .rParen (node k do
      patternLabel
      follow (.pattern b)) (e.tree k f) := by
  have hsnug : (e.tree k f).Snug := e.snug h.snug
  obtain ⟨label, value⟩ := e
  cases label with
  | none =>
    have hleaves : ((Labelled.mk none value).tree k f).leaves = (f value).leaves := by
      simp [Labelled.tree, leaves, forestLeaves]
    refine ⟨hsnug, fun more => ?_, fun more hmore => ?_⟩
    · rw [hleaves]
      exact h.begins more
    · have hmem : Token.kindAt more 0 ∈ [TokenKind.comma, .rParen, .colon] ∧
          Token.kindAt more 0 ≠ .colon := by
        revert hmore
        cases Token.kindAt more 0 <;> decide
      refine .node (.skip (a := ()) (.view fun gap v hv => ?_) (h.recovers more hmem.1))
      have hnext : v.kindAt 1 ≠ .colon := by
        rw [View.kindAt_of_ahead hv, forestLeaves, List.nil_append]
        show Token.kindAt (forestLeaves [f value] ++ more) 1 ≠ .colon
        rw [forestLeaves, forestLeaves, List.append_nil]
        exact h.unlabelled more hmem.2
      rw [if_neg (by simp [hnext])]
      exact .pure
  | some l =>
    have hleaves : ∀ more, ((Labelled.mk (some l) value).tree k f).leaves ++ more =
        ⟨.ident, l.text⟩ :: ⟨.colon, ":"⟩ :: ⟨.whitespace, " "⟩ :: ((f value).leaves ++ more) := by
      intro more
      simp [Labelled.tree, leaves, forestLeaves, Identifier.tree, blankTree]
    have hbegins : TokenKind.ident ∉ [TokenKind.rParen, .eof] := by decide
    refine ⟨hsnug, fun more => ?_, fun more hmore => ?_⟩
    · rw [hleaves]
      exact hbegins
    · have hmem : Token.kindAt more 0 ∈ [TokenKind.comma, .rParen, .colon] := by
        revert hmore
        cases Token.kindAt more 0 <;> decide
      have hlabel : Recovers patternLabel () [l.tree, .leaf ⟨.colon, ":"⟩]
          (forestLeaves [blankTree, f value] ++ more) := by
        refine .view fun gap v hv => ?_
        have hkind : v.kind = .ident := View.kindAt_of_ahead hv 0
        have hnext : v.kindAt 1 = .colon := View.kindAt_of_ahead hv 1
        rw [if_pos (by rw [hkind, hnext]; decide)]
        exact (Recovers.bump rfl (by decide)).cons (.bump rfl (by decide))
      exact .node (hlabel.bind (h.recovers more hmem).blank)

section Lists

variable {α : Type} {k element : NodeKind} {f : α → Tree} {es : List (Labelled α)}

theorem snug_listTree (h : ∀ e ∈ es, (f e.value).Snug) : (listTree k element f es).Snug := by
  have helements : ∀ t ∈ es.map (Labelled.tree element f), t.Snug :=
    List.forall_mem_map.mpr fun e he => e.snug (h e he)
  exact .node (.leaf rfl) ((snug_commaTrees helements).append (.cons (.leaf rfl) .nil))

/-- A list in parentheses. -/
theorem recovers_list (h : ∀ e ∈ es, IsElementPattern b (f e.value)) (problem : Problem) :
    Recovers (node k do
      bump
      separatedUntil .rParen (node element do
        patternLabel
        follow (.pattern b))
      require .rParen problem) () [listTree k element f es] rest := by
  have helements : ∀ t ∈ es.map (Labelled.tree element f), IsElement .rParen (node element do
      patternLabel
      follow (.pattern b)) t := by
    intro t ht
    obtain ⟨e, he, rfl⟩ := List.mem_map.mp ht
    exact isElement_labelled e (h e he)
  refine .node (.cons (a := ()) (.bump rfl (by decide)) ?_)
  exact (Recovers.separatedUntil helements (by decide) rfl).bind (.require rfl (by decide))

theorem isPattern_call (p : MemberPath) (h : ∀ e ∈ es, IsElementPattern b (f e.value)) :
    IsPattern b (callTree f p es) := by
  have hsnug : (listTree .labeledExprList .labeledExpr f es).Snug :=
    snug_listTree fun e he => (h e he).snug
  refine .expression p [listTree .labeledExprList .labeledExpr f es]
    (.node p.snug (.cons hsnug .nil)) (by rw [leaves, forestLeaves]) fun rest hrest => ?_
  refine p.recovers_call (recovers_list h _) hsnug ⟨_, rfl⟩ ?_
  revert hrest
  cases Token.kindAt rest 0 <;> decide

theorem isPattern_tuple (h : ∀ e ∈ es, IsElementPattern b (f e.value)) :
    IsPattern b (listTree .tuplePattern .tuplePatternElement f es) := by
  refine ⟨snug_listTree fun e he => (h e he).snug, fun rest hrest => ?_⟩
  obtain ⟨-, has⟩ := endsPattern_of_mem hrest
  refine recovers_pattern (.view fun gap v hv => ?_) has
  have hkind : v.kind = .lParen := View.kindAt_of_ahead hv 0
  simp only [hkind]
  exact (recovers_list h .openTuplePattern).last .pure

end Lists

/-! ### All patterns -/

theorem Argument.isElementPattern (a : Argument) : IsElementPattern false a.tree := by
  cases a with
  | bound w x =>
    have hbegins : w.kind ∉ [TokenKind.rParen, .eof] := by cases w <;> decide
    refine ⟨w.isPattern (Slot.name x).isElementPattern.toIsPattern, fun more => ?_,
      fun more _ => ?_⟩
    · cases w <;> exact hbegins
    · cases w <;> exact (by decide : TokenKind.ident ≠ .colon)
  | wildcard => exact isElementPattern_wildcard false
  | literal l => exact isElementPattern_literal l

/-- Every pattern that is written is recovered. -/
theorem Spelled.isPattern (p : Spelled) : IsPattern false p.tree := by
  cases p with
  | member p => exact p.isPattern false
  | call p es => exact isPattern_call p fun e _ => e.value.isElementPattern
  | bindsMember w p => exact w.isPattern (p.isPattern true)
  | bindsCall w p es => exact w.isPattern (isPattern_call p fun e _ => e.value.isElementPattern)
  | bindsTuple w es => exact w.isPattern (isPattern_tuple fun e _ => e.value.isElementPattern)
  | binds w x => exact w.isPattern x.isElementPattern.toIsPattern
  | bindsCast w x type => exact w.isPattern (isPattern_cast x type)
  | typeTest type => exact isPattern_typeTest type

/-! ## A `switch` -/

/-- A statement word introduces no declaration. -/
theorem declaration?_eq_none {scope : Scope} {l : Lexeme} {ls : List Lexeme}
    (hl : l.kind = .kwBreak ∨ l.kind = .kwSwitch) :
    Lookahead.declaration? scope (l :: ls) = none := by
  rcases hl with hl | hl <;>
  simp [Lookahead.declaration?, Lookahead.skipModifiers, Lookahead.skipAttributes,
    Lookahead.skipMany, Lookahead.skipAttribute?, Lookahead.skipModifier?,
    Lookahead.atModifier, Lookahead.atModifierWord, Lookahead.headKind, hl]

/-- A statement that a statement word begins. -/
theorem recovers_item_of_word {scope : Scope} {k : NodeKind} {word : TokenKind} {text : String}
    {ts : List Tree} (hword : word = .kwBreak ∨ word = .kwSwitch) (hscope : scope ≠ .switchCases)
    (hmember : scope ≠ .member)
    (h : Recovers statementBody (some k) (.leaf ⟨word, text⟩ :: ts) rest) :
    Recovers (item scope) () [.node k (.leaf ⟨word, text⟩ :: ts)] rest := by
  have htrivia : word.isTrivia = false := by rcases hword with rfl | rfl <;> rfl
  have hfirst : Token.kindAt (forestLeaves [.node k (.leaf ⟨word, text⟩ :: ts)] ++ rest) 0 = word :=
    Token.kindAt_zero htrivia
  have hstatement : Recovers statement () [.node k (.leaf ⟨word, text⟩ :: ts)] rest := by
    refine .kind ?_
    rw [hfirst, if_neg (by rcases hword with rfl | rfl <;> decide),
      if_neg (by rcases hword with rfl | rfl <;> decide)]
    refine .last (a := true) (.node? (.view fun gap v hv => ?_)) ?_
    · have hkind : v.kind = word :=
        (View.kindAt_of_ahead hv 0).trans (Token.kindAt_zero htrivia)
      rw [if_neg (by rw [atStatementLabel, hkind]; rcases hword with rfl | rfl <;> simp)]
      exact h
    · exact .pure
  have hdeclaration : Recovers (declarationOrStatement scope) ()
      [.node k (.leaf ⟨word, text⟩ :: ts)] rest := by
    refine .view fun gap v hv => ?_
    have hnone : Lookahead.declaration? scope v.lexemes = none := by
      rw [hv]
      show Lookahead.declaration? scope (ahead gap (⟨word, text⟩ :: _)) = none
      rw [Lexeme.ahead_cons htrivia]
      exact declaration?_eq_none hword
    rw [hnone]
    simp only [bne_iff_ne, ne_eq, hmember, not_false_eq_true, if_true]
    exact hstatement
  refine .kind ?_
  rw [hfirst]
  rcases hword with rfl | rfl <;>
    simpa only [bne_iff_ne, ne_eq, hscope, not_false_eq_true, if_true] using hdeclaration

theorem recovers_break (hrest : Token.kindAt rest 0 = .rBrace) :
    Recovers (item .caseBody) () [.node .breakStmt [.leaf ⟨.kwBreak, "break"⟩]] rest := by
  refine recovers_item_of_word (.inl rfl) (by decide) (by decide) (.kind ?_)
  have hjump : Recovers jumpBody () [.leaf ⟨.kwBreak, "break"⟩] rest := by
    refine .last (a := ()) (.bump rfl (by decide)) (.view fun gap v hv => ?_)
    have hkind : v.kind = .rBrace := (View.kindAt_of_ahead hv 0).trans hrest
    rw [if_neg (by simp [hkind])]
    exact .pure
  exact hjump.last .pure

theorem recovers_caseItems (h : IsPattern false t) (hrest : Token.kindAt rest 0 = .colon) :
    Recovers caseItems () [.node .caseItem [t]] rest := by
  have hitem : Recovers (node .caseItem do
      let _ ← follow (.pattern false)
      optionalWhereClause) () [.node .caseItem [t]] rest := by
    refine .node ((h.recovers rest (by rw [hrest]; decide)).last (.sees ?_))
    rw [forestLeaves, List.nil_append, hrest, if_neg (by decide)]
    exact .pure
  have hround : Recovers (do
      node .caseItem do
        let _ ← follow (.pattern false)
        optionalWhereClause
      pure true) true [.node .caseItem [t]] rest := hitem.last .pure
  refine RecoversAll.repeating (.stop (hround.last ?_))
  rw [if_pos rfl]
  exact .eat_not (by rw [hrest]; decide)

/-- A case that breaks. -/
theorem recovers_switchCase (h : IsPattern false t) (hrest : Token.kindAt rest 0 = .rBrace) :
    Recovers (item .switchCases) () [caseTree t] rest := by
  have hitems : Recovers (follow' (.items .caseBody)) ()
      [.node .breakStmt [.leaf ⟨.kwBreak, "break"⟩]] rest := by
    refine .follow' (b := true) (.last (a := ()) (recovers_items (recovers_break hrest)
      (.node (.leaf rfl) .nil) (fun v hv => ?_) fun v hv => ?_) .pure)
    · have hkind : v.kind = .kwBreak := hv
      simp [View.atEnd, endsItems, hkind]
    · rw [hrest] at hv
      simp [endsItems, hv]
  have hlabel : ∀ more, Recovers (node .switchCaseLabel do
      bump
      caseItems
      require .colon .noCaseColon) () [caseLabel t] more := fun more =>
    .node ((Recovers.bump rfl (by decide)).cons
      (((recovers_caseItems h rfl).cons (.require rfl (by decide))).blank))
  have hattributes : ∀ more, Recovers attributes () [] (⟨.kwCase, "case"⟩ :: more) := fun more =>
    .absent (by rw [Token.kindAt_zero rfl]; decide)
  refine .kind ?_
  show Recovers switchCase () _ rest
  refine .node (.skip (a := ()) (hattributes _) (.kind ?_))
  exact (hlabel _).cons hitems.blank

theorem snug_caseTree (h : t.Snug) : (caseTree t).Snug := by
  have hlabel : (caseLabel t).Snug :=
    .node (.leaf rfl) (.trivia rfl (.cons (.node h .nil) (.cons (.leaf rfl) .nil)))
  exact .node hlabel (.trivia rfl (.cons (.node (.leaf rfl) .nil) .nil))

theorem snug_switchTree (h : t.Snug) : (switchTree t).Snug :=
  .node (.leaf rfl) (.trivia rfl (.cons (.node (.leaf rfl) .nil) (.trivia rfl
    (.cons (.leaf rfl) (.trivia rfl (.cons (snug_caseTree h)
      (.trivia rfl (.cons (.leaf rfl) .nil))))))))

/-- A `switch` over a name, with one case. -/
theorem recovers_switch (h : IsPattern false t) :
    Recovers (item .topLevel) () [switchTree t] [] := by
  have hcases : ∀ more, Recovers (follow' (.items .switchCases)) () [caseTree t]
      (⟨.whitespace, " "⟩ :: ⟨.rBrace, "\x7d"⟩ :: more) := by
    intro more
    have hrest : Token.kindAt (⟨.whitespace, " "⟩ :: ⟨.rBrace, "\x7d"⟩ :: more) 0 = .rBrace := by
      rw [Token.kindAt_trivia rfl, Token.kindAt_zero rfl]
    refine .follow' (b := true) (.last (a := ()) (recovers_items (recovers_switchCase h hrest)
      (snug_caseTree h.snug) (fun v hv => ?_) fun v hv => ?_) .pure)
    · have hkind : v.kind = .kwCase := hv
      simp [View.atEnd, endsItems, hkind]
    · rw [hrest] at hv
      simp [endsItems, hv]
  have hbody : Recovers switchBody () [.leaf ⟨.kwSwitch, "switch"⟩, blankTree,
      .node .expr [.leaf ⟨.ident, "v"⟩], blankTree, .leaf ⟨.lBrace, "\x7b"⟩, blankTree,
      caseTree t, blankTree, .leaf ⟨.rBrace, "\x7d"⟩] [] := by
    refine (Recovers.bump rfl (by decide)).cons (.blank ?_)
    -- the brace ends the subject
    refine (recovers_operand (.inl ⟨rfl, by decide⟩) (.inr ⟨rfl, rfl⟩)).discard.cons (.blank ?_)
    refine (Recovers.expect rfl (by decide)).cons (.blank ?_)
    rw [if_pos rfl]
    exact (hcases _).cons (.blank (.require rfl (by decide)))
  exact recovers_item_of_word (.inr rfl) (by decide) (by decide) (.kind (hbody.last .pure))

end CasePattern

end SwiftOutline
