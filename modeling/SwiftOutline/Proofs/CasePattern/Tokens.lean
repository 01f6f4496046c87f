/-
  SwiftOutline.Proofs.CasePattern.Tokens

  The text of a pattern that is written is read as the tokens of its tree, so that
  a `switch` with it in its case is parsed into the tree of the `switch`.
-/
import SwiftOutline.Proofs.CasePattern.Parsed

namespace SwiftOutline

open Lexer SwiftOutline.Tree
open TypeShape (blankTree)

/-- A name begins with no point. -/
theorem Identifier.ne_point (n : Identifier) (rest : List Char) :
    ∀ d ∈ (n.text.toList ++ rest).head?, d ≠ '.' := by
  obtain ⟨c, w, hn, hc⟩ := exists_cons_of_lex n.lexed rfl
  have hpoint : c ≠ '.' := by
    rintro rfl
    rcases hc with hc | hc | hc <;> exact absurd hc (by decide)
  rw [hn]
  exact fun d hd => Option.some.inj hd ▸ hpoint

theorem LiteralText.written (l : LiteralText) : Written l.text (l.leaves.map .leaf) := by
  have hleaves : forestLeaves (l.leaves.map .leaf) = l.leaves := by
    induction l.leaves with
    | nil => rfl
    | cons t ts ih => rw [List.map_cons, forestLeaves, ih, Tree.leaves, List.singleton_append]
  have hliteral : ∀ k : TokenKind, k.isLiteral = true →
      k ≠ .error ∧ k ≠ .whitespace ∧ k ≠ .lineComment ∧ k ≠ .dot := by
    intro k hk
    cases k <;> first | exact absurd hk (by decide) | decide
  refine .of_lex (l.lexed.trans hleaves.symm) ?_ ?_
  · rw [l.lexed]
    obtain ⟨k, hk, hls⟩ | ⟨k, n, hk, hls⟩ := l.isLiteral
    · rw [hls]
      exact List.forall_mem_singleton.mpr (hliteral k hk).1
    · simp only [List.mem_cons, List.not_mem_nil, or_false] at hk
      rw [hls]
      rcases hk with rfl | rfl <;> simp
  · rw [l.lexed]
    obtain ⟨k, hk, hls⟩ | ⟨k, n, hk, hls⟩ := l.isLiteral
    · rw [hls]
      exact fun t ht => Option.some.inj ht ▸ (hliteral k hk).2
    · simp only [List.mem_cons, List.not_mem_nil, or_false] at hk
      rw [hls]
      intro t ht
      obtain rfl := Option.some.inj ht
      rcases hk with rfl | rfl <;> simp [Closed]

namespace CasePattern

variable {s : String} {t : Tree} {rest : List Char}

/-- A path is read member by member, in front of what does not continue its last name. -/
theorem MemberPath.tokensOf_text (p : MemberPath) (hrest : ∀ d ∈ rest.head?, isNameChar d = false) :
    tokensOf (p.text.toList ++ rest) = p.tree.leaves ++ tokensOf rest := by
  have hpoint : ∀ (m : AsciiName) (rest : List Char), (∀ d ∈ rest.head?, isNameChar d = false) →
      tokensOf ('.' :: (m.text.toList ++ rest)) =
        ⟨.dot, "."⟩ :: ⟨.ident, m.text⟩ :: tokensOf rest := by
    intro m rest hrest
    rw [tokensOf_point (m.ne_point rest), TypeShape.tokensOf_ident m.lexed hrest]
  induction p generalizing rest with
  | implicit m =>
    have htext : (implicit m).text.toList ++ rest = '.' :: (m.text.toList ++ rest) := by simp [text]
    rw [htext, hpoint m rest hrest]
    rfl
  | qualified root m =>
    have htext : (qualified root m).text.toList ++ rest =
        root.text.toList ++ '.' :: (m.text.toList ++ rest) := by simp [text]
    rw [htext, TypeShape.tokensOf_ident root.lexed (by simp; decide), hpoint m rest hrest]
    rfl
  | member base m ih =>
    have htext : (member base m).text.toList ++ rest =
        base.text.toList ++ '.' :: (m.text.toList ++ rest) := by simp [text]
    rw [htext, ih (by simp; decide), hpoint m rest hrest]
    simp [tree, memberTree, Tree.leaves, forestLeaves, Identifier.tree]

theorem MemberPath.spells (p : MemberPath) : Spells p.text p.tree := by
  refine ⟨p.snug, fun rest hrest => ?_⟩
  rw [p.tokensOf_text hrest.name, forestLeaves, forestLeaves, List.append_nil]

theorem Slot.spells (x : Slot) : Spells x.text x.tree := by
  cases x with
  | name x => exact x.spells.node
  | wildcard =>
    have hlex : lex "_" = [⟨.underscore, "_"⟩] := Lexer.lex_word rfl rfl nofun
    exact (Spells.of_token hlex rfl (by decide)).node

theorem Introducer.spells (w : Introducer) : Spells w.text (.leaf ⟨w.kind, w.text⟩) := by
  cases w with
  | letWord =>
    have hlex : lex "let" = [⟨.kwLet, "let"⟩] := Lexer.lex_word rfl rfl nofun
    exact .of_token hlex rfl (by decide)
  | varWord =>
    have hlex : lex "var" = [⟨.kwVar, "var"⟩] := Lexer.lex_word rfl rfl nofun
    exact .of_token hlex rfl (by decide)

/-- A pattern behind the word that introduces it. -/
theorem Introducer.spells_binds (w : Introducer) (h : Spells s t) :
    Spells (w.text ++ " " ++ s) (w.binds t) := by
  refine ⟨.node w.spells.snug (.trivia rfl (.cons h.snug .nil)), Written.node ?_⟩
  rw [String.append_assoc]
  exact w.spells.written.spaced h

theorem Argument.spells (a : Argument) : Spells a.text a.tree := by
  cases a with
  | bound w x => exact w.spells_binds (Slot.name x).spells
  | wildcard => exact Slot.wildcard.spells
  | literal l => exact ⟨(isElementPattern_literal l).snug, l.written.node.node⟩

section Lists

variable {α : Type} {f : α → String} {g : α → Tree} {es : List (Labelled α)}

theorem Labelled.spells (h : ∀ a, Spells (f a) (g a)) (k : NodeKind) (e : Labelled α) :
    Spells (e.text f) (e.tree k g) := by
  obtain ⟨label, a⟩ := e
  cases label with
  | none =>
    have htext : (Labelled.mk none a).text f = f a := String.empty_append
    rw [htext]
    exact (h a).node
  | some l =>
    refine ⟨.node (.leaf rfl) (.cons (.leaf rfl) (.trivia rfl (.cons (h a).snug .nil))), .node ?_⟩
    intro rest hrest
    have htext : ((Labelled.mk (some l) a).text f).toList ++ rest =
        l.text.toList ++ ':' :: ' ' :: ((f a).toList ++ rest) := by simp [Labelled.text]
    rw [htext, TypeShape.tokensOf_ident l.lexed (by simp; decide), TypeShape.tokensOf_colon,
      tokensOf_blank ((h a).isBlank rest), (h a).written rest hrest]
    rfl

theorem spells_list (h : ∀ a, Spells (f a) (g a)) (k element : NodeKind) (es : List (Labelled α)) :
    Spells (listText f es) (listTree k element g es) := by
  refine ⟨snug_listTree fun e _ => (h e.value).snug, .node fun rest hrest => ?_⟩
  have htext : (listText f es).toList ++ rest =
      '(' :: ((commaText (es.map (Labelled.text f))).toList ++ ')' :: rest) := by simp [listText]
  rw [htext, TypeShape.tokensOf_lParen,
    written_comma (fun e _ => Labelled.spells h element e) _ (.of_mem (by decide) rest),
    TypeShape.tokensOf_rParen]
  simp [forestLeaves, leaves, forestLeaves_append]

/-- The parenthesis of a call directly follows the path. -/
theorem spells_call (p : MemberPath) (h : ∀ a, Spells (f a) (g a)) (es : List (Labelled α)) :
    Spells (p.text ++ listText f es) (callTree g p es) := by
  have hlist := spells_list h .labeledExprList .labeledExpr es
  refine ⟨.node (.node p.snug (.cons hlist.snug .nil)) .nil, .node (.node fun rest hrest => ?_)⟩
  have hparen : ∀ d ∈ ((listText f es).toList ++ rest).head?, isNameChar d = false := by
    simp [listText]
    decide
  rw [String.toList_append, List.append_assoc, p.tokensOf_text hparen, hlist.written rest hrest]
  simp [forestLeaves]

end Lists

/-- A type behind a word that tests or casts. -/
theorem spells_typeTest (type : TypeText) : Spells ("is " ++ type.text)
    (.node .isTypePattern [.leaf ⟨.kwIs, "is"⟩, blankTree, type.tree]) := by
  have hlex : lex "is" = [⟨.kwIs, "is"⟩] := Lexer.lex_word rfl rfl nofun
  have his : Spells "is" (.leaf ⟨.kwIs, "is"⟩) := .of_token hlex rfl (by decide)
  have htext : "is " ++ type.text = "is" ++ (" " ++ type.text) := by
    rw [← String.append_assoc]
    rfl
  rw [htext]
  exact ⟨.node his.snug (.trivia rfl (.cons type.spells.snug .nil)),
    .node (his.written.spaced type.spells)⟩

theorem spells_cast (x : Slot) (type : TypeText) : Spells (x.text ++ " as " ++ type.text)
    (.node .asPattern [x.tree, blankTree, .leaf ⟨.kwAs, "as"⟩, blankTree, type.tree]) := by
  have hlex : lex "as" = [⟨.kwAs, "as"⟩] := Lexer.lex_word rfl rfl nofun
  have has : Spells "as" (.leaf ⟨.kwAs, "as"⟩) := .of_token hlex rfl (by decide)
  have htext : x.text ++ " as " ++ type.text = x.text ++ (" " ++ "as") ++ (" " ++ type.text) := by
    have hword : " as " = " " ++ "as" ++ " " := rfl
    simp only [hword, String.append_assoc]
  rw [htext]
  exact ⟨.node x.spells.snug (.trivia rfl (.cons has.snug (.trivia rfl (.cons type.spells.snug .nil)))),
    .node ((x.spells.written.spaced has).spaced type.spells)⟩

/-- Every pattern's text is written for its tree. -/
theorem Spelled.spells (p : Spelled) : Spells p.text p.tree := by
  cases p with
  | member p => exact p.spells.node
  | call p es => exact spells_call p Argument.spells es
  | bindsMember w p => exact w.spells_binds p.spells.node
  | bindsCall w p es => exact w.spells_binds (spells_call p Slot.spells es)
  | bindsTuple w es => exact w.spells_binds (spells_list Slot.spells _ _ es)
  | binds w x => exact w.spells_binds x.spells
  | bindsCast w x type => exact w.spells_binds (spells_cast x type)
  | typeTest type => exact spells_typeTest type

/-- The tokens of a `switch` are those of its tree. -/
theorem lex_inSwitch (p : Spelled) : lex p.inSwitch = (switchTree p.tree).leaves := by
  have hfront : lex "switch v \x7b case" = forestLeaves [.leaf ⟨.kwSwitch, "switch"⟩, blankTree,
      .leaf ⟨.ident, "v"⟩, blankTree, .leaf ⟨.lBrace, "\x7b"⟩, blankTree,
      .leaf ⟨.kwCase, "case"⟩] := by decide +kernel
  have hend : lex ": break \x7d" = [⟨.colon, ":"⟩, ⟨.whitespace, " "⟩, ⟨.kwBreak, "break"⟩,
      ⟨.whitespace, " "⟩, ⟨.rBrace, "\x7d"⟩] := by decide +kernel
  have hclosed : ∀ t ∈ (lex "switch v \x7b case").getLast?, Closed t := by
    rw [hfront]
    exact fun t ht => Option.some.inj ht ▸ ⟨by decide, by decide, by decide⟩
  have hwritten :=
    (Written.of_lex hfront (by rw [hfront]; decide) hclosed).spaced p.spells
  have htext : p.inSwitch = "switch v \x7b case" ++ (" " ++ p.text) ++ ": break \x7d" := by
    show "switch v \x7b case " ++ p.text ++ ": break \x7d" = _
    rw [← String.append_assoc]
    rfl
  have htokens := hwritten ": break \x7d".toList (.of_mem (by decide) _)
  rw [← String.toList_append, ← htext] at htokens
  show tokensOf _ = _
  rw [htokens]
  show _ ++ lex ": break \x7d" = _
  rw [hend]
  simp only [switchTree, caseTree, caseLabel, forestLeaves, leaves, blankTree, List.append_nil,
    List.nil_append, List.cons_append, List.append_assoc]

/-- The `switch` is parsed without problems. -/
theorem parse_inSwitch (p : Spelled) :
    parse p.inSwitch = ⟨.node .sourceFile [switchTree p.tree], []⟩ := by
  have hpattern := p.isPattern
  refine Grammar.parse_of_recovers (recovers_switch hpattern) (snug_switchTree hpattern.snug) ?_
    (lex_inSwitch p)
  intro v hv
  have hkind : v.kind = .kwSwitch := hv
  simp [View.atEnd, Grammar.endsItems, hkind]

end CasePattern

end SwiftOutline
