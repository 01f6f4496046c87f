/-
  SwiftOutline.Proofs.TypeExpr.Prefix

  What the parser makes of attributes, of specifiers and of the type that they
  stand in front of. Arguments of an attribute are not looked into: a bracketed
  group is taken as a whole.
-/
import SwiftOutline.Proofs.TypeExpr.Productions

namespace SwiftOutline

namespace Grammar

open SwiftOutline.Parser
open Lexeme (leaf)

variable {o a c d l n w : Lexeme} {inner ls ms ns rest : List Lexeme} {t : Tree}
  {ts us vs ws : List Tree} {y : Point} {v : View}

/-! ## Bracketed groups -/

theorem reads_bumpInside_again {depth deeper : Nat} (hl : l.kind ≠ .eof)
    (hdepth : depthAfter depth l.kind = deeper + 1) :
    Reads (bumpInside depth) (.again (deeper + 1)) ⟨l :: ls, ts⟩ ⟨ls, ts ++ [l.leaf]⟩ := by
  refine .view fun v hv => ?_
  rw [View.atEnd, View.kind_eq, hv, Lookahead.headKind_cons, if_neg (by simp [hl])]
  refine (Reads.bump hl).bind ?_
  rw [hdepth]
  exact Reads.pure

theorem reads_bumpInside_stop {depth : Nat} (hl : l.kind ≠ .eof)
    (hdepth : depthAfter depth l.kind = 0) :
    Reads (bumpInside depth) (.stop 0) ⟨l :: ls, ts⟩ ⟨ls, ts ++ [l.leaf]⟩ := by
  refine .view fun v hv => ?_
  rw [View.atEnd, View.kind_eq, hv, Lookahead.headKind_cons, if_neg (by simp [hl])]
  refine (Reads.bump hl).bind ?_
  rw [hdepth]
  exact Reads.pure

/-- Balanced lexemes inside brackets are consumed. -/
theorem loops_bumpInside_nested (h : Lexeme.Nested ls) (depth : Nat) (ts : List Tree)
    (hrest : Loops bumpInside 0 (depth + 1) ⟨rest, ts ++ ls.map leaf⟩ y) :
    Loops bumpInside 0 (depth + 1) ⟨ls ++ rest, ts⟩ y := by
  induction h generalizing depth ts rest with
  | nil => simpa using hrest
  | @plain l ls first _ ih =>
    have hdepth : depthAfter (depth + 1) l.kind = depth + 1 := by
      simp [depthAfter, first.1, first.2.1]
    refine .again (reads_bumpInside_again first.2.2 hdepth) (by simp) (ih depth _ ?_)
    simpa using hrest
  | @group o c inner ls opens _ closes _ ihinner ih =>
    have hopen := Lexeme.ne_eof_of_isOpener opens
    have hclose := Lexeme.ne_eof_of_isCloser closes
    have hdepth : depthAfter (depth + 1) o.kind = depth + 1 + 1 := by simp [depthAfter, opens]
    have hback : depthAfter (depth + 1 + 1) c.kind = depth + 1 := by
      simp [depthAfter, closes, Lexeme.isOpener_of_isCloser closes]
    have hlist : o :: (inner ++ c :: ls) ++ rest = o :: (inner ++ c :: (ls ++ rest)) := by simp
    rw [hlist]
    refine .again (reads_bumpInside_again hopen hdepth) (by simp) (ihinner (depth + 1) _ ?_)
    refine .again (reads_bumpInside_again hclose hback) (by simp) (ih depth _ ?_)
    simpa using hrest

/-- One lexeme outside brackets is consumed alone. -/
theorem reads_bumpBalanced_plain (hl : l.IsPlain) :
    Reads bumpBalanced () ⟨l :: ls, ts⟩ ⟨ls, ts ++ [l.leaf]⟩ := by
  have hdepth : depthAfter 0 l.kind = 0 := by simp [depthAfter, hl.1, hl.2.1]
  exact Reads.loop (.stop (reads_bumpInside_stop hl.2.2 hdepth)) Reads.pure

/-- A bracketed group is consumed as a whole. -/
theorem reads_bumpBalanced_group (opens : o.kind.isOpener = true) (inside : Lexeme.Nested inner)
    (closes : c.kind.isCloser = true) :
    Reads bumpBalanced () ⟨o :: (inner ++ c :: ls), ts⟩
      ⟨ls, ts ++ (o :: (inner ++ [c])).map leaf⟩ := by
  have hopen := Lexeme.ne_eof_of_isOpener opens
  have hclose := Lexeme.ne_eof_of_isCloser closes
  have hdepth : depthAfter 0 o.kind = 0 + 1 := by simp [depthAfter, opens]
  have hback : depthAfter (0 + 1) c.kind = 0 := by
    simp [depthAfter, closes, Lexeme.isOpener_of_isCloser closes]
  refine Reads.loop (z := 0) (.again (reads_bumpInside_again hopen hdepth) (by simp) ?_) Reads.pure
  have hstop : Reads (bumpInside (0 + 1)) (.stop 0) ⟨c :: ls, ts ++ [o.leaf] ++ inner.map leaf⟩
      ⟨ls, ts ++ [o.leaf] ++ inner.map leaf ++ [c.leaf]⟩ := reads_bumpInside_stop hclose hback
  refine loops_bumpInside_nested inside 0 _ (.stop ?_)
  simpa using hstop

/-! ## Arguments -/

theorem reads_attributeArgumentPart (h : Reads bumpBalanced () ⟨l :: ls, ts⟩ y)
    (hl : l.BeginsArgument) : Reads attributeArgumentPart true ⟨l :: ls, ts⟩ y := by
  have hkinds : l.kind ≠ .comma ∧ l.kind ≠ .rParen ∧ l.kind ≠ .eof := by
    rcases hl with hopen | ⟨⟨-, hclose, heof⟩, hcomma⟩
    · refine ⟨?_, ?_, ?_⟩ <;> intro hk <;> rw [hk] at hopen <;> cases hopen
    · refine ⟨hcomma, ?_, heof⟩
      intro hk
      rw [hk] at hclose
      cases hclose
  refine .kind ?_
  rw [Lookahead.headKind_cons]
  split
  · next hk => exact absurd hk hkinds.1
  · next hk => exact absurd hk hkinds.2.1
  · next hk => exact absurd hk hkinds.2.2
  · exact h.bind Reads.pure

theorem readsMany_attributeArgumentPart (h : Lexeme.Argument ls) (ts : List Tree) :
    ReadsMany attributeArgumentPart ⟨ls ++ rest, ts⟩ ⟨rest, ts ++ ls.map leaf⟩ := by
  induction h generalizing ts with
  | nil => simpa using ReadsMany.refl
  | @plain l ls first comma _ ih =>
    have hround : ReadsOn attributeArgumentPart ⟨l :: (ls ++ rest), ts⟩
        ⟨ls ++ rest, ts ++ [l.leaf]⟩ :=
      ⟨reads_attributeArgumentPart (reads_bumpBalanced_plain first) (.inr ⟨first, comma⟩), by simp⟩
    simpa using (ReadsMany.single hround).trans (ih _)
  | @group o c inner ls opens inside closes _ ih =>
    have hround : ReadsOn attributeArgumentPart ⟨o :: (inner ++ c :: (ls ++ rest)), ts⟩
        ⟨ls ++ rest, ts ++ (o :: (inner ++ [c])).map leaf⟩ :=
      ⟨reads_attributeArgumentPart (reads_bumpBalanced_group opens inside closes) (.inl opens),
        by simp only [List.length_cons, List.length_append]; omega⟩
    simpa using (ReadsMany.single hround).trans (ih _)

/-- An argument of an attribute ends before a comma or a parenthesis. -/
theorem reads_attributeArgument (h : Lexeme.Argument (l :: ls))
    (hrest : Lookahead.headKind rest = .comma ∨ Lookahead.headKind rest = .rParen) :
    Reads attributeArgument () ⟨l :: ls ++ rest, []⟩
      ⟨rest, [.node .attributeArgument ((l :: ls).map leaf)]⟩ := by
  have hstop : ∀ ts, Reads attributeArgumentPart false ⟨rest, ts⟩ ⟨rest, ts⟩ := by
    intro ts
    refine .kind ?_
    rcases hrest with hk | hk
    · rw [hk]
      exact Reads.pure
    · rw [hk]
      exact Reads.pure
  refine Reads.node [] (.view fun v hv => ?_)
  rw [View.kind_eq, View.kindAt_eq, hv]
  split
  · next hlabel =>
    simp only [Bool.and_eq_true, beq_iff_eq] at hlabel
    obtain ⟨hname, hcolon⟩ := hlabel
    have hl : l.IsWord := Lexeme.isWord_of_isNameLike hname
    cases ls with
    | nil =>
      change Lookahead.headKind rest = .colon at hcolon
      rcases hrest with hk | hk <;> rw [hk] at hcolon <;> cases hcolon
    | cons a ls =>
      have ha : a.IsPlain := Lexeme.isPlain_of_colon hcolon
      refine (Reads.bump hl.plain.2.2).bind ?_
      refine (Reads.bump ha.2.2).bind ?_
      exact Reads.repeating
        (readsMany_attributeArgumentPart ((h.tail hl.plain.1).tail ha.1) [l.leaf, a.leaf]) (hstop _)
  · exact Reads.repeating (readsMany_attributeArgumentPart h []) (hstop _)

theorem reads_joinedAttributeArguments_none (h : Lookahead.seesJoined .lParen ls = false) :
    Reads joinedAttributeArguments () ⟨ls, ts⟩ ⟨ls, ts⟩ := by
  refine .seesJoined (by decide) ?_
  rw [h, if_neg (by decide)]
  exact Reads.pure

theorem reads_joinedAttributeArguments (opens : o.kind = .lParen) (joined : o.IsJoined)
    (closes : c.kind = .rParen)
    (h : ReadsAll (separatedRound .rParen (do attributeArgument; pure true)) ⟨ls, []⟩
      ⟨c :: rest, us⟩) :
    Reads joinedAttributeArguments () ⟨o :: ls, []⟩
      ⟨rest, [.node .attributeArguments (o.leaf :: (us ++ [c.leaf]))]⟩ := by
  have hsees : Lookahead.seesJoined .lParen (o :: ls) = true := by
    have hjoined : o.gap.trivia = false := joined
    simp [Lookahead.seesJoined, opens, hjoined]
  refine .seesJoined (by decide) ?_
  rw [hsees, if_pos rfl]
  refine Reads.node [] ?_
  refine (Reads.bump (by simp [opens])).bind ?_
  refine (h.onto [o.leaf]).repeating.bind ?_
  exact Reads.require closes (by decide)

/-! ## Attributes -/

theorem readsOn_attributeMember (dot : d.kind = .dot) (name : n.kind.isNameLike = true) :
    ReadsOn attributeMember ⟨d :: n :: ls, []⟩ ⟨ls, [d.leaf, n.leaf]⟩ := by
  refine ⟨.view fun v hv => ?_, by simp only [List.length_cons]; omega⟩
  rw [View.kind_eq, View.kindAt_eq, hv, if_pos (by simp [dot, name])]
  refine (Reads.bump (by simp [dot])).bind ?_
  exact (Reads.bump (Lexeme.isWord_of_isNameLike name).plain.2.2).bind Reads.pure

theorem reads_attributeMember_none (h : Lookahead.headKind ls ≠ .dot) :
    Reads attributeMember false ⟨ls, ts⟩ ⟨ls, ts⟩ := by
  refine .view fun v hv => ?_
  rw [View.kind_eq, hv, if_neg (by simp [h])]
  exact Reads.pure

theorem readsOn_nextAttribute (sign : a.kind = .atSign) (name : n.kind.isNameLike = true)
    (hpath : ReadsMany attributeMember ⟨ls, []⟩ ⟨ms, us⟩) (hms : Lookahead.headKind ms ≠ .dot)
    (harguments : Reads joinedGenericArguments () ⟨ms, []⟩ ⟨ns, vs⟩)
    (happlication : Reads joinedAttributeArguments () ⟨ns, []⟩ ⟨rest, ws⟩)
    (hle : rest.length ≤ ls.length) :
    ReadsOn nextAttribute ⟨a :: n :: ls, []⟩
      ⟨rest, [.node .attributeUse (a.leaf :: n.leaf :: (us ++ (vs ++ ws)))]⟩ := by
  refine ⟨.sees ?_, by simp only [List.length_cons]; omega⟩
  rw [Lookahead.headKind_cons, if_pos (by simp [sign])]
  refine Reads.bind (a := ()) (Reads.node [] ?_) Reads.pure
  refine (Reads.bump (by simp [sign])).bind (.kind ?_)
  rw [Lookahead.headKind_cons, if_pos name]
  refine (Reads.bump (Lexeme.isWord_of_isNameLike name).plain.2.2).bind ?_
  refine (Reads.repeating (hpath.onto [a.leaf, n.leaf]) (reads_attributeMember_none hms)).bind ?_
  refine (harguments.onto _).bind ?_
  simpa using happlication.onto ([a.leaf, n.leaf] ++ us ++ vs)

theorem reads_nextAttribute_none (h : Lookahead.headKind ls ≠ .atSign) :
    Reads nextAttribute false ⟨ls, ts⟩ ⟨ls, ts⟩ := by
  refine .sees ?_
  rw [if_neg (by simp [h])]
  exact Reads.pure

theorem reads_attributes (hfirst : Lookahead.headKind ls = .atSign)
    (h : ReadsMany nextAttribute ⟨ls, []⟩ ⟨rest, us⟩) (hrest : Lookahead.headKind rest ≠ .atSign) :
    Reads attributes () ⟨ls, ts⟩ ⟨rest, ts ++ [Tree.node .attributeList us]⟩ := by
  refine .sees ?_
  rw [if_pos (by simp [hfirst])]
  exact Reads.node _ (Reads.repeating h (reads_nextAttribute_none hrest))

theorem reads_attributes_none (h : Lookahead.headKind ls ≠ .atSign) :
    Reads attributes () ⟨ls, ts⟩ ⟨ls, ts⟩ := by
  refine .sees ?_
  rw [if_neg (by simp [h])]
  exact Reads.pure

/-! ## Prefixes -/

/-- Behind a specifying word a type or an attribute has to begin. -/
theorem atTypeSpecifier_of_isSpecifier (hv : v.lexemes = l :: ls) (h : l.IsSpecifier)
    (hnext : l.kind = .ident →
      beginsType (Lookahead.headKind ls) = true ∨ Lookahead.headKind ls = .atSign) :
    atTypeSpecifier v = true := by
  have htext : v.text = l.text := by simp [View.text, View.textAt, hv]
  rw [atTypeSpecifier, View.kind_eq, View.kindAt_eq, hv, htext]
  rcases h with hk | ⟨hk, hword⟩
  · simp [hk]
  · rcases hnext hk with hnext | hnext
    · simp [hk, hword, hnext]
    · simp [hk, hword, hnext]

theorem atTypeSpecifier_of_not (hv : v.lexemes = l :: ls) (h : ¬ l.IsSpecifier) :
    atTypeSpecifier v = false := by
  have htext : v.text = l.text := by simp [View.text, View.textAt, hv]
  rw [Lexeme.IsSpecifier, not_or, not_and] at h
  rw [atTypeSpecifier, View.kind_eq, hv, htext]
  cases hk : l.kind == .ident with
  | false => simp [h.1, hk]
  | true => simp [h.2 (by simpa using hk), h.1]

theorem readsOn_typeSpecifier (h : l.IsSpecifier)
    (hnext : l.kind = .ident →
      beginsType (Lookahead.headKind ls) = true ∨ Lookahead.headKind ls = .atSign) :
    ReadsOn typeSpecifier ⟨l :: ls, []⟩ ⟨ls, [l.leaf]⟩ := by
  refine ⟨.view fun v hv => ?_, by simp⟩
  rw [atTypeSpecifier_of_isSpecifier hv h hnext, if_pos rfl]
  exact (Reads.bump h.isWord.plain.2.2).bind Reads.pure

theorem reads_typeSpecifier_none (h : ¬ l.IsSpecifier) :
    Reads typeSpecifier false ⟨l :: ls, ts⟩ ⟨l :: ls, ts⟩ := by
  refine .view fun v hv => ?_
  rw [atTypeSpecifier_of_not hv h, if_neg (by decide)]
  exact Reads.pure

/-- A type with specifiers, attributes or both in front. -/
theorem reads_typeExpr_prefixed
    (hfirst : ∀ v : View, v.lexemes = ls → (atTypeSpecifier v || v.kind == .atSign) = true)
    (hspecifiers : Reads (repeating typeSpecifier) () ⟨ls, []⟩ ⟨ms, us⟩)
    (hattributes : Reads attributes () ⟨ms, us⟩ ⟨ns, vs⟩)
    (hinner : Reads typeExpr true ⟨ns, []⟩ ⟨rest, [t]⟩) :
    Reads typeExpr true ⟨ls, []⟩ ⟨rest, [.node .attributedType (vs ++ [t])]⟩ := by
  refine .view fun v hv => ?_
  rw [if_pos (hfirst v hv)]
  refine Reads.bind (a := ()) (Reads.node [] ?_) Reads.pure
  refine hspecifiers.bind (hattributes.bind ?_)
  exact Reads.follow' (r := .type) (hinner.onto vs)

theorem beginsType_of_beginsBare (h : l.BeginsBare) : beginsType l.kind = true := by
  have hmem := h.kind_mem
  revert hmem
  cases l.kind <;> decide

/-- Without anything in front a type is a composition. -/
theorem reads_typeExpr_composition (hl : l.BeginsOperand)
    (h : Reads compositionType true ⟨l :: ls, []⟩ y) : Reads typeExpr true ⟨l :: ls, []⟩ y := by
  have hword : Lookahead.spells "some" (l :: ls) = false ∧
      Lookahead.spells "any" (l :: ls) = false := by
    rcases hl with (h | ⟨h, -, hsome, hany⟩) | h | h <;> simp_all [Lookahead.spells]
  refine .view fun v hv => ?_
  have hatSign : l.kind ≠ .atSign := by
    intro hk
    have hmem := hl.kind_mem
    rw [hk] at hmem
    exact absurd hmem (by decide)
  have hspecifier : ¬ l.IsSpecifier := Lexeme.BeginsBare.not_isSpecifier (.inl hl)
  rw [atTypeSpecifier_of_not hv hspecifier, View.kind_eq, hv, if_neg (by simpa using hatSign)]
  rw [View.spells_eq, View.spells_eq, hv, hword.1, hword.2, if_neg (by simp)]
  exact h

theorem reads_typeExpr_someOrAny (word : w.Spells "some" ∨ w.Spells "any")
    (line : l.gap.newline = false) (hl : l.BeginsOperand)
    (h : Reads compositionType true ⟨l :: ls, []⟩ ⟨rest, [t]⟩) :
    Reads typeExpr true ⟨w :: l :: ls, []⟩ ⟨rest, [.node .someOrAnyType [w.leaf, t]]⟩ := by
  have hkind : w.kind = .ident := word.elim And.left And.left
  have hspecifier : ¬ w.IsSpecifier := by
    rintro (hk | ⟨-, hmem⟩)
    · simp [hkind] at hk
    · rcases word with ⟨-, h⟩ | ⟨-, h⟩ <;> rw [h] at hmem <;> exact absurd hmem (by decide)
  have hword : (Lookahead.spells "some" (w :: l :: ls) || Lookahead.spells "any" (w :: l :: ls)) =
      true := by
    rcases word with ⟨-, h⟩ | ⟨-, h⟩ <;> simp [Lookahead.spells, hkind, h]
  refine .view fun v hv => ?_
  have hgap : v.gapAt 1 = l.gap := by simp [View.gapAt, hv]
  rw [atTypeSpecifier_of_not hv hspecifier, View.kind_eq, hv,
    if_neg (by simp [hkind])]
  rw [View.spells_eq, View.spells_eq, hv, hword, View.kindAt_eq, hv, hgap, line,
    if_pos (by simpa using beginsType_of_beginsBare (.inl hl))]
  refine Reads.bind (a := ()) (Reads.node [] ?_) Reads.pure
  refine (Reads.bump (by simp [hkind])).bind ?_
  exact (h.onto [w.leaf]).bind Reads.pure

end Grammar

end SwiftOutline
