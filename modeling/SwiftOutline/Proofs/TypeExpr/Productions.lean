/-
  SwiftOutline.Proofs.TypeExpr.Productions

  What the parser of each kind of type makes of lexemes, given what the parsers
  inside it make of theirs.
-/
import SwiftOutline.Proofs.Parser.Kinds
import SwiftOutline.Proofs.Parser.Reads
import SwiftOutline.Proofs.TypeExpr.Outlook

namespace SwiftOutline

namespace Grammar

open SwiftOutline.Parser
open Lexeme (leaf)

variable {o a c d e l n q w : Lexeme} {ls ms rest : List Lexeme} {t u : Tree} {ts us vs : List Tree}
  {x y : Point}

/-! ## Brackets and commas -/

/-- One round of a list with commas. -/
def separatedRound (closer : TokenKind) (element : Parser Bool) : Parser Bool := do
  let v ← view
  if v.kind == closer || v.atEnd then pure false
  else if ← element then eat .comma
  else pure false

section Separated

variable {closer : TokenKind} {element : Parser Bool}

/-- A round whose element is followed by something else than a comma is the last one. -/
theorem reads_separatedRound_last (hfirst : Lookahead.headKind x.lexemes ≠ closer)
    (heof : Lookahead.headKind x.lexemes ≠ .eof) (h : Reads element true x y)
    (hcomma : Lookahead.headKind y.lexemes ≠ .comma) :
    Reads (separatedRound closer element) false x y := by
  refine .view fun v hv => ?_
  rw [View.atEnd, View.kind_eq, hv, if_neg (by simp [hfirst, heof])]
  refine h.bind ?_
  rw [if_pos rfl]
  exact Reads.eat_not hcomma

/-- A round whose element is followed by a comma is not the last one. -/
theorem readsOn_separatedRound (hfirst : Lookahead.headKind x.lexemes ≠ closer)
    (heof : Lookahead.headKind x.lexemes ≠ .eof) (h : Reads element true x ⟨a :: ls, ts⟩)
    (hcomma : a.kind = .comma) (hlt : ls.length < x.lexemes.length) :
    ReadsOn (separatedRound closer element) x ⟨ls, ts ++ [a.leaf]⟩ := by
  refine ⟨.view fun v hv => ?_, hlt⟩
  rw [View.atEnd, View.kind_eq, hv, if_neg (by simp [hfirst, heof])]
  refine h.bind ?_
  rw [if_pos rfl]
  exact Reads.eat hcomma (by decide)

theorem reads_separatedRound_none (h : Lookahead.headKind x.lexemes = closer) :
    Reads (separatedRound closer element) false x x := by
  refine .view fun v hv => ?_
  rw [View.kind_eq, hv, if_pos (by simp [h])]
  exact Reads.pure

end Separated

/-! ## Names -/

theorem reads_joinedGenericArguments_none (h : Lookahead.seesJoined .lt ls = false) :
    Reads joinedGenericArguments () ⟨ls, ts⟩ ⟨ls, ts⟩ := by
  refine .seesJoined (by decide) ?_
  rw [h, if_neg (by decide)]
  exact Reads.pure

theorem reads_joinedGenericArguments (opens : o.kind = .lt) (joined : o.IsJoined)
    (closes : c.kind = .gt)
    (h : ReadsAll (separatedRound .gt (node .genericArgument (follow .type))) ⟨ls, []⟩
      ⟨c :: rest, us⟩) :
    Reads joinedGenericArguments () ⟨o :: ls, []⟩
      ⟨rest, [.node .genericArgumentClause (o.leaf :: (us ++ [c.leaf]))]⟩ := by
  have hsees : Lookahead.seesJoined .lt (o :: ls) = true := by
    have hjoined : o.gap.trivia = false := joined
    simp [Lookahead.seesJoined, opens, hjoined]
  refine .seesJoined (by decide) ?_
  rw [hsees, if_pos rfl]
  refine Reads.node [] ?_
  refine (Reads.bump (by simp [opens])).bind ?_
  refine (h.onto [o.leaf]).repeating.bind ?_
  exact Reads.require closes (by decide)

/-- One member of a name. -/
def nameMember : Parser Bool := do
  let v ← view
  if v.kind == .dot && (v.kindAt 1 == .ident || v.kindAt 1 == .kwCapitalSelf)
      && !v.spellsAt 1 "Type" && !v.spellsAt 1 "Protocol" then
    bump
    bump
    joinedGenericArguments
    pure true
  else
    pure false

theorem simpleType_eq :
    simpleType = node .simpleType (do bump; joinedGenericArguments; repeating nameMember) := rfl

/-- Whether a member of a name comes next. -/
def atMember (ls : List Lexeme) : Bool :=
  Lookahead.headKind ls == .dot
    && (Lookahead.headKind (ls.drop 1) == .ident
      || Lookahead.headKind (ls.drop 1) == .kwCapitalSelf)
    && !Lookahead.spells "Type" (ls.drop 1) && !Lookahead.spells "Protocol" (ls.drop 1)

theorem reads_nameMember_none (h : atMember ls = false) :
    Reads nameMember false ⟨ls, ts⟩ ⟨ls, ts⟩ := by
  refine .view fun v hv => ?_
  rw [View.kind_eq, View.kindAt_eq, View.spellsAt_eq, View.spellsAt_eq, hv]
  rw [← atMember, h, if_neg (by decide)]
  exact Reads.pure

theorem atMember_cons (dot : d.kind = .dot) (first : n.IsMemberName) :
    atMember (d :: n :: ls) = true := by
  rcases first with hn | ⟨hn, htype, hprotocol⟩
  · simp [atMember, Lookahead.headKind, Lookahead.spells, dot, hn]
  · simp [atMember, Lookahead.headKind, Lookahead.spells, dot, hn, htype, hprotocol]

theorem readsOn_nameMember (dot : d.kind = .dot) (first : n.IsMemberName)
    (h : Reads joinedGenericArguments () ⟨ls, []⟩ ⟨rest, us⟩) (hle : rest.length ≤ ls.length) :
    ReadsOn nameMember ⟨d :: n :: ls, []⟩ ⟨rest, d.leaf :: n.leaf :: us⟩ := by
  refine ⟨.view fun v hv => ?_, by simp only [List.length_cons]; omega⟩
  rw [View.kind_eq, View.kindAt_eq, View.spellsAt_eq, View.spellsAt_eq, hv]
  rw [← atMember, atMember_cons dot first, if_pos rfl]
  refine (Reads.bump (by simp [dot])).bind ?_
  refine (Reads.bump first.isWord.plain.2.2).bind ?_
  exact (h.onto [d.leaf, n.leaf]).bind Reads.pure

theorem reads_simpleType (first : n.kind ≠ .eof)
    (harguments : Reads joinedGenericArguments () ⟨ls, []⟩ ⟨ms, us⟩)
    (hmembers : ReadsMany nameMember ⟨ms, []⟩ ⟨rest, vs⟩) (hrest : atMember rest = false) :
    Reads simpleType () ⟨n :: ls, []⟩ ⟨rest, [.node .simpleType (n.leaf :: (us ++ vs))]⟩ := by
  rw [simpleType_eq]
  refine Reads.node [] ?_
  refine (Reads.bump first).bind ?_
  refine (harguments.onto [n.leaf]).bind ?_
  exact Reads.repeating (hmembers.onto (n.leaf :: us)) (reads_nameMember_none hrest)

/-! ## Types in brackets -/

theorem reads_array (opens : o.kind = .lBracket) (closes : c.kind = .rBracket)
    (h : Reads typeExpr true ⟨ls, []⟩ ⟨c :: rest, [t]⟩) :
    Reads collectionType () ⟨o :: ls, []⟩ ⟨rest, [.node .arrayType [o.leaf, t, c.leaf]]⟩ := by
  refine (Reads.node? [] ?_).bind Reads.pure
  refine (Reads.bump (by simp [opens])).bind ?_
  refine (Reads.follow' (r := .type) (h.onto [o.leaf])).bind ?_
  refine (Reads.eat_not (by simp [closes])).bind ?_
  refine (Reads.require closes (by decide)).bind ?_
  exact Reads.pure

theorem reads_dictionary (opens : o.kind = .lBracket) (colon : a.kind = .colon)
    (closes : c.kind = .rBracket) (hkey : Reads typeExpr true ⟨ls, []⟩ ⟨a :: ms, [t]⟩)
    (hvalue : Reads typeExpr true ⟨ms, []⟩ ⟨c :: rest, [u]⟩) :
    Reads collectionType () ⟨o :: ls, []⟩
      ⟨rest, [.node .dictionaryType [o.leaf, t, a.leaf, u, c.leaf]]⟩ := by
  refine (Reads.node? [] ?_).bind Reads.pure
  refine (Reads.bump (by simp [opens])).bind ?_
  refine (Reads.follow' (r := .type) (hkey.onto [o.leaf])).bind ?_
  refine (Reads.eat colon (by decide)).bind ?_
  refine (Reads.follow' (r := .type) (hvalue.onto [o.leaf, t, a.leaf])).bind ?_
  refine (Reads.require closes (by decide)).bind ?_
  exact Reads.pure

theorem reads_tupleType (opens : o.kind = .lParen) (closes : c.kind = .rParen)
    (h : ReadsAll (separatedRound .rParen tupleTypeElement) ⟨ls, []⟩ ⟨c :: rest, us⟩) :
    Reads tupleType () ⟨o :: ls, []⟩ ⟨rest, [.node .tupleType (o.leaf :: (us ++ [c.leaf]))]⟩ := by
  refine Reads.node [] ?_
  refine (Reads.bump (by simp [opens])).bind ?_
  refine (h.onto [o.leaf]).repeating.bind ?_
  exact Reads.require closes (by decide)

/-! ## Elements of tuples -/

theorem reads_tupleTypeElement (hlabels : Reads labels () ⟨ls, []⟩ x)
    (htype : Reads (follow .type) true x ⟨rest, us⟩)
    (hdots : Lookahead.headKind rest ≠ .ellipsis) :
    Reads tupleTypeElement true ⟨ls, []⟩ ⟨rest, [.node .tupleTypeElement us]⟩ := by
  refine Reads.node [] ?_
  refine hlabels.bind ?_
  refine htype.bind ?_
  refine (Reads.eat_not hdots).bind ?_
  exact Reads.pure

theorem reads_tupleTypeElement_variadic (hlabels : Reads labels () ⟨ls, []⟩ x)
    (htype : Reads (follow .type) true x ⟨d :: rest, us⟩) (dots : d.kind = .ellipsis) :
    Reads tupleTypeElement true ⟨ls, []⟩
      ⟨rest, [.node .tupleTypeElement (us ++ [d.leaf])]⟩ := by
  refine Reads.node [] ?_
  refine hlabels.bind ?_
  refine htype.bind ?_
  refine (Reads.eat dots (by decide)).bind ?_
  exact Reads.pure

/-- Without a colon there is no label. -/
theorem reads_labels_none (h : Lexeme.ColonFree ls)
    (hlabel : (Lookahead.headKind rest).isArgumentLabel = false)
    (hcolon : Lookahead.headKind rest ≠ .colon) :
    Reads labels () ⟨ls ++ rest, []⟩ ⟨ls ++ rest, []⟩ := by
  refine .view fun v hv => ?_
  rw [View.kind_eq, View.kindAt_eq, View.kindAt_eq, hv]
  cases ls with
  | nil =>
    rw [if_neg (by simpa using hlabel)]
    exact Reads.pure
  | cons l ls =>
    split
    · next hl =>
      have hls : Lexeme.ColonFree ls := h.tail (Lexeme.isWord_of_isArgumentLabel hl).plain.1
      rw [if_neg (by simpa using hls.headKind_ne hcolon), if_neg ?_]
      · exact Reads.pure
      · cases ls with
        | nil => simp [hlabel]
        | cons m ls =>
          have hm : m.kind.isArgumentLabel = true → Lookahead.headKind (ls ++ rest) ≠ .colon :=
            fun hm =>
              (hls.tail (Lexeme.isWord_of_isArgumentLabel hm).plain.1).headKind_ne hcolon
          simpa using hm
    · exact Reads.pure

theorem reads_labels_one (label : l.kind.isArgumentLabel = true) (colon : a.kind = .colon) :
    Reads labels () ⟨l :: a :: ls, []⟩ ⟨ls, [l.leaf, a.leaf]⟩ := by
  refine .view fun v hv => ?_
  rw [View.kind_eq, View.kindAt_eq, View.kindAt_eq, hv]
  rw [if_pos (by simpa using label),
    if_pos (by simp [colon])]
  refine (Reads.bump (Lexeme.isWord_of_isArgumentLabel label).plain.2.2).bind ?_
  exact Reads.bump (by simp [colon])

theorem reads_labels_two (outer : l.kind.isArgumentLabel = true)
    (label : n.kind.isArgumentLabel = true) (colon : a.kind = .colon) :
    Reads labels () ⟨l :: n :: a :: ls, []⟩ ⟨ls, [l.leaf, n.leaf, a.leaf]⟩ := by
  have hn : n.kind ≠ .colon := (Lexeme.isWord_of_isArgumentLabel label).ne_colon
  refine .view fun v hv => ?_
  rw [View.kind_eq, View.kindAt_eq, View.kindAt_eq, hv]
  rw [if_pos (by simpa using outer),
    if_neg (by simpa using hn),
    if_pos (by simp [colon, label])]
  refine (Reads.bump (Lexeme.isWord_of_isArgumentLabel outer).plain.2.2).bind ?_
  refine (Reads.bump (Lexeme.isWord_of_isArgumentLabel label).plain.2.2).bind ?_
  exact Reads.bump (by simp [colon])

/-! ## Marks -/

theorem reads_primaryType_simple (first : n.IsTypeName)
    (h : Reads simpleType () ⟨n :: ls, []⟩ y) : Reads primaryType true ⟨n :: ls, []⟩ y := by
  refine .kind ?_
  rcases first with hn | ⟨hn, -⟩
  · rw [Lookahead.headKind_cons, hn]
    exact h.bind Reads.pure
  · rw [Lookahead.headKind_cons, hn]
    exact h.bind Reads.pure

theorem reads_primaryType_collection (opens : o.kind = .lBracket)
    (h : Reads collectionType () ⟨o :: ls, []⟩ y) : Reads primaryType true ⟨o :: ls, []⟩ y := by
  refine .kind ?_
  rw [Lookahead.headKind_cons, opens]
  exact h.bind Reads.pure

theorem reads_primaryType_tuple (opens : o.kind = .lParen)
    (h : Reads tupleType () ⟨o :: ls, []⟩ y) : Reads primaryType true ⟨o :: ls, []⟩ y := by
  refine .kind ?_
  rw [Lookahead.headKind_cons, opens]
  exact h.bind Reads.pure

theorem readsOn_typeSuffix_optional (mark : q.kind = .question) (joined : q.IsJoined) :
    ReadsOn typeSuffix ⟨q :: rest, [t]⟩ ⟨rest, [.node .optionalType [t, q.leaf]]⟩ := by
  refine ⟨.view fun v hv => ?_, by simp⟩
  have hgap : v.gap = q.gap := by simp [View.gap, View.gapAt, hv]
  have hjoined : q.gap.trivia = false := joined
  rw [View.kind_eq, hv, Lookahead.headKind_cons, mark, hgap]
  dsimp only
  rw [if_neg (by simp [hjoined])]
  exact (Reads.wrap [] (Reads.bump (by simp [mark]))).bind Reads.pure

theorem readsOn_typeSuffix_unwrapped (mark : q.kind = .exclamation) (joined : q.IsJoined) :
    ReadsOn typeSuffix ⟨q :: rest, [t]⟩
      ⟨rest, [.node .implicitlyUnwrappedOptionalType [t, q.leaf]]⟩ := by
  refine ⟨.view fun v hv => ?_, by simp⟩
  have hgap : v.gap = q.gap := by simp [View.gap, View.gapAt, hv]
  have hjoined : q.gap.trivia = false := joined
  rw [View.kind_eq, hv, Lookahead.headKind_cons, mark, hgap]
  dsimp only
  rw [if_neg (by simp [hjoined])]
  exact (Reads.wrap [] (Reads.bump (by simp [mark]))).bind Reads.pure

theorem readsOn_typeSuffix_metatype (dot : d.kind = .dot)
    (word : w.Spells "Type" ∨ w.Spells "Protocol") :
    ReadsOn typeSuffix ⟨d :: w :: rest, [t]⟩
      ⟨rest, [.node .metatypeType [t, d.leaf, w.leaf]]⟩ := by
  have hword : w.kind = .ident ∧ (w.text = "Type" ∨ w.text = "Protocol") := by
    rcases word with h | h
    · exact ⟨h.1, .inl h.2⟩
    · exact ⟨h.1, .inr h.2⟩
  refine ⟨.view fun v hv => ?_, by simp only [List.length_cons]; omega⟩
  rw [View.kind_eq, View.spellsAt_eq, View.spellsAt_eq, hv, Lookahead.headKind_cons, dot]
  dsimp only
  rw [if_pos (by simpa [Lookahead.spells, hword.1] using hword.2)]
  refine Reads.bind (a := ()) (Reads.wrap [] ?_) Reads.pure
  exact (Reads.bump (by simp [dot])).bind (Reads.bump (by simp [hword.1]))

/-- What stands behind a type is no mark of it. -/
theorem reads_typeSuffix_none (hquestion : Lookahead.headKind ls ≠ .question)
    (hexclamation : Lookahead.headKind ls ≠ .exclamation) (hdot : Lookahead.headKind ls ≠ .dot) :
    Reads typeSuffix false ⟨ls, ts⟩ ⟨ls, ts⟩ := by
  refine .view fun v hv => ?_
  rw [View.kind_eq, hv]
  split
  · next h => exact absurd h hquestion
  · next h => exact absurd h hexclamation
  · next h => exact absurd h hdot
  · exact Reads.pure

/-- A type with its marks, which is not the input of a function. -/
theorem reads_postfixType (hprimary : Reads primaryType true ⟨ls, []⟩ x)
    (htail : Lookahead.headKind ls = .lParen → Lookahead.atFunctionTail x.lexemes = false)
    (hmarks : ReadsMany typeSuffix x y) (hstop : Reads typeSuffix false y y) :
    Reads postfixType true ⟨ls, []⟩ y := by
  refine .sees ?_
  refine hprimary.bind ?_
  rw [if_pos rfl]
  refine Reads.bind (a := ()) (.view fun v hv => ?_) Reads.pure
  rw [if_neg]
  · exact Reads.repeating hmarks hstop
  · rw [hv]
    simp only [Bool.and_eq_true, beq_iff_eq, not_and, Bool.not_eq_true]
    exact htail

/-! ## Functions -/

theorem readsOn_effectRound (h : e.IsEffect)
    (hrest : Lookahead.seesJoined .lParen rest = false) :
    ReadsOn effectRound ⟨e :: rest, []⟩ ⟨rest, [e.leaf]⟩ := by
  refine ⟨.view fun v hv => ?_, by simp⟩
  rw [hv]
  dsimp only
  rw [if_pos (Lexeme.atEffect_iff.mpr h)]
  refine (Reads.bump h.isWord.plain.2.2).bind ?_
  split
  · refine .seesJoined (by decide) ?_
    rw [hrest, if_neg (by decide)]
    exact Reads.pure
  · exact Reads.pure

theorem readsOn_effectRound_thrown (word : e.kind = .kwThrows ∨ e.kind = .kwRethrows)
    (opens : o.kind = .lParen) (joined : o.IsJoined) (closes : c.kind = .rParen)
    (h : Reads typeExpr true ⟨ls, []⟩ ⟨c :: rest, [t]⟩) (hlt : rest.length < ls.length) :
    ReadsOn effectRound ⟨e :: o :: ls, []⟩ ⟨rest, [e.leaf, o.leaf, t, c.leaf]⟩ := by
  have heffect : e.IsEffect := .inr (.inr word)
  have hsees : Lookahead.seesJoined .lParen (o :: ls) = true := by
    have hjoined : o.gap.trivia = false := joined
    simp [Lookahead.seesJoined, opens, hjoined]
  refine ⟨.view fun v hv => ?_, by simp only [List.length_cons]; omega⟩
  rw [hv]
  dsimp only
  rw [if_pos (Lexeme.atEffect_iff.mpr heffect), if_pos (Lexeme.atThrows_iff.mpr word)]
  refine (Reads.bump heffect.isWord.plain.2.2).bind ?_
  refine .seesJoined (by decide) ?_
  rw [hsees, if_pos rfl]
  refine (Reads.bump (by simp [opens])).bind ?_
  refine (Reads.follow' (r := .type) (h.onto [e.leaf, o.leaf])).bind ?_
  exact (Reads.require closes (by decide)).bind Reads.pure

theorem reads_effectRound_none (h : Lookahead.atEffect ls = false) :
    Reads effectRound false ⟨ls, ts⟩ ⟨ls, ts⟩ := by
  refine .view fun v hv => ?_
  rw [hv]
  dsimp only
  rw [h, if_neg (by decide)]
  exact Reads.pure

theorem reads_effects_none (h : Lookahead.atEffect ls = false) :
    Reads effects () ⟨ls, ts⟩ ⟨ls, ts⟩ := by
  refine .view fun v hv => ?_
  rw [hv, h, if_neg (by decide)]
  exact Reads.pure

theorem reads_effects (hfirst : Lookahead.atEffect ls = true)
    (h : ReadsMany effectRound ⟨ls, []⟩ ⟨rest, us⟩) (hrest : Lookahead.atEffect rest = false) :
    Reads effects () ⟨ls, ts⟩ ⟨rest, ts ++ [Tree.node .effectSpecifiers us]⟩ := by
  refine .view fun v hv => ?_
  rw [hv, hfirst, if_pos rfl, effectSpecifiers_eq]
  exact Reads.node _ (Reads.repeating h (reads_effectRound_none hrest))

theorem reads_returnClause (arrow : a.kind = .arrow)
    (h : Reads typeExpr true ⟨ls, []⟩ ⟨rest, [u]⟩) :
    Reads returnClause () ⟨a :: ls, ts⟩ ⟨rest, ts ++ [Tree.node .returnClause [a.leaf, u]]⟩ := by
  refine Reads.node _ ?_
  refine (Reads.bump (by simp [arrow])).bind ?_
  exact Reads.follow' (r := .type) (h.onto [a.leaf])

/-- A function type: its input, and then its effects and its result. -/
theorem reads_postfixType_function (opens : o.kind = .lParen)
    (hinput : Reads tupleType () ⟨o :: ls, []⟩ ⟨ms, [t]⟩)
    (htail : Lookahead.atFunctionTail ms = true)
    (heffects : Reads effects () ⟨ms, [t]⟩ x)
    (hreturn : Reads returnClause () x ⟨rest, t :: vs⟩)
    (hstop : Reads typeSuffix false ⟨rest, [.node .functionType (t :: vs)]⟩
      ⟨rest, [.node .functionType (t :: vs)]⟩) :
    Reads postfixType true ⟨o :: ls, []⟩ ⟨rest, [.node .functionType (t :: vs)]⟩ := by
  refine .sees ?_
  refine (reads_primaryType_tuple opens hinput).bind ?_
  rw [if_pos rfl]
  refine Reads.bind (a := ()) (.view fun v hv => ?_) Reads.pure
  rw [hv, htail, if_pos (by simp [opens])]
  refine Reads.bind (a := ()) (Reads.wrap [] ?_) (Reads.repeating_not hstop)
  exact heffects.bind hreturn

/-! ## Compositions -/

theorem readsOn_joinedType (amp : a.kind = .amp)
    (h : Reads postfixType true ⟨ls, []⟩ ⟨rest, [t]⟩) (hle : rest.length ≤ ls.length) :
    ReadsOn joinedType ⟨a :: ls, []⟩ ⟨rest, [a.leaf, t]⟩ := by
  refine ⟨?_, by simp only [List.length_cons]; omega⟩
  refine (Reads.eat amp (by decide)).bind ?_
  rw [if_pos rfl]
  exact (h.onto [a.leaf]).bind Reads.pure

theorem reads_joinedType_none (h : Lookahead.headKind ls ≠ .amp) :
    Reads joinedType false ⟨ls, ts⟩ ⟨ls, ts⟩ := by
  refine (Reads.eat_not h).bind ?_
  rw [if_neg (by decide)]
  exact Reads.pure

theorem reads_compositionType_single (h : Reads postfixType true ⟨ls, []⟩ ⟨rest, [t]⟩)
    (hrest : Lookahead.headKind rest ≠ .amp) :
    Reads compositionType true ⟨ls, []⟩ ⟨rest, [t]⟩ := by
  refine h.bind ?_
  rw [if_pos rfl]
  refine .sees ?_
  rw [if_neg (by simp [hrest])]
  exact Reads.pure

theorem reads_compositionType (h : Reads postfixType true ⟨ls, []⟩ ⟨ms, [t]⟩)
    (hms : Lookahead.headKind ms = .amp) (hmore : ReadsMany joinedType ⟨ms, []⟩ ⟨rest, us⟩)
    (hrest : Lookahead.headKind rest ≠ .amp) :
    Reads compositionType true ⟨ls, []⟩ ⟨rest, [.node .compositionType (t :: us)]⟩ := by
  refine h.bind ?_
  rw [if_pos rfl]
  refine .sees ?_
  rw [if_pos (by simp [hms])]
  refine Reads.bind (a := ()) (Reads.wrap [] ?_) Reads.pure
  exact Reads.repeating (hmore.onto [t]) (reads_joinedType_none hrest)

end Grammar

end SwiftOutline
