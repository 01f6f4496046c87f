/-
  SwiftOutline.Proofs.Parser.Introduced

  Looking ahead and parsing agree. What a bracketed group, an attribute and the
  modifiers of a declaration are made of is skipped on the lexemes ahead to find
  out what is declared, and is parsed into nodes afterwards; both end at the same
  lexeme, which is the word that the declaration begins with.
-/
import SwiftOutline.Proofs.Parser.Passes
import SwiftOutline.Proofs.Progress.Lookahead
import SwiftOutline.Proofs.TypeExpr.Outlook
import SwiftOutline.Token.Lexer

namespace SwiftOutline

open Lexeme (Nested Argument IsPlain)

theorem Lexeme.ne_rParen_of_isPlain {l : Lexeme} (h : l.IsPlain) : l.kind ≠ .rParen := by
  intro hk
  have hclose := h.2.1
  rw [hk] at hclose
  cases hclose

/-! ## Attributes -/

namespace Lookahead

/-- Behind the `@` and the name of the attribute that begins with the first lexeme. -/
def skipAttributeName (ls : List Lexeme) : List Lexeme :=
  if (headKind (ls.drop 1)).isNameLike then skipMembers (ls.drop 2) else ls.drop 1

/-- An attribute without generic arguments comes next. If arguments in parentheses directly follow
    its name, they are closed, and so is every bracket inside. -/
structure PlainAttribute (ls : List Lexeme) : Prop where
  begins : headKind ls = .atSign
  noGenerics : seesJoined .lt (skipAttributeName ls) = false
  closed : seesJoined .lParen (skipAttributeName ls) = true →
    ∃ o inner c rest, skipAttributeName ls = o :: (inner ++ c :: rest) ∧ Nested inner ∧
      c.kind = .rParen

/-- All attributes that come next are plain. -/
inductive PlainAttributes : List Lexeme → Prop where
  | nil {ls : List Lexeme} (h : headKind ls ≠ .atSign) : PlainAttributes ls
  | cons {ls : List Lexeme} (first : PlainAttribute ls)
      (rest : PlainAttributes (skipAttribute ls)) : PlainAttributes ls

variable {ls rest : List Lexeme}

theorem skipBalanced_plain {l : Lexeme} (h : l.IsPlain) : skipBalanced 0 (l :: ls) = ls := by
  rw [skipBalanced, if_neg (by simpa using h.2.2)]
  simp [Parser.depthAfter, h.1, h.2.1]

theorem skipAttribute_of_plain (h : PlainAttribute ls) :
    skipAttribute ls = if seesJoined .lParen (skipAttributeName ls) then
      skipBalanced 0 (skipAttributeName ls) else skipAttributeName ls := by
  have hno := h.noGenerics
  unfold skipAttributeName at hno ⊢
  rw [skipAttribute]
  simp only [List.drop_drop]
  rw [hno]
  rfl

theorem skipAttributes_of_ne (h : headKind ls ≠ .atSign) : skipAttributes ls = ls := by
  rw [skipAttributes]
  cases ls with
  | nil => rfl
  | cons l ls => rw [List.length_cons, skipMany, skipAttribute?, if_neg (by simpa using h)]

theorem skipAttributes_of_eq (h : headKind ls = .atSign) :
    skipAttributes ls = skipAttributes (skipAttribute ls) := by
  have hlt : (skipAttribute ls).length < ls.length := length_skipAttribute_lt (by rw [h]; decide)
  rw [skipAttributes, skipMany_congr shortens_skipAttribute? (Nat.le_refl _) (Nat.le_succ _),
    skipMany, skipAttribute?, if_pos (by simp [h])]
  exact skipMany_congr shortens_skipAttribute? (Nat.le_of_lt hlt) (Nat.le_refl _)

theorem skipModifiers_of_not (h : atModifier ls = false) : skipModifiers ls = ls := by
  rw [skipModifiers]
  cases ls with
  | nil => rfl
  | cons l ls => rw [List.length_cons, skipMany, skipModifier?, if_neg (by simp [h])]

end Lookahead

/-- The kind of the declaration that a reserved word begins. -/
def TokenKind.introduces? : TokenKind → Option NodeKind
  | .kwClass => some .classDecl
  | .kwStruct => some .structDecl
  | .kwEnum => some .enumDecl
  | .kwProtocol => some .protocolDecl
  | .kwExtension => some .extensionDecl
  | .kwFunc => some .functionDecl
  | .kwInit => some .initializerDecl
  | .kwDeinit => some .deinitializerDecl
  | .kwSubscript => some .subscriptDecl
  | .kwLet | .kwVar => some .variableDecl
  | .kwTypealias => some .typeAliasDecl
  | .kwAssociatedtype => some .associatedTypeDecl
  | .kwImport => some .importDecl
  | .kwOperator => some .operatorDecl
  | .kwPrecedencegroup => some .precedenceGroupDecl
  | .kwCase => some .enumCaseDecl
  | _ => none

/-- The first lexeme is the word that a declaration of kind `k` begins with: a reserved word, or
    `actor` in front of a name. -/
def Lookahead.Introduces (k : NodeKind) : List Lexeme → Prop
  | [] => False
  | l :: ls => l.kind.introduces? = some k ∨
      (k = .actorDecl ∧ l.kind = .ident ∧ l.text = "actor" ∧ Lookahead.headKind ls = .ident)

theorem Lookahead.introduces_of_declaration? {scope : Scope} {ls : List Lexeme} {k : NodeKind}
    (h : Lookahead.declaration? scope ls = some k) :
    Introduces k (skipModifiers (skipAttributes ls)) := by
  rw [declaration?] at h
  generalize skipModifiers (skipAttributes ls) = ms at h ⊢
  cases ms with
  | nil => simp [headKind] at h
  | cons l ms =>
    rw [Introduces]
    simp only [headKind_cons, spells, List.drop_one, List.tail_cons] at h
    split at h <;> simp_all [TokenKind.introduces?]

namespace Grammar

open SwiftOutline.Parser

variable {call : Rule → State → Bool × State} {s : State} {ls rest inner : List Lexeme}

/-! ## Bracketed groups -/

theorem passes_bumpInside_end {depth : Nat} (h : Lookahead.headKind ls = .eof) :
    Passes call (bumpInside depth) (.stop depth) ls ls := by
  refine .view fun v hv => ?_
  rw [View.atEnd, View.kind_eq, hv, h, if_pos (by decide)]
  exact .pure

theorem passes_bumpInside {l : Lexeme} {depth : Nat} (hl : l.kind ≠ .eof) :
    Passes call (bumpInside depth)
      (if depthAfter depth l.kind == 0 then .stop (depthAfter depth l.kind)
        else .again (depthAfter depth l.kind)) (l :: ls) ls := by
  refine .view fun v hv => ?_
  rw [View.atEnd, View.kind_eq, hv, Lookahead.headKind_cons, if_neg (by simp [hl])]
  exact (Passes.bump hl).bind .pure

theorem lexemes_runRounds_bumpInside {depth n : Nat} (hn : ls.length < n)
    (hs : s.view.lexemes = ls) :
    (runRounds (fun a s => (bumpInside a).run call s) n depth s).2.view.lexemes =
      Lookahead.skipBalanced depth ls := by
  induction ls generalizing depth n s with
  | nil =>
    obtain ⟨m, rfl⟩ := Nat.exists_eq_add_one.mpr (Nat.zero_lt_of_lt hn)
    have hround : Passes call (bumpInside depth) (.stop depth) [] [] := passes_bumpInside_end rfl
    obtain ⟨t, hrun, ht⟩ := hround.exists_run hs
    rw [runRounds, hrun]
    exact ht
  | cons l ls ih =>
    obtain ⟨m, rfl⟩ := Nat.exists_eq_add_one.mpr (Nat.zero_lt_of_lt hn)
    rw [Lookahead.skipBalanced]
    by_cases hl : l.kind = .eof
    · have hround : Passes call (bumpInside depth) (.stop depth) (l :: ls) (l :: ls) :=
        passes_bumpInside_end hl
      obtain ⟨t, hrun, ht⟩ := hround.exists_run hs
      rw [runRounds, hrun, if_pos (by simp [hl])]
      exact ht
    · have hround : Passes call (bumpInside depth) _ (l :: ls) ls := passes_bumpInside hl
      obtain ⟨t, hrun, ht⟩ := hround.exists_run hs
      rw [runRounds, hrun, if_neg (c := (l.kind == .eof) = true) (by simp [hl])]
      dsimp only
      by_cases hout : (depthAfter depth l.kind == 0) = true
      · rw [if_pos hout, if_pos hout]
        exact ht
      · rw [if_neg hout, if_neg hout]
        exact ih (Nat.lt_of_succ_lt_succ hn) ht

/-- A bracketed group is consumed as far as it is skipped ahead. -/
theorem passes_bumpBalanced (ls : List Lexeme) :
    Passes call bumpBalanced () ls (Lookahead.skipBalanced 0 ls) := by
  refine ⟨fun s hs => ⟨rfl, ?_⟩, fun G s hs => ?_⟩
  · exact lexemes_runRounds_bumpInside (by rw [hs]; exact Nat.lt_succ_self _) hs
  · -- what is left to skip stays the same
    refine ⟨fun depth t => Lookahead.skipBalanced depth t.view.lexemes =
      Lookahead.skipBalanced 0 ls, congrArg _ hs, fun depth t ht => ?_⟩
    dsimp only at ht
    cases hls : t.view.lexemes with
    | nil =>
      have hround : Passes call (bumpInside depth) (.stop depth) [] [] := passes_bumpInside_end rfl
      refine wlp_mono (fun _ u hu => ?_) (hround.ends G t hls)
      obtain ⟨rfl, hu⟩ := hu
      refine ⟨rfl, ?_⟩
      rw [hu, ← ht, hls, Lookahead.skipBalanced]
    | cons l rest =>
      by_cases hl : l.kind = .eof
      · have hround : Passes call (bumpInside depth) (.stop depth) (l :: rest) (l :: rest) :=
          passes_bumpInside_end hl
        refine wlp_mono (fun _ u hu => ?_) (hround.ends G t hls)
        obtain ⟨rfl, hu⟩ := hu
        refine ⟨rfl, ?_⟩
        rw [hu, ← ht, hls, Lookahead.skipBalanced, if_pos (by simp [hl])]
      · have hround : Passes call (bumpInside depth) _ (l :: rest) rest := passes_bumpInside hl
        refine wlp_mono (fun _ u hu => ?_) (hround.ends G t hls)
        rw [hls, Lookahead.skipBalanced, if_neg (c := (l.kind == .eof) = true) (by simp [hl])] at ht
        obtain ⟨rfl, hu⟩ := hu
        dsimp only at ht
        split at ht
        · next hout =>
          rw [if_pos hout]
          exact ⟨rfl, hu.trans ht⟩
        · next hout =>
          rw [if_neg hout]
          exact (congrArg _ hu).trans ht

/-! ## Arguments of attributes -/

theorem passes_attributeArgumentPart {l : Lexeme} (hcomma : l.kind ≠ .comma)
    (hclose : l.kind ≠ .rParen) (hend : l.kind ≠ .eof) :
    Passes call attributeArgumentPart true (l :: ls) (Lookahead.skipBalanced 0 (l :: ls)) := by
  refine .kind ?_
  rw [Lookahead.headKind_cons]
  split
  · next h => exact absurd h hcomma
  · next h => exact absurd h hclose
  · next h => exact absurd h hend
  · exact (passes_bumpBalanced _).bind .pure

theorem passes_attributeArgumentPart_end
    (h : Lookahead.headKind ls = .comma ∨ Lookahead.headKind ls = .rParen) :
    Passes call attributeArgumentPart false ls ls := by
  refine .kind ?_
  rcases h with h | h <;> rw [h] <;> exact .pure

/-- The parts of an argument are passed, whatever they are. -/
theorem rounds_attributeArgumentPart (h : Argument ls)
    (hrest : Lookahead.headKind rest = .comma ∨ Lookahead.headKind rest = .rParen) :
    Passes.Rounds call attributeArgumentPart (ls ++ rest) rest := by
  induction h with
  | nil => exact .stop (passes_attributeArgumentPart_end hrest)
  | @plain l ls first comma _ ih =>
    have hpart : Passes call attributeArgumentPart true (l :: (ls ++ rest)) (ls ++ rest) := by
      have h : Passes call attributeArgumentPart true (l :: (ls ++ rest)) _ :=
        passes_attributeArgumentPart comma (Lexeme.ne_rParen_of_isPlain first) first.2.2
      rwa [Lookahead.skipBalanced_plain first] at h
    exact .again hpart (Nat.lt_succ_self _) ih
  | @group o c inner ls opens inside closes _ ih =>
    have hkinds : o.kind ≠ .comma ∧ o.kind ≠ .rParen ∧ o.kind ≠ .eof := by
      refine ⟨?_, ?_, ?_⟩ <;> intro hk <;> rw [hk] at opens <;> cases opens
    have hpart : Passes call attributeArgumentPart true (o :: (inner ++ c :: (ls ++ rest)))
        (ls ++ rest) := by
      have hskip : Lookahead.skipBalanced 0 (o :: (inner ++ c :: (ls ++ rest))) = ls ++ rest :=
        Lookahead.skipBalanced_group opens inside closes
      have h : Passes call attributeArgumentPart true (o :: (inner ++ c :: (ls ++ rest))) _ :=
        passes_attributeArgumentPart hkinds.1 hkinds.2.1 hkinds.2.2
      rwa [hskip] at h
    rw [List.cons_append, List.append_assoc, List.cons_append]
    exact .again hpart (by simp only [List.length_cons, List.length_append]; omega) ih

theorem passes_attributeArgument (h : Argument ls)
    (hrest : Lookahead.headKind rest = .comma ∨ Lookahead.headKind rest = .rParen) :
    Passes call attributeArgument () (ls ++ rest) rest := by
  refine .node (.view fun v hv => ?_)
  rw [View.kind_eq, View.kindAt_eq, hv]
  have hparts {front : List Lexeme} (h : Argument front) :
      Passes call (repeating attributeArgumentPart) () (front ++ rest) rest :=
    .repeating (rounds_attributeArgumentPart h hrest)
  split
  · next hlabel =>
    rw [Bool.and_eq_true, beq_iff_eq] at hlabel
    match ls, h, hlabel with
    | [], _, hlabel =>
      rcases hrest with hk | hk <;> rw [List.nil_append, hk] at hlabel <;> cases hlabel.1
    | [n], _, hlabel =>
      rcases hrest with hk | hk <;> rw [List.cons_append, List.drop_one, List.tail_cons,
        List.nil_append, hk] at hlabel <;> cases hlabel.2
    | n :: c :: front, h, hlabel =>
      have hn : n.IsWord := Lexeme.isWord_of_isNameLike hlabel.1
      have hc : c.IsPlain := Lexeme.isPlain_of_colon hlabel.2
      refine .bind (.bump hn.plain.2.2) (.bind (.bump hc.2.2) (hparts ?_))
      exact (h.tail hn.plain.1).tail hc.1
  · exact hparts h

/-- Balanced lexemes are an argument, behind which a comma stands or nothing. -/
theorem exists_argument (h : Nested ls) :
    ∃ front back, ls = front ++ back ∧ Argument front ∧
      (back = [] ∨ ∃ c more, back = c :: more ∧ c.kind = .comma ∧ Nested more) := by
  induction h with
  | nil => exact ⟨[], [], rfl, .nil, .inl rfl⟩
  | @plain l ls first hrest ih =>
    by_cases hcomma : l.kind = .comma
    · exact ⟨[], l :: ls, rfl, .nil, .inr ⟨l, ls, rfl, hcomma, hrest⟩⟩
    · obtain ⟨front, back, rfl, hfront, hback⟩ := ih
      exact ⟨l :: front, back, rfl, .plain first hcomma hfront, hback⟩
  | @group o c inner ls opens inside closes _ _ ih =>
    obtain ⟨front, back, rfl, hfront, hback⟩ := ih
    exact ⟨o :: (inner ++ c :: front), back, by simp, .group opens inside closes hfront, hback⟩

theorem rounds_arguments {c : Lexeme} (h : Nested inner) (hc : c.kind = .rParen) :
    Passes.Rounds call (do
        let v ← view
        if v.kind == .rParen || v.atEnd then pure false
        else if ← (do attributeArgument; pure true) then eat .comma
        else pure false) (inner ++ c :: rest) (c :: rest) := by
  induction hlength : inner.length using Nat.strongRecOn generalizing inner with
  | ind n ih =>
  cases inner with
  | nil =>
    refine .stop (.view fun v hv => ?_)
    rw [View.kind_eq, hv, List.nil_append, Lookahead.headKind_cons, hc, if_pos (by simp)]
    exact .pure
  | cons l inner =>
    obtain ⟨front, back, hsplit, hfront, hback⟩ := exists_argument h
    have hgoes : l.kind ≠ .rParen ∧ l.kind ≠ .eof := by
      cases h with
      | plain first _ => exact ⟨Lexeme.ne_rParen_of_isPlain first, first.2.2⟩
      | group opens _ _ _ =>
        refine ⟨?_, Lexeme.ne_eof_of_isOpener opens⟩
        intro hk
        rw [hk] at opens
        cases opens
    have hround {b : Bool} {ms : List Lexeme}
        (hrest : Lookahead.headKind (back ++ c :: rest) = .comma ∨
          Lookahead.headKind (back ++ c :: rest) = .rParen)
        (heat : Passes call (eat .comma) b (back ++ c :: rest) ms) :
        Passes call (do
          let v ← view
          if v.kind == .rParen || v.atEnd then pure false
          else if ← (do attributeArgument; pure true) then eat .comma
          else pure false) b (l :: inner ++ c :: rest) ms := by
      refine .view fun v hv => ?_
      rw [View.atEnd, View.kind_eq, hv, List.cons_append, Lookahead.headKind_cons,
        if_neg (by simp [hgoes])]
      refine .bind (a := true) (.bind (a := ()) ?_ .pure) heat
      rw [← List.cons_append, hsplit, List.append_assoc]
      exact passes_attributeArgument hfront hrest
    rcases hback with rfl | ⟨comma, more, rfl, hcomma, hmore⟩
    · refine .stop (hround (.inr hc) (.eat_not ?_))
      rw [List.nil_append, Lookahead.headKind_cons, hc]
      decide
    · have hshorter := congrArg List.length hsplit
      simp only [List.length_cons, List.length_append] at hshorter hlength
      refine .again (hround (.inl hcomma) (.eat hcomma (by decide))) ?_
        (ih more.length (by omega) hmore rfl)
      show (more ++ c :: rest).length < (l :: inner ++ c :: rest).length
      simp only [List.length_cons, List.length_append]
      omega

theorem passes_attributeArguments {o c : Lexeme} (ho : o.kind = .lParen) (h : Nested inner)
    (hc : c.kind = .rParen) :
    Passes call attributeArguments () (o :: (inner ++ c :: rest)) rest := by
  refine .node (.bind (.bump (by rw [ho]; decide)) (.bind (.repeating (rounds_arguments h hc)) ?_))
  exact .require hc (by decide)

/-! ## Attributes -/

theorem passes_attributeMember {b : Bool}
    (h : Passes call (if Lookahead.headKind ls == .dot &&
        (Lookahead.headKind (ls.drop 1)).isNameLike then (do bump; bump; pure true)
      else pure false) b ls rest) : Passes call attributeMember b ls rest := by
  refine .view fun v hv => ?_
  rw [View.kind_eq, View.kindAt_eq, hv]
  exact h

theorem rounds_attributeMember (ls : List Lexeme) :
    Passes.Rounds call attributeMember ls (Lookahead.skipMembers ls) := by
  induction ls using Lookahead.skipMembers.induct with
  | case1 d n ls h ih =>
    rw [Lookahead.skipMembers, if_pos h]
    refine .again (passes_attributeMember ?_) (by simp only [List.length_cons]; omega) ih
    rw [Lookahead.headKind_cons, List.drop_one, List.tail_cons, Lookahead.headKind_cons, if_pos h]
    rw [Bool.and_eq_true, beq_iff_eq] at h
    exact .bind (.bump (by rw [h.1]; decide))
      (.bind (.bump (Lexeme.isWord_of_isNameLike h.2).plain.2.2) .pure)
  | case2 d n ls h =>
    rw [Lookahead.skipMembers, if_neg h]
    refine .stop (passes_attributeMember ?_)
    rw [Lookahead.headKind_cons, List.drop_one, List.tail_cons, Lookahead.headKind_cons, if_neg h]
    exact .pure
  | case3 ls h =>
    have hskip : Lookahead.skipMembers ls = ls := by
      rw [Lookahead.skipMembers]
      exact h
    rw [hskip]
    refine .stop (passes_attributeMember ?_)
    rcases ls with _ | ⟨l, _ | ⟨n, ls⟩⟩
    · exact .pure
    · rw [if_neg (by rw [Bool.and_eq_true]; exact fun h => Bool.false_ne_true h.2)]
      exact .pure
    · exact absurd rfl (h l n ls)

/-- Behind the name, arguments of a plain attribute are passed if there are any. -/
theorem passes_joinedAttributeArguments (h : Lookahead.PlainAttribute ls) :
    Passes call joinedAttributeArguments () (Lookahead.skipAttributeName ls)
      (Lookahead.skipAttribute ls) := by
  rw [Lookahead.skipAttribute_of_plain h]
  refine .seesJoined (by decide) ?_
  split
  · next hjoined =>
    obtain ⟨o, inner, c, rest, heq, hinner, hc⟩ := h.closed hjoined
    rw [heq, Lookahead.seesJoined, Bool.and_eq_true, beq_iff_eq] at hjoined
    have hskip : Lookahead.skipBalanced 0 (o :: (inner ++ c :: rest)) = rest :=
      Lookahead.skipBalanced_group (by rw [hjoined.1]; rfl) hinner (by rw [hc]; rfl)
    rw [heq, hskip]
    exact passes_attributeArguments hjoined.1 hinner hc
  · exact .pure

/-- A plain attribute is consumed as far as it is skipped ahead. -/
theorem passes_attributeUse (h : Lookahead.PlainAttribute ls) :
    Passes call attributeUse () ls (Lookahead.skipAttribute ls) := by
  have hrest : Passes call (do joinedGenericArguments; joinedAttributeArguments) ()
      (Lookahead.skipAttributeName ls) (Lookahead.skipAttribute ls) := by
    refine .bind (a := ()) (.seesJoined (by decide) ?_) (passes_joinedAttributeArguments h)
    rw [h.noGenerics, if_neg (by decide)]
    exact .pure
  obtain ⟨a, ls, rfl⟩ : ∃ a rest, ls = a :: rest := by
    cases ls with
    | nil => exact absurd h.begins (by decide)
    | cons a rest => exact ⟨a, rest, rfl⟩
  have hat : a.kind = .atSign := h.begins
  refine .node (.bind (.bump (by rw [hat]; decide)) (.kind ?_))
  rw [Lookahead.skipAttributeName, List.drop_one, List.tail_cons] at hrest
  split at hrest
  · next hname =>
    match ls, hname with
    | n :: ls, hname =>
      rw [if_pos hname]
      exact .bind (.bump (Lexeme.isWord_of_isNameLike hname).plain.2.2)
        (.bind (.repeating (rounds_attributeMember ls)) hrest)
  · next hname =>
    rw [if_neg hname]
    exact .bind .report hrest

theorem rounds_nextAttribute (h : Lookahead.PlainAttributes ls) :
    Passes.Rounds call nextAttribute ls (Lookahead.skipAttributes ls) := by
  induction h with
  | @nil ls h =>
    rw [Lookahead.skipAttributes_of_ne h]
    exact .stop (.sees (by rw [if_neg (by simpa using h)]; exact .pure))
  | @cons ls first _ ih =>
    rw [Lookahead.skipAttributes_of_eq first.begins]
    refine .again (.sees ?_) (Lookahead.length_skipAttribute_lt (by rw [first.begins]; decide)) ih
    rw [first.begins, if_pos (by decide)]
    exact .bind (passes_attributeUse first) .pure

/-- Plain attributes are consumed as far as they are skipped ahead. -/
theorem passes_attributes (h : Lookahead.PlainAttributes ls) :
    Passes call attributes () ls (Lookahead.skipAttributes ls) := by
  refine .sees ?_
  by_cases hat : Lookahead.headKind ls = .atSign
  · rw [if_pos (by simp [hat])]
    exact .node (.repeating (rounds_nextAttribute h))
  · rw [if_neg (by simpa using hat), Lookahead.skipAttributes_of_ne hat]
    exact .pure

/-! ## Modifiers -/

theorem passes_modifierDetail (h : Lookahead.atModifierDetail ls = true) :
    Passes call (node .modifierDetail do bump; bump; bump) () ls (ls.drop 3) := by
  simp only [Lookahead.atModifierDetail, Bool.and_eq_true, beq_iff_eq] at h
  obtain ⟨⟨ho, hname⟩, hc⟩ := h
  match ls, ho, hname, hc with
  | o :: n :: c :: ls, ho, hname, hc =>
    exact .node (.bind (.bump (by rw [show o.kind = _ from ho]; decide))
      (.bind (.bump (by rw [show n.kind = _ from hname]; decide))
        (.bump (by rw [show c.kind = _ from hc]; decide))))

theorem passes_modifier (h : Lookahead.headKind ls ≠ .eof) :
    Passes call modifier () ls
      (ls.drop (if Lookahead.atModifierDetail (ls.drop 1) then 4 else 1)) := by
  cases ls with
  | nil => exact absurd rfl h
  | cons l ls =>
    refine .node (.bind (.bump h) (.view fun v hv => ?_))
    rw [hv, List.drop_one, List.tail_cons]
    split
    · next hdetail => exact passes_modifierDetail hdetail
    · exact .pure

theorem passes_nextModifier (h : Lookahead.skipModifier? ls = some rest) :
    Passes call nextModifier true ls rest := by
  refine .view fun v hv => ?_
  rw [hv]
  unfold Lookahead.skipModifier? at h
  split at h
  · next hat =>
    obtain rfl := Option.some.inj h
    rw [if_pos hat]
    exact .bind (passes_modifier (Lookahead.headKind_of_atModifier hat)) .pure
  · cases h

theorem passes_nextModifier_not (h : Lookahead.skipModifier? ls = none) :
    Passes call nextModifier false ls ls := by
  refine .view fun v hv => ?_
  rw [hv]
  unfold Lookahead.skipModifier? at h
  split at h
  · cases h
  · next hat =>
    rw [if_neg hat]
    exact .pure

/-- Modifiers are consumed as far as they are skipped ahead. -/
theorem passes_modifiers (ls : List Lexeme) :
    Passes call modifiers () ls (Lookahead.skipModifiers ls) := by
  have hrepeating : Passes call (repeating nextModifier) () ls (Lookahead.skipModifiers ls) :=
    .repeating_skipMany Lookahead.shortens_skipModifier? (fun _ _ => passes_nextModifier)
      (fun _ => passes_nextModifier_not) (Nat.le_refl _)
  refine .view fun v hv => ?_
  rw [hv]
  split
  · exact .node hrepeating
  · next hat =>
    rw [Lookahead.skipModifiers_of_not (by simpa using hat)]
    exact .pure

/-! ## Declarations -/

/-- Where a declaration that begins in the state `s` has its attributes and modifiers behind it. -/
def introduced (call : Rule → State → Bool × State) (s : State) : State :=
  ((do attributes; modifiers : Parser Unit).run call (s.start false)).2

theorem run_declaration (k : NodeKind) (s : State) : (declaration k).run call s =
    ((), ((declarationRest k).run call (introduced call s)).2.finish s false (some k)) := by
  rw [declaration, run_node, introduced]
  simp only [run_bind]

theorem lexemes_introduced (h : Lookahead.PlainAttributes s.view.lexemes) :
    (introduced call s).view.lexemes =
      Lookahead.skipModifiers (Lookahead.skipAttributes s.view.lexemes) :=
  ((passes_attributes h).bind (passes_modifiers _)).lexemes_eq (s := s.start false)

/-- Looking ahead agrees with consuming. A bracketed group and an attribute are consumed exactly as
    far as they are skipped ahead; so what follows the attributes and modifiers of a declaration is
    parsed from the word that has decided on its kind. -/
theorem consumes_as_skipped (call : Rule → State → Bool × State) (s : State) :
    (bumpBalanced.run call s).2.view.lexemes = Lookahead.skipBalanced 0 s.view.lexemes ∧
      (Lookahead.PlainAttribute s.view.lexemes →
        (attributeUse.run call s).2.view.lexemes = Lookahead.skipAttribute s.view.lexemes) ∧
      ∀ scope k, Lookahead.PlainAttributes s.view.lexemes →
        Lookahead.declaration? scope s.view.lexemes = some k →
          (declaration k).run call s =
              ((), ((declarationRest k).run call (introduced call s)).2.finish s false (some k)) ∧
            (introduced call s).view.lexemes =
              Lookahead.skipModifiers (Lookahead.skipAttributes s.view.lexemes) ∧
            Lookahead.Introduces k (introduced call s).view.lexemes := by
  refine ⟨(passes_bumpBalanced _).lexemes_eq, fun h => (passes_attributeUse h).lexemes_eq, ?_⟩
  intro scope k hplain hdecl
  have hlexemes : (introduced call s).view.lexemes = _ := lexemes_introduced hplain
  refine ⟨run_declaration k s, hlexemes, ?_⟩
  rw [hlexemes]
  exact Lookahead.introduces_of_declaration? hdecl

/-- An actor behind an attribute with arguments and behind modifiers, one of them with a detail. -/
def attributedActor : List Lexeme :=
  (Lexeme.ofTokens (lex "@objc(a, b: [c]) public private(set) actor A \x7b\x7d")).1

theorem consumes_as_skipped_actor :
    (Lookahead.PlainAttributes attributedActor ∧
      Lookahead.declaration? .member attributedActor = some .actorDecl) ∧
      Lookahead.Introduces .actorDecl
        (introduced (runRule 0) (.initial attributedActor .none)).view.lexemes := by
  have hplain : Lookahead.PlainAttributes attributedActor := by
    have hname {text : String} {gap : Gap} : (⟨.ident, text, gap⟩ : Lexeme).IsWord :=
      Lexeme.isWord_of_isNameLike rfl
    have hcomma : (⟨.comma, ",", .none⟩ : Lexeme).IsWord := Lexeme.isWord_of_kind rfl (by decide)
    have hgroup : Nested (⟨.lBracket, "[", ⟨true, false⟩⟩ ::
        ([⟨.ident, "c", .none⟩] ++ [⟨.rBracket, "]", .none⟩])) :=
      hname.nested.bracketed rfl rfl
    have hinner : Nested ([⟨.ident, "a", .none⟩, ⟨.comma, ",", .none⟩,
        ⟨.ident, "b", ⟨true, false⟩⟩, ⟨.colon, ":", .none⟩] ++ _) :=
      hname.cons_nested (hcomma.cons_nested (hname.cons_nested
        (.plain (Lexeme.isPlain_of_colon rfl) hgroup)))
    refine .cons ⟨by decide +kernel, by decide +kernel, fun _ => ?_⟩ (.nil (by decide +kernel))
    exact ⟨⟨.lParen, "(", .none⟩, _, ⟨.rParen, ")", .none⟩, attributedActor.drop 11,
      by decide +kernel, hinner, rfl⟩
  have hdecl : Lookahead.declaration? .member attributedActor = some .actorDecl := by
    decide +kernel
  exact ⟨⟨hplain, hdecl⟩,
    ((consumes_as_skipped (runRule 0) (.initial attributedActor .none)).2.2 _ _ hplain hdecl).2.2⟩

end Grammar

end SwiftOutline
