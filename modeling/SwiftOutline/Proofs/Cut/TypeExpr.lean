/-
  SwiftOutline.Proofs.Cut.TypeExpr

  Attributes, modifiers and type expressions on a front part of a text. A choice
  that looks more than one lexeme ahead is followed by consuming what has been
  seen; only that effects belong to a function type is told from afar, by the
  arrow behind them.
-/
import SwiftOutline.Proofs.Cut.Lookahead
import SwiftOutline.Proofs.Cut.Safe

namespace SwiftOutline

namespace Grammar

open SwiftOutline.Parser

variable {c : Cut} {i n : Nat} {v : View}

theorem safe_type : Safe c (follow .type) := .follow rfl

theorem safe_type' : Safe c (follow' .type) := .follow' rfl

/-! ## Generic arguments -/

theorem safeAt_genericArguments {X : Unit → View → Prop} (h : v.kind = .lt) :
    SafeAt c i (fun _ => 0) X 0 v genericArguments genericArguments := by
  refine .node (.bind (.bump_kind h rfl) fun _ w => .bind (.separatedUntil (fun w _ _ => ?_)
    fun w => ?_) fun _ _ => .require rfl rfl)
  · exact .inl (Feeds.node (.follow rfl)).eats
  · exact .node safe_type.safeAt

theorem safe_joinedGenericArguments : Safe c joinedGenericArguments := by
  refine fun i v => .seesJoined_bind rfl (fun h => ?_) (fun h => ?_) ?_
  · rw [if_pos rfl]
    exact (Feeds.node (x := false) (.first (.bump_kind h rfl))).eats
  · rw [if_pos rfl]
    exact safeAt_genericArguments h
  · rw [if_neg Bool.false_ne_true]
    exact .pure (Nat.le_refl 0)

/-! ## Attributes -/

theorem safe_attributeArgumentPart : Safe c attributeArgumentPart := by
  refine fun i v => .kind_bind ?_ ?_
  · split
    · exact .inr rfl
    · exact .inr rfl
    · exact .inr rfl
    · next h =>
      have hend : v.atEnd = false := beq_false_of_ne fun hk => h hk
      exact .inl (Feeds.first (x := false) (.of_advances (bumpBalanced_of_not_atEnd hend))).eats
  · split
    · exact .pure (Nat.le_refl 0)
    · exact .pure (Nat.le_refl 0)
    · exact .pure (Nat.le_refl 0)
    · exact .bind safe_bumpBalanced.safeAt fun _ _ => .pure (Nat.le_refl 0)

theorem safe_attributeArgument : Safe c attributeArgument := by
  have hparts : Safe c (repeating attributeArgumentPart) := .repeating safe_attributeArgumentPart
  refine .node fun i v => .view_bind (.pair
    (C := fun w => w.kind.isNameLike && w.kindAt 1 == .colon)
    (fun hin => ?_) (fun w h => ?_) (fun w hw => ?_) (fun w hw => ?_) fun _ => hparts.safeAt)
  · simp only [View.kind_cut (Nat.lt_of_succ_lt hin), View.kindAt_cut hin]
  · rw [Bool.and_eq_true, beq_iff_eq, ← View.kind_tail] at h
    exact ⟨.of_isNameLike h.1, .of_kind h.2 rfl rfl⟩
  · exact (Eats.bump hw.atEnd).first
  · exact .bind (.bump hw.plain) fun _ _ => hparts.safeAt

theorem safeAt_attributeArguments {X : Unit → View → Prop} (h : v.kind = .lParen) :
    SafeAt c i (fun _ => 0) X 0 v attributeArguments attributeArguments := by
  refine .node (.bracketed (by rw [h]; rfl) rfl fun w => .separatedUntil
    (fun _ _ _ => .inr (Nat.succ_pos i)) fun w => ?_)
  exact (Safe.bind safe_attributeArgument fun _ => .pure).safeAt

theorem safe_joinedAttributeArguments : Safe c joinedAttributeArguments := by
  refine fun i v => .seesJoined_bind rfl (fun h => ?_) (fun h => ?_) ?_
  · rw [if_pos rfl]
    exact (Feeds.node (x := false) (.first (.bump_kind h rfl))).eats
  · rw [if_pos rfl]
    exact safeAt_attributeArguments h
  · rw [if_neg Bool.false_ne_true]
    exact .pure (Nat.le_refl 0)

theorem safe_attributeMember : Safe c attributeMember := by
  refine fun i v => .view_bind (.pair (C := fun w => w.kind == .dot && (w.kindAt 1).isNameLike)
    (fun hin => ?_) (fun w h => ?_) (fun w hw => ?_) (fun w hw => ?_)
    fun _ => .pure (Nat.le_refl 0))
  · simp only [View.kind_cut (Nat.lt_of_succ_lt hin), View.kindAt_cut hin]
  · rw [Bool.and_eq_true, beq_iff_eq, ← View.kind_tail] at h
    exact ⟨.of_kind h.1 rfl rfl, .of_isNameLike h.2⟩
  · exact (Eats.bump hw.atEnd).first
  · exact .bind (.bump hw.plain) fun _ _ => .pure (Nat.le_refl 0)

theorem safeAt_attributeUse (h : v.kind = .atSign) :
    SafeAt c i (fun _ => 0) anyEnd 0 v attributeUse attributeUse := by
  have rest : Safe c (do joinedGenericArguments; joinedAttributeArguments) :=
    .bind safe_joinedGenericArguments fun _ => safe_joinedAttributeArguments
  refine .node (.bind (.bump_kind h rfl) fun _ w => .kind_bind (.inl ?_) ?_)
  · split
    · next hname => exact (Eats.bump (View.AtWord.of_isNameLike hname).atEnd).first
    · exact (Complains.report.first).eats
  · split
    · next hname =>
      refine .bind (.bump (View.AtWord.of_isNameLike hname).plain) fun _ w => ?_
      exact .bind (Safe.repeating safe_attributeMember).safeAt fun _ _ => rest.safeAt
    · exact .complains Complains.report.first

theorem safe_nextAttribute : Safe c nextAttribute := by
  refine fun i v => .sees_bind rfl (fun h => ?_) (fun h => ?_) fun _ => ?_
  · rw [if_pos rfl]
    exact (Feeds.first (x := false) (.node (.first (.bump_kind h rfl)))).eats
  · rw [if_pos rfl]
    exact .bind (safeAt_attributeUse h) fun _ _ => .pure (Nat.le_refl 0)
  · rw [if_neg Bool.false_ne_true]
    exact .pure (Nat.le_refl 0)

theorem safe_attributes : Safe c attributes := by
  refine .ifSees rfl (fun v h => ?_) fun i v _ => (Safe.repeating safe_nextAttribute).node i v
  exact .node (.repeating (.of_advances (advances_nextAttribute.mono (Nat.le_refl _)
    fun _ _ => Or.inr h)))

/-! ## Modifiers -/

theorem headKind_drop (v : View) (n : Nat) :
    Lookahead.headKind (v.lexemes.drop n) = v.kindAt n := by
  rw [View.kindAt, ← List.head?_drop]
  cases v.lexemes.drop n <;> rfl

/-- Where `n` lexemes are seen on the front part, what is seen begins with these. -/
theorem exists_front (h : c.behind + n < v.lexemes.length) :
    ∃ rest, v.lexemes = (v.cut c).lexemes ++ rest ∧ n < (v.cut c).lexemes.length := by
  obtain ⟨rest, hrest, -⟩ := View.lexemes_eq_cut c v
  refine ⟨rest, hrest, ?_⟩
  rw [View.length_cut]
  omega

theorem safe_modifierDetail : Safe c (do
    if Lookahead.atModifierDetail (← view).lexemes then
      node .modifierDetail do
        bump
        bump
        bump) := by
  have hkinds : ∀ w : View, Lookahead.atModifierDetail w.lexemes = true →
      w.kind = .lParen ∧ w.tail.kind = .ident ∧ w.tail.tail.kind = .rParen := by
    intro w hw
    simp only [Lookahead.atModifierDetail, headKind_lexemes, headKind_drop, Bool.and_eq_true,
      beq_iff_eq] at hw
    refine ⟨hw.1.1, (w.kind_tail).trans hw.1.2, ?_⟩
    rw [View.kind_tail, View.kindAt_tail]
    exact hw.2
  refine fun i v => .view_bind (.ahead (C := fun w => Lookahead.atModifierDetail w.lexemes) 2
    (fun hin => ?_) (fun hd => ?_) (fun hd => ?_) (fun hd => ?_) fun _ => .pure (Nat.le_refl 0))
  · obtain ⟨rest, hrest, hlt⟩ := exists_front hin
    rw [hrest, Lookahead.atModifierDetail_append (.inl hlt)]
  · have hclose := (hkinds _ hd).2.2
    rw [View.kind_tail, View.kindAt_tail] at hclose
    rw [hclose]
    decide
  · obtain ⟨hopen, hname, hclose⟩ := hkinds v hd
    exact .node (.bump_bind (View.atEnd_of_kind hopen rfl)
      (.bump_bind (View.atEnd_of_kind hname rfl) (.bump (View.atEnd_of_kind hclose rfl))))
  · obtain ⟨hopen, hname, hclose⟩ := hkinds v hd
    refine .node (.bump_then (View.atEnd_of_kind hopen rfl)
      (.bump_opener (by rw [hopen]; rfl)) (.word_then (.of_kind hname rfl rfl) ?_))
    exact .bump_closer (by rw [hclose]; rfl)

theorem safeAt_modifier {X : Unit → View → Prop} (h : v.AtWord) :
    SafeAt c i (fun _ => 0) X 0 v modifier modifier :=
  .node (.bind (.bump h.plain) fun _ _ => safe_modifierDetail.safeAt)

theorem atWord_of_atModifier (h : Lookahead.atModifier v.lexemes = true) : v.AtWord := by
  refine ⟨atEnd_of_atModifier h, ?_⟩
  rw [Lookahead.atModifier, headKind_lexemes] at h
  split at h
  · next hk => rw [hk]; rfl
  · next hk => rw [hk]; rfl
  · cases hls : v.lexemes with
    | nil =>
      rw [hls] at h
      cases h
    | cons l rest =>
      rw [hls] at h
      rw [SafeAt.kind_of_cons hls, eq_of_beq (Bool.and_eq_true_iff.mp h).1]
      rfl

theorem lexemes_consume {s : State} (h : ∀ l ∈ s.view.lexemes, l.kind ≠ .eof) :
    s.consume.view.lexemes = s.view.lexemes.drop 1 := by
  unfold State.consume
  split
  · next hnil => rw [hnil, List.drop_nil]
  · next l rest hls =>
    rw [if_neg (by simpa using h l (by rw [hls]; exact List.mem_cons_self)), hls]
    rfl

/-- What has been consumed of the modifiers that are skipped, and whether there was any. -/
def PassesModifier (found : Bool) (s t : State) : Prop :=
  Lookahead.atModifier s.view.lexemes = found ∧ t.view.lexemes =
    if found then s.view.lexemes.drop (Lookahead.modifierLength s.view.lexemes)
    else s.view.lexemes

theorem wlp_nextModifier {G : Outcomes} (s : State) :
    wlp G nextModifier (fun found t => PassesModifier found s t) s := by
  cases hskip : Lookahead.skipModifier? s.view.lexemes with
  | some rest =>
    have hpasses : Passes (fun _ s => (false, s)) nextModifier true s.view.lexemes rest :=
      passes_nextModifier hskip
    refine wlp_mono (fun found t ht => ?_) (hpasses.ends G s rfl)
    obtain ⟨rfl, ht⟩ := ht
    unfold Lookahead.skipModifier? at hskip
    split at hskip
    · next hat =>
      refine ⟨hat, ?_⟩
      rw [if_pos rfl, ht, ← Option.some.inj hskip, Lookahead.modifierLength]
    · cases hskip
  | none =>
    have hpasses : Passes (fun _ s => (false, s)) nextModifier false s.view.lexemes _ :=
      passes_nextModifier_not hskip
    refine wlp_mono (fun found t ht => ?_) (hpasses.ends G s rfl)
    obtain ⟨rfl, ht⟩ := ht
    unfold Lookahead.skipModifier? at hskip
    split at hskip
    · cases hskip
    · next hat => exact ⟨Bool.eq_false_iff.mpr hat, ht⟩

/-- The front part has something left behind the modifiers that come next. -/
def LeavesModified (c : Cut) (v : View) : Prop :=
  c.behind ≠ 0 → c.behind < (Lookahead.skipModifiers v.lexemes).length

theorem LeavesModified.back {found : Bool} {s t : State} (h : PassesModifier found s t)
    (ht : if found then LeavesModified c t.view else t.view.Before c) :
    LeavesModified c s.view := by
  obtain ⟨hat, hlexemes⟩ := h
  intro hc
  cases found with
  | true =>
    rw [if_pos rfl] at hlexemes
    rw [if_pos rfl, LeavesModified, hlexemes] at ht
    rw [Lookahead.skipModifiers_of_atModifier hat]
    exact ht hc
  | false =>
    rw [if_neg Bool.false_ne_true] at hlexemes ht
    rw [Lookahead.skipModifiers_of_not hat, ← hlexemes]
    exact ht hc

theorem LeavesModified.atModifier_cut (h : LeavesModified c v) :
    Lookahead.atModifier (v.cut c).lexemes = Lookahead.atModifier v.lexemes := by
  by_cases hc : c.behind = 0
  · rw [View.lexemes_cut_of_zero hc]
  · obtain ⟨rest, hrest, hlength⟩ := View.lexemes_eq_cut c v
    have hleft := h hc
    have hle := Nat.lt_of_lt_of_le hleft (Lookahead.length_skipModifiers_le _)
    rw [hrest, ← hlength (Nat.le_of_lt hle)] at hleft
    rw [hrest]
    exact (Lookahead.atModifier_front hleft).1.symm

theorem safeAt_nextModifier : SafeAt c i (fun _ => 0)
    (fun found w => if found then LeavesModified c w else w.Before c) 0 v
    nextModifier nextModifier := by
  refine .view_bind (.late (Q := PassesModifier) (r := ?_) ?_ ?_ ?_)
  · exact if Lookahead.atModifier v.lexemes then (do modifier; pure true) else pure false
  · split
    · next h =>
      exact .bind (safeAt_modifier (atWord_of_atModifier h)) fun _ _ => .pure (Nat.le_refl 0)
    · exact .pure (Nat.le_refl 0)
  · rintro s rfl hlies
    exact wlp_nextModifier s
  · rintro s t found rfl - hpasses - - - ht
    rw [(LeavesModified.back hpasses ht).atModifier_cut]

/-- All modifiers are consumed that are skipped. -/
theorem wlp_modifiers {G : Outcomes} (s : State) : wlp G modifiers
    (fun _ t => t.view.lexemes = Lookahead.skipModifiers s.view.lexemes) s := by
  have hpasses : Passes (fun _ s => (false, s)) modifiers () s.view.lexemes _ :=
    passes_modifiers s.view.lexemes
  exact wlp_mono (fun _ _ ht => ht.2) (hpasses.ends G s rfl)

/-- All attributes are consumed that are skipped. -/
theorem wlp_attributes {G : Outcomes} {s : State} (h : Lookahead.PlainAttributes s.view.lexemes) :
    wlp G attributes (fun _ t => t.view.lexemes = Lookahead.skipAttributes s.view.lexemes) s := by
  have hpasses : Passes (fun _ s => (false, s)) attributes () s.view.lexemes _ :=
    passes_attributes h
  exact wlp_mono (fun _ _ ht => ht.2) (hpasses.ends G s rfl)

/-- Modifiers with something behind them before the cut. -/
theorem safeAt_modifiers :
    SafeAt c i (fun _ => 0) (fun _ w => w.Before c) 0 v modifiers modifiers := by
  have hloop : SafeAt c i (fun _ => 0) (fun _ w => w.Before c) 0 v
      (repeating nextModifier) (repeating nextModifier) := by
    refine .repeating_of (I := LeavesModified c) (fun _ => safeAt_nextModifier) fun s hlies => ?_
    exact wlp_mono (fun found t ht _ _ hend => LeavesModified.back ht hend)
      (wlp_nextModifier s)
  refine .view_bind (.late (Q := fun _ s t =>
    t.view.lexemes = Lookahead.skipModifiers s.view.lexemes) (r := ?_) ?_ ?_ ?_)
  · exact if Lookahead.atModifier v.lexemes then node .modifierList (repeating nextModifier)
      else pure ()
  · split
    · exact hloop.node
    · exact .pure (Nat.le_refl 0)
  · rintro s rfl hlies
    exact wlp_modifiers s
  · rintro s t - rfl - hskipped - - - ht
    have hleaves : LeavesModified c s.view := by
      rw [LeavesModified, ← hskipped]
      exact ht
    rw [hleaves.atModifier_cut]

/-- Attributes and modifiers with something behind them before the cut. -/
theorem safeAt_introduction {β : Type} {l : β → Nat} {Z : β → View → Prop} {f g : Parser β}
    (hf : ∀ w : View, w.lexemes = Lookahead.skipModifiers (Lookahead.skipAttributes v.lexemes) →
      SafeAt c i l Z 0 w f g)
    (hbefore : ∀ t : State, t.view.lexemes =
      Lookahead.skipModifiers (Lookahead.skipAttributes v.lexemes) → wlp (Cutting c) f (fun b u =>
        u.Bounded c (l b + i) → Z b u.view → t.Bounded c i → t.view.Before c) t) :
    SafeAt c i l Z 0 v (do attributes; modifiers; f) (do attributes; modifiers; g) := by
  refine .bind_known (K := fun _ w => w.lexemes = Lookahead.skipAttributes v.lexemes)
    safe_attributes.safeAt ?_ fun _ w hw => ?_
  · rintro s rfl hlies
    exact wlp_attributes (Lookahead.plainAttributes_of_forall hlies.lexemes.plain)
  · refine .bind_at (K := fun _ u => u.lexemes = Lookahead.skipModifiers w.lexemes)
      safeAt_modifiers ?_ (fun _ u hu => hf u (by rw [hu, hw])) fun _ t _ ht => ?_
    · rintro s rfl -
      exact wlp_modifiers s
    · have hbefore' := hbefore t (by rw [ht, hw])
      rwa [Nat.zero_add]

/-! ## Function tails -/

/-- What the next lexeme decides alone. -/
theorem headed {τ : Type} {f : List Lexeme → τ} (hf : ∀ l ls ms, f (l :: ls) = f (l :: ms))
    (h : c.behind < v.lexemes.length) : f (v.cut c).lexemes = f v.lexemes := by
  obtain ⟨rest, hrest, hlt⟩ := exists_front (n := 0) h
  obtain ⟨l, ls, hls⟩ := List.exists_cons_of_length_pos hlt
  rw [hrest, hls]
  exact hf l _ _

theorem atEffect_cut (h : c.behind < v.lexemes.length) :
    Lookahead.atEffect (v.cut c).lexemes = Lookahead.atEffect v.lexemes :=
  headed (fun _ _ _ => rfl) h

theorem atThrows_cut (h : c.behind < v.lexemes.length) :
    Lookahead.atThrows (v.cut c).lexemes = Lookahead.atThrows v.lexemes :=
  headed (fun _ _ _ => rfl) h

theorem atWord_of_atEffect (h : Lookahead.atEffect v.lexemes = true) : v.AtWord := by
  simp only [Lookahead.atEffect, Lookahead.atThrows, Bool.or_eq_true, beq_iff_eq,
    ← View.kind_eq, ← View.spells_eq] at h
  rcases h with ((hk | hk) | hword) | hword
  · exact .of_kind hk rfl rfl
  · exact .of_kind hk rfl rfl
  · exact .of_spells hword
  · exact .of_spells hword

theorem safe_thrown {f : Unit → Parser Bool} (hf : Safe c (f ())) : Safe c
    (seesJoined .lParen >>= fun b => if b then
      bump >>= fun _ => follow' .type >>= fun _ => require .rParen .openThrownType >>= f
    else f ()) := by
  refine fun i v => .seesJoined_bind rfl (fun h => ?_) (fun h => ?_) ?_
  · rw [if_pos rfl]
    exact (Eats.bump (View.atEnd_of_kind h rfl)).first
  · rw [if_pos rfl]
    refine .bind (.bump_opener (by rw [h]; rfl)) fun _ _ => .bind safe_type'.safeAt fun _ _ => ?_
    exact .bind (.require_closer rfl) fun _ _ => hf.safeAt
  · rw [if_neg Bool.false_ne_true]
    exact hf.safeAt

theorem safe_effectRound : Safe c effectRound := by
  refine fun i v => .view_bind (.ahead (C := fun w => Lookahead.atEffect w.lexemes) 0
    atEffect_cut (fun h => (atWord_of_atEffect h).ne) (fun h => ?_) (fun h => ?_)
    fun _ => .pure (Nat.le_refl 0))
  · exact (Eats.bump (atWord_of_atEffect h).atEnd).first
  · refine .eaten (Eats.bump (atWord_of_atEffect h).atEnd).first fun hin => ?_
    rw [atThrows_cut hin]
    refine .bind (.bump (atWord_of_atEffect h).plain) fun _ w => ?_
    split
    · exact (safe_thrown .pure).safeAt
    · exact .pure (Nat.le_refl 0)

theorem eats_effectSpecifiers (h : Lookahead.atEffect v.lexemes = true) :
    Eats 0 v effectSpecifiers := by
  refine (Feeds.node (x := false) (.repeating (.view_bind ?_))).eats
  dsimp only
  rw [if_pos h]
  exact .first (.bump (atEnd_of_atEffect h))

theorem safe_effects : Safe c effects := by
  refine fun i v => .view_bind (.ahead (C := fun w => Lookahead.atEffect w.lexemes) 0
    atEffect_cut (fun h => (atWord_of_atEffect h).ne) eats_effectSpecifiers (fun _ => ?_)
    fun _ => .pure (Nat.le_refl 0))
  exact (Safe.repeating safe_effectRound).node.safeAt

theorem safeAt_returnClause {X : Unit → View → Prop} (h : v.kind = .arrow) :
    SafeAt c i (fun _ => 0) X 0 v returnClause returnClause :=
  .introduced h rfl rfl

theorem safe_optionalReturnClause : Safe c optionalReturnClause :=
  .ifSees rfl (fun _ h => .node (.first (.bump_kind h rfl))) fun _ _ h => safeAt_returnClause h

/-! ## Labels -/

theorem labels_eq : labels = (view >>= fun v =>
    if v.kind.isArgumentLabel && v.kindAt 1 == .colon then bump >>= fun _ => bump
    else if v.kind.isArgumentLabel && (v.kindAt 1).isArgumentLabel && v.kindAt 2 == .colon then
      bump >>= fun _ => bump >>= fun _ => bump
    else pure ()) := by
  refine congrArg (view >>= ·) (funext fun v => ?_)
  cases v.kind.isArgumentLabel <;> simp

theorem safe_labels : Safe c labels := by
  rw [labels_eq]
  refine fun i v => .view_bind (.pair (C := fun w => w.kind.isArgumentLabel && w.kindAt 1 == .colon)
    (fun hin => ?_) (fun w h => ?_) (fun w hw => .bump hw.atEnd) (fun w hw => .bump hw.plain)
    fun _ => ?_)
  · simp only [View.kind_cut (Nat.lt_of_succ_lt hin), View.kindAt_cut hin]
  · rw [Bool.and_eq_true, beq_iff_eq, ← View.kind_tail] at h
    exact ⟨.of_isArgumentLabel h.1, .of_kind h.2 rfl rfl⟩
  -- two labels
  have hwords : ∀ w : View, (w.kind.isArgumentLabel && (w.kindAt 1).isArgumentLabel &&
      w.kindAt 2 == .colon) = true → w.AtWord ∧ w.tail.AtWord ∧ w.tail.tail.AtWord := by
    intro w h
    rw [Bool.and_eq_true, Bool.and_eq_true, beq_iff_eq, ← View.kind_tail, ← View.kindAt_tail,
      ← View.kind_tail] at h
    exact ⟨.of_isArgumentLabel h.1.1, .of_isArgumentLabel h.1.2, .of_kind h.2 rfl rfl⟩
  refine .ahead (C := fun w => w.kind.isArgumentLabel && (w.kindAt 1).isArgumentLabel &&
    w.kindAt 2 == .colon) 2 (fun hin => ?_) (fun h => ?_) (fun h => ?_) (fun h => ?_)
    fun _ => .pure (Nat.le_refl 0)
  · simp only [View.kind_cut (v := v) (c := c) (by omega),
      View.kindAt_cut (c := c) (n := 1) (v := v) (by omega), View.kindAt_cut hin]
  · have hcolon := (hwords _ h).2.2.ne
    rwa [View.kind_tail, View.kindAt_tail] at hcolon
  · obtain ⟨h₀, h₁, h₂⟩ := hwords v h
    exact .bump_bind h₀.atEnd (.bump_bind h₁.atEnd (.bump h₂.atEnd))
  · obtain ⟨h₀, h₁, h₂⟩ := hwords v h
    exact .word_then h₀ (.word_then h₁ (.bump h₂.plain))

/-! ## Types -/

theorem safeAt_simpleType {X : Unit → View → Prop} (h : v.AtWord) :
    SafeAt c i (fun _ => 0) X 0 v simpleType simpleType := by
  refine .node (.bind (.bump h.plain) fun _ _ => .bind safe_joinedGenericArguments.safeAt
    fun _ _ => .repeating fun w => .view_bind ?_)
  refine .pair (C := fun w => w.kind == .dot && (w.kindAt 1 == .ident ||
    w.kindAt 1 == .kwCapitalSelf) && !w.spellsAt 1 "Type" && !w.spellsAt 1 "Protocol")
    (fun hin => ?_) (fun w h => ?_) (fun w hw => ?_) (fun w hw => ?_) fun _ => .pure (Nat.le_refl 0)
  · simp only [View.kind_cut (Nat.lt_of_succ_lt hin), View.kindAt_cut hin, View.spellsAt_cut hin]
  · simp only [Bool.and_eq_true, Bool.or_eq_true, beq_iff_eq, ← View.kind_tail] at h
    refine ⟨.of_kind h.1.1.1 rfl rfl, ?_⟩
    exact h.1.1.2.elim (fun hk => .of_kind hk rfl rfl) fun hk => .of_kind hk rfl rfl
  · exact (Eats.bump hw.atEnd).first
  · refine .bind (.bump hw.plain) fun _ _ => ?_
    exact .bind safe_joinedGenericArguments.safeAt fun _ _ => .pure (Nat.le_refl 0)

theorem safeAt_collectionType {X : Unit → View → Prop} (h : v.kind = .lBracket) :
    SafeAt c i (fun _ => 0) X 0 v collectionType collectionType := by
  refine .bind (.node? (.bind (.bump_opener (by rw [h]; rfl)) fun _ _ => ?_))
    fun _ _ => .pure (Nat.le_refl 0)
  refine .bind safe_type'.safeAt fun _ _ => .bind (.eat rfl rfl) fun keyed _ => ?_
  have hclose : ∀ w, SafeAt c i (fun _ => 0) anyEnd 1 w
      (do require .rBracket .openCollectionType
          pure (some (if keyed then NodeKind.dictionaryType else .arrayType)))
      (do require .rBracket .openCollectionType
          pure (some (if keyed then NodeKind.dictionaryType else .arrayType))) :=
    fun w => .bind (.require_closer rfl) fun _ _ => .pure (Nat.le_refl 0)
  cases keyed with
  | true => exact .bind safe_type'.safeAt fun _ w => hclose w
  | false => exact hclose _

theorem safe_tupleTypeElement : Safe c tupleTypeElement := by
  refine .node (.bind safe_labels fun _ => .bind safe_type fun _ => ?_)
  exact .bind (.eat rfl rfl) fun _ => .pure

theorem safeAt_tupleType {X : Unit → View → Prop} (h : v.kind = .lParen) :
    SafeAt c i (fun _ => 0) X 0 v tupleType tupleType :=
  .node (.bracketed (by rw [h]; rfl) rfl fun _ => .separatedUntil
    (fun _ _ _ => .inr (Nat.succ_pos i)) fun _ => safe_tupleTypeElement.safeAt)

theorem safe_primaryType : Safe c primaryType := by
  refine fun i v => .kind_bind (.inl (fun s hs => ?_)) ?_
  · subst hs
    exact feeds_primaryType.eats s rfl
  · split
    · next h =>
      exact .bind (safeAt_simpleType (.of_kind h rfl rfl)) fun _ _ => .pure (Nat.le_refl 0)
    · next h =>
      exact .bind (safeAt_simpleType (.of_kind h rfl rfl)) fun _ _ => .pure (Nat.le_refl 0)
    · next h =>
      exact .bind (safeAt_simpleType (.of_kind h rfl rfl)) fun _ _ => .pure (Nat.le_refl 0)
    · next h => exact .bind (safeAt_collectionType h) fun _ _ => .pure (Nat.le_refl 0)
    · next h => exact .bind (safeAt_tupleType h) fun _ _ => .pure (Nat.le_refl 0)
    · exact .complains (.first .report)

theorem typeSuffix_eq : typeSuffix = (view >>= fun v =>
    if v.kind == .question && !v.gap.trivia then
      wrap .optionalType bump >>= fun _ => pure true
    else if v.kind == .exclamation && !v.gap.trivia then
      wrap .implicitlyUnwrappedOptionalType bump >>= fun _ => pure true
    else if v.kind == .dot && (v.spellsAt 1 "Type" || v.spellsAt 1 "Protocol") then
      wrap .metatypeType (bump >>= fun _ => bump) >>= fun _ => pure true
    else pure false) := by
  refine congrArg (view >>= ·) (funext fun v => ?_)
  split
  · next h => cases v.gap.trivia <;> simp [h]
  · next h => cases v.gap.trivia <;> simp [h]
  · next h => simp [h]
  · next h₁ h₂ h₃ =>
    have hquestion : v.kind ≠ .question := h₁
    have hexclamation : v.kind ≠ .exclamation := h₂
    have hdot : v.kind ≠ .dot := h₃
    simp [hquestion, hexclamation, hdot]

theorem safe_typeSuffix : Safe c typeSuffix := by
  rw [typeSuffix_eq]
  -- a mark directly behind the type
  have hmark : ∀ {x : TokenKind} {kind : NodeKind} {i : Nat} {v : View} {p q : Parser Bool},
      (x == .eof) = false → x.isOpener = false →
      SafeAt c i (fun _ => 0) anyEnd 0 v p q → SafeAt c i (fun _ => 0) anyEnd 0 v
        (if v.kind == x && !v.gap.trivia then wrap kind bump >>= fun _ => pure true else p)
        (if (v.cut c).kind == x && !(v.cut c).gap.trivia then
          wrap kind bump >>= fun _ => pure true else q) := by
    intro x kind i v p q hx ho hnot
    have hword : ∀ w : View, (w.kind == x && !w.gap.trivia) = true → w.AtWord := fun w hw =>
      .of_kind (eq_of_beq (Bool.and_eq_true_iff.mp hw).1) hx ho
    refine .ahead (C := fun w => w.kind == x && !w.gap.trivia) 0 (fun hin => ?_)
      (fun h => (hword _ h).ne) (fun h => ?_) (fun h => ?_) fun _ => hnot
    · rw [View.kind_cut hin, View.gap_cut hin]
    · exact (Eats.wrap (.bump (hword v h).atEnd)).first
    · exact .bind (.wrap (.bump (hword v h).plain)) fun _ _ => .pure (Nat.le_refl 0)
  refine fun i v => .view_bind (hmark rfl rfl (hmark rfl rfl ?_))
  have hwords : ∀ w : View, (w.kind == .dot && (w.spellsAt 1 "Type" || w.spellsAt 1 "Protocol")) =
      true → w.AtWord ∧ w.tail.AtWord := by
    intro w h
    simp only [View.spellsAt, Bool.and_eq_true, Bool.or_eq_true, beq_iff_eq, ← View.kind_tail] at h
    exact ⟨.of_kind h.1 rfl rfl, .of_kind (h.2.elim And.left And.left) rfl rfl⟩
  refine .ahead (C := fun w => w.kind == .dot && (w.spellsAt 1 "Type" || w.spellsAt 1 "Protocol")) 1
    (fun hin => ?_) (fun h => ?_) (fun h => ?_) (fun h => ?_) fun _ => .pure (Nat.le_refl 0)
  · simp only [View.kind_cut (Nat.lt_of_succ_lt hin), View.spellsAt_cut hin]
  · exact View.kind_tail _ ▸ (hwords _ h).2.ne
  · exact (Eats.wrap (.bump_bind (hwords v h).1.atEnd (.bump (hwords v h).2.atEnd))).first
  · refine .bind (.wrap (.word_then (hwords v h).1 (.bump (hwords v h).2.plain))) fun _ _ => ?_
    exact .pure (Nat.le_refl 0)

/-! ## Function types -/

theorem seesJoined_lParen (v : View) :
    Lookahead.seesJoined .lParen v.lexemes = v.seesJoined .lParen := by
  rw [View.seesJoined, View.kind, View.kindAt, View.gap, View.gapAt]
  cases v.lexemes <;> rfl

/-- Without thrown types, the effects that are skipped are consumed. -/
theorem wlp_effects {G : Outcomes} {s : State} (h : Cuttable c s.view.lexemes) :
    wlp G effects (fun _ t => t.view.lexemes = Lookahead.skipEffects s.view.lexemes) s := by
  -- a round consumes one word, since no thrown type is told behind `throws`
  have hround : ∀ t : State, t.view.lexemes <:+ s.view.lexemes → wlp G effectRound (fun found u =>
      u.view.lexemes = (if found then t.view.lexemes.drop 1 else t.view.lexemes) ∧
        Lookahead.atEffect t.view.lexemes = found) t := by
    intro t ht
    refine wlp_view_bind ?_
    dsimp only
    split
    · next hat =>
      have hone : t.consume.view.lexemes = t.view.lexemes.drop 1 :=
        lexemes_consume fun l hl => h.noEnd l (ht.subset hl)
      refine wlp_bind (wlp_bump ?_)
      split
      · next hthrows =>
        have hno : t.consume.view.seesJoined .lParen = false := by
          rw [← seesJoined_lParen, hone]
          cases hls : t.view.lexemes with
          | nil => rfl
          | cons l rest =>
            rw [hls] at ht hthrows
            exact h.untyped l rest ht hthrows
        refine wlp_seesJoined_bind ?_
        rw [hno, if_neg Bool.false_ne_true]
        exact ⟨hone, hat⟩
      · exact ⟨hone, hat⟩
    · next hat => exact ⟨rfl, Bool.eq_false_iff.mpr hat⟩
  refine wlp_view_bind ?_
  split
  · rw [effectSpecifiers_eq]
    refine wlp_andThen (wlp_repeating (s := s.start false)
      (I := fun t => t.view.lexemes <:+ s.view.lexemes ∧
        Lookahead.skipEffects t.view.lexemes = Lookahead.skipEffects s.view.lexemes)
      (Q := fun t => t.view.lexemes = Lookahead.skipEffects s.view.lexemes)
      ⟨List.suffix_rfl, rfl⟩ fun t ht => wlp_mono (fun found u hu => ?_) (hround t ht.1))
    obtain ⟨hlexemes, hat⟩ := hu
    cases found with
    | true =>
      rw [if_pos rfl] at hlexemes
      refine ⟨hlexemes ▸ (List.drop_suffix 1 _).trans ht.1, ?_⟩
      rw [← ht.2, hlexemes]
      have huntyped : Lookahead.Untyped t.view.lexemes :=
        fun l rest hl => h.untyped l rest (hl.trans ht.1)
      exact (Lookahead.skipEffects_drop huntyped hat).symm
    | false =>
      rw [if_neg Bool.false_ne_true] at hlexemes
      show u.view.lexemes = _
      rw [← ht.2, hlexemes,
        Lookahead.skipEffects_of_none (Lookahead.skipEffect?_of_not_atEffect hat)]
  · next hat =>
    exact (Lookahead.skipEffects_of_none
      (Lookahead.skipEffect?_of_not_atEffect (Bool.eq_false_iff.mpr hat))).symm

/-- Where the effects end before the cut, what comes behind them is seen on the front part. -/
theorem atFunctionTail_cut (h : Cuttable c v.lexemes)
    (hleft : c.behind < (Lookahead.skipEffects v.lexemes).length ∨
      Lookahead.atFunctionTail (v.cut c).lexemes = true) :
    Lookahead.atFunctionTail (v.cut c).lexemes = Lookahead.atFunctionTail v.lexemes := by
  obtain ⟨rest, hrest, hlength⟩ := View.lexemes_eq_cut c v
  have huntyped := h.untyped
  rw [hrest] at huntyped ⊢
  refine (Lookahead.atFunctionTail_front huntyped (hleft.imp_left fun hlt => ?_)).symm
  have hle : (Lookahead.skipEffects v.lexemes).length ≤ v.lexemes.length :=
    Lookahead.length_skipMany_le Lookahead.shortens_skipEffect? _ _
  rwa [← hrest, hlength (by omega)]

theorem kind_of_skipEffects {w : View} (hw : w.lexemes = Lookahead.skipEffects v.lexemes)
    (htail : Lookahead.atFunctionTail v.lexemes = true) : w.kind = .arrow := by
  rw [← headKind_lexemes, hw]
  exact eq_of_beq htail

theorem safeAt_functionTail (htail : Lookahead.atFunctionTail v.lexemes = true) :
    SafeAt c i (fun _ => 0) anyEnd 0 v (do effects; returnClause) (do effects; returnClause) := by
  refine .bind_known (K := fun _ w => w.lexemes = Lookahead.skipEffects v.lexemes)
    safe_effects.safeAt ?_ fun _ w hw => safeAt_returnClause (kind_of_skipEffects hw htail)
  rintro s rfl hlies
  exact wlp_effects hlies.lexemes

/-- The tail of a function ends behind its effects. -/
theorem wlp_functionTail {s : State} (h : Cuttable c s.view.lexemes)
    (htail : Lookahead.atFunctionTail s.view.lexemes = true) :
    wlp Filling (do effects; returnClause) (fun _ t => t.reports = [] →
      t.left < (Lookahead.skipEffects s.view.lexemes).length) s := by
  refine wlp_bind (wlp_mono (fun _ t ht => ?_) (wlp_effects h))
  have hfed : Feeds false t.view returnClause :=
    .node (.first (.bump_kind (kind_of_skipEffects ht htail) rfl))
  refine wlp_mono (fun _ u hu hreports => ?_) (hfed t rfl)
  have hlt := hu.resolve_right fun hr => hr.2 hreports
  rwa [← ht]

theorem safe_typeTail {tuple : Bool} : Safe c (typeTail tuple) := by
  refine fun i v => .view_bind ?_
  have hsuffixes : Safe c (repeating typeSuffix) := .repeating safe_typeSuffix
  cases htail : tuple && Lookahead.atFunctionTail v.lexemes with
  | false =>
    rw [if_neg Bool.false_ne_true]
    refine .late (r := repeating typeSuffix) (Q := fun _ _ _ => True) hsuffixes.safeAt
      (fun s _ _ => wlp_of_forall (fun _ _ => trivial) s) ?_
    rintro s t - rfl hlies - - - - -
    rw [if_neg fun hcut => ?_]
    rw [Bool.and_eq_true] at hcut
    rw [hcut.1, Bool.true_and, ← atFunctionTail_cut hlies.lexemes (.inr hcut.2), hcut.2] at htail
    cases htail
  | true =>
    obtain ⟨rfl, htail⟩ := Bool.and_eq_true_iff.mp htail
    rw [if_pos rfl]
    -- the arrow that makes it a function is consumed, so it stands before the cut
    refine .late (r := wrap .functionType (do effects; returnClause) >>= fun _ =>
      repeating typeSuffix) (Q := fun _ s t => t.reports = [] →
      t.left < (Lookahead.skipEffects s.view.lexemes).length)
      (.bind (safeAt_functionTail htail).wrap fun _ _ => hsuffixes.safeAt) ?_ ?_
    · rintro s rfl hlies
      refine wlp_bind (wlp_andThen (wlp_mono (fun _ t ht => ?_)
        (wlp_cutting (wlp_functionTail (s := s.start true) hlies.lexemes htail))))
      show wlp (Cutting c) (repeating typeSuffix) _ (t.finish s true (some .functionType))
      refine wlp_mono (fun _ u hu hreports => ?_) (wlp_cutting (wlp_reaches _ _))
      exact Nat.lt_of_le_of_lt hu.left_le (ht (hu.reports_eq_nil hreports))
    · rintro s t - rfl hlies hlt - - hbounded -
      have hleft := Nat.lt_of_le_of_lt hbounded.within (hlt hbounded.clean)
      rw [atFunctionTail_cut hlies.lexemes (.inl hleft), htail, if_pos rfl]

/-! ## Types with marks and types that are joined -/

theorem safe_postfixType : Safe c postfixType := by
  have hrest : ∀ (tuple : Bool) (i : Nat) (v : View), SafeAt c i (fun _ => 0) anyEnd 0 v
      (do if ← primaryType then typeTail tuple; pure true else pure false)
      (do if ← primaryType then typeTail tuple; pure true else pure false) := by
    refine fun tuple i v => .bind (safe_primaryType i v) fun b w => ?_
    cases b with
    | true => exact .bind safe_typeTail.safeAt fun _ _ => .pure (Nat.le_refl 0)
    | false => exact .pure (Nat.le_refl 0)
  refine fun i v => .sees_bind rfl (fun _ => ?_) (fun _ => hrest true i v) fun _ => hrest false i v
  exact feeds_primaryType.eats.first

theorem safe_joinedType : Safe c joinedType := by
  refine .bind (.eat rfl rfl) fun b => ?_
  cases b with
  | true => exact .bind safe_postfixType fun _ => .pure
  | false => exact .pure

theorem safe_compositionType : Safe c compositionType := by
  refine .bind safe_postfixType fun b => ?_
  cases b with
  | false => exact .pure
  | true =>
    have hjoined : Safe c (wrap .compositionType (repeating joinedType)) :=
      .wrap (.repeating safe_joinedType)
    refine fun i v => .sees_bind rfl (fun h => ?_) (fun _ => ?_) fun _ => ?_
    · refine Eats.first (Eats.wrap (Feeds.eats (x := false) (.repeating (.first ?_))))
      exact .eat (beq_iff_eq.mpr h) rfl
    · exact .bind hjoined.safeAt fun _ _ => .pure (Nat.le_refl 0)
    · exact .pure (Nat.le_refl 0)

/-! ## The rule for types -/

/-- A specifier tells apart by what comes behind it. -/
theorem atTypeSpecifier_cut (h : c.behind + 1 < v.lexemes.length ∨
    c.behind < v.lexemes.length ∧ v.kind = .kwInout) :
    atTypeSpecifier (v.cut c) = atTypeSpecifier v := by
  rcases h with h | ⟨h, hk⟩
  · rw [atTypeSpecifier, atTypeSpecifier, View.kind_cut (by omega), View.text_cut (by omega),
      View.kindAt_cut h]
  · rw [atTypeSpecifier, atTypeSpecifier, View.kind_cut h, hk]
    rfl

theorem atTypeSpecifier_of_cut (h : atTypeSpecifier (v.cut c) = true) :
    atTypeSpecifier v = true := by
  by_cases hnext : (v.cut c).kindAt 1 = .eof
  · rw [atTypeSpecifier, hnext] at h
    simp only [beginsType, Bool.or_eq_true, Bool.and_eq_true, beq_iff_eq, reduceCtorEq, or_false,
      Bool.false_eq_true, and_false] at h
    have hin := View.lt_of_kindAt_cut (n := 0) v (c := c) (by
      show (v.cut c).kind ≠ .eof
      rw [h]
      decide)
    rw [atTypeSpecifier, ← View.kind_cut hin, h]
    rfl
  · rwa [← atTypeSpecifier_cut (.inl (View.lt_of_kindAt_cut v hnext))]

theorem atWord_of_atTypeSpecifier (h : atTypeSpecifier v = true) : v.AtWord := by
  simp only [atTypeSpecifier, Bool.or_eq_true, Bool.and_eq_true, beq_iff_eq] at h
  exact h.elim (fun hk => .of_kind hk rfl rfl) fun hk => .of_kind hk.1.1 rfl rfl

/-- A specifier with something behind it before the cut. -/
theorem safeAt_typeSpecifier : SafeAt c i (fun _ => 0) (fun _ w => w.Before c) 0 v
    typeSpecifier typeSpecifier := by
  refine .view_bind (.late (r := if atTypeSpecifier v then (do bump; pure true) else pure false)
    (Q := fun found s t => atTypeSpecifier s.view = found ∧
      (found = true → t.view.lexemes = s.view.lexemes.drop 1)) ?_ ?_ ?_)
  · split
    · next h =>
      exact .bind (.bump (atWord_of_atTypeSpecifier h).plain) fun _ _ => .pure (Nat.le_refl 0)
    · exact .pure (Nat.le_refl 0)
  · rintro s rfl hlies
    split
    · next h => exact wlp_bind (wlp_bump ⟨h, fun _ => lexemes_consume hlies.lexemes.noEnd⟩)
    · next h => exact ⟨Bool.eq_false_iff.mpr h, fun h => nomatch h⟩
  · rintro s t found rfl - ⟨hat, hdrop⟩ - - - ht
    cases found with
    | true =>
      -- the word and what follows it tell a specifier, and both stand before the cut
      have hsame : atTypeSpecifier (s.view.cut c) = atTypeSpecifier s.view := by
        by_cases hc : c.behind = 0
        · simp only [atTypeSpecifier, View.kind, View.text, View.kindAt, View.textAt,
            View.lexemes_cut_of_zero hc]
        · have hlt := ht hc
          rw [hdrop rfl, List.length_drop] at hlt
          exact atTypeSpecifier_cut (.inl (by omega))
      rw [hsame]
    | false =>
      have hcut : atTypeSpecifier (s.view.cut c) = false :=
        Bool.eq_false_iff.mpr fun h => by rw [atTypeSpecifier_of_cut h] at hat; cases hat
      rw [hat, hcut]

theorem safeAt_typeSpecifiers : SafeAt c i (fun _ => 0) (fun _ w => w.Before c) 0 v
    (repeating typeSpecifier) (repeating typeSpecifier) := by
  refine .repeating_of (I := fun w => w.Before c)
    (fun w => .mono (fun b u h => ?_) safeAt_typeSpecifier) fun s _ => ?_
  · cases b <;> exact h
  · refine wlp_mono (fun b t ht _ _ hbefore hc => ?_) (wlp_cutting (wlp_reaches typeSpecifier s))
    have hbehind : t.view.Before c := by cases b <;> exact hbefore
    exact Nat.lt_of_lt_of_le (hbehind hc) ht.left_le

theorem safeAt_attributedType {X : Unit → View → Prop} : SafeAt c i (fun _ => 0) X 0 v
    (do repeating typeSpecifier; attributes; follow' .type)
    (do repeating typeSpecifier; attributes; follow' .type) := by
  refine .bind_fed safeAt_typeSpecifiers (fun _ _ => ?_) fun _ _ => ?_
  · exact .bind safe_attributes.safeAt fun _ _ => safe_type'.safeAt
  · exact .last fun _ _ => (Feeds.follow' rfl).eats

theorem eats_attributedType (h : atTypeSpecifier v = true) :
    Eats 1 v (do repeating typeSpecifier; attributes; follow' .type) := by
  refine .both (Feeds.eats (x := false) (.repeating (.view_bind ?_))) fun _ _ => ?_
  · rw [if_pos h]
    exact .first (.bump (atWord_of_atTypeSpecifier h).atEnd)
  · exact .last fun _ _ => (Feeds.follow' rfl).eats

theorem safe_typeExpr : Safe c typeExpr := by
  have hword : ∀ w : View, ((w.spells "some" || w.spells "any") && beginsType (w.kindAt 1) &&
      !(w.gapAt 1).newline) = true → w.AtWord ∧ w.kindAt 1 ≠ .eof := by
    intro w h
    simp only [View.spells, View.spellsAt, Bool.and_eq_true, Bool.or_eq_true, beq_iff_eq] at h
    refine ⟨.of_kind (h.1.1.elim And.left And.left) rfl rfl, fun hk => ?_⟩
    rw [hk] at h
    exact absurd h.1.2 (by decide)
  refine fun i v => .view_bind ?_
  by_cases hprefix : (atTypeSpecifier v || v.kind == .atSign) = true
  · rw [if_pos hprefix]
    -- what comes behind a specifier is consumed as well
    have hsame : SafeAt c i (fun _ => 0) anyEnd 0 v
        (node .attributedType (do repeating typeSpecifier; attributes; follow' .type) >>=
          fun _ => pure true)
        (node .attributedType (do repeating typeSpecifier; attributes; follow' .type) >>=
          fun _ => pure true) :=
      .bind (.node safeAt_attributedType) fun _ _ => .pure (Nat.le_refl 0)
    by_cases hspecifier : atTypeSpecifier v = true
    · refine .eaten (Eats.first (.node (eats_attributedType hspecifier))) fun hin => ?_
      rw [atTypeSpecifier_cut (.inl hin), hspecifier, Bool.true_or, if_pos rfl]
      exact hsame
    · have hat : v.kind = .atSign := by simpa [hspecifier] using hprefix
      refine .eaten (n := 0) (Eats.first (.node (.last fun _ _ => .last fun _ _ =>
        (Feeds.follow' rfl).eats))) fun hin => ?_
      rw [View.kind_cut hin, hat, beq_self_eq_true, Bool.or_true, if_pos rfl]
      exact hsame
  · have hcut : ¬ (atTypeSpecifier (v.cut c) || (v.cut c).kind == .atSign) = true := by
      simp only [Bool.or_eq_true, beq_iff_eq, not_or] at hprefix ⊢
      refine ⟨fun h => hprefix.1 (atTypeSpecifier_of_cut h), fun h => hprefix.2 ?_⟩
      rwa [← View.kind_cut (View.lt_of_kindAt_cut (n := 0) v fun hk => by
        rw [show (v.cut c).kindAt 0 = (v.cut c).kind from rfl, h] at hk; cases hk)]
    rw [if_neg hprefix, if_neg hcut]
    refine .ahead (C := fun w => (w.spells "some" || w.spells "any") && beginsType (w.kindAt 1) &&
      !(w.gapAt 1).newline) 1 (fun hin => ?_) (fun h => (hword _ h).2) (fun h => ?_) (fun h => ?_)
      fun _ => safe_compositionType i v
    · simp only [View.spells_cut (Nat.lt_of_succ_lt hin), View.kindAt_cut hin, View.gapAt_cut hin]
    · refine Eats.first (.node (.both (.bump (hword v h).1.atEnd) fun _ _ => ?_))
      exact feeds_compositionType.eats.first
    · refine .bind (.node (.bind (.bump (hword v h).1.plain) fun _ _ => ?_))
        fun _ _ => .pure (Nat.le_refl 0)
      exact .bind safe_compositionType.safeAt fun _ _ => .pure (Nat.le_refl 0)

theorem safe_optionalAscription : Safe c optionalAscription :=
  .ifSees rfl (fun _ h => .node (.first (.bump_kind h rfl)))
    fun _ _ h => .introduced h rfl rfl

end Grammar

end SwiftOutline
