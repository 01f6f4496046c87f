/-
  SwiftOutline.Proofs.Cut.Signature

  Generic clauses, signatures and blocks on a front part of a text. Parameters
  and accessors look further ahead than they consume, but stand in brackets that
  are closed before the cut.
-/
import SwiftOutline.Proofs.Cut.TypeExpr

namespace SwiftOutline

namespace Grammar

open SwiftOutline.Parser

variable {c : Cut} {i n : Nat} {v : View}

/-! ## Names and values -/

theorem safe_name : Safe c name := by
  refine fun i v => .sees_bind rfl (fun h => ?_) (fun h => ?_) fun _ => ?_
  · rw [if_pos rfl]
    exact .node (.bump (View.atEnd_of_kind h rfl))
  · rw [if_pos rfl]
    exact .node (.bump_kind h rfl)
  · exact .complains .report

theorem eats_name : Eats 0 v name := feeds_name.eats

theorem safeAt_initializerClause {place : Place} {X : Unit → View → Prop} (h : v.kind = .eq) :
    SafeAt c i (fun _ => 0) X 0 v (initializerClause place) (initializerClause place) :=
  .introduced h rfl rfl

theorem safe_initialValue : Safe c initialValue :=
  .ifSees rfl (fun _ h => .node (.first (.bump_kind h rfl))) fun _ _ h => safeAt_initializerClause h

/-! ## Generics -/

theorem safe_requirement : Safe c requirement := by
  have htype : Safe c (follow' .type >>= fun _ => (pure (some NodeKind.conformanceRequirement) :
      Parser (Option NodeKind))) := .bind safe_type' fun _ => .pure
  refine .bind (fun i v => .node? (.bind (safe_type i v) fun b w => ?_)) fun _ => .pure
  cases b with
  | false => exact .pure (Nat.le_refl 0)
  | true =>
    refine .view_bind (.word (C := fun w => w.kind == .colon) (fun hin => ?_)
      (fun w hw => .of_kind (eq_of_beq hw) rfl rfl) (fun w => ?_) fun _ => ?_)
    · rw [View.kind_cut hin]
    · refine .view_bind (.word (C := fun w => w.kind == .ident && layoutConstraints.contains w.text)
        (fun hin => ?_) (fun w hw => ?_) (fun w => ?_) fun _ => htype.safeAt)
      · rw [View.kind_cut hin, View.text_cut hin]
      · exact .of_kind (eq_of_beq (Bool.and_eq_true_iff.mp hw).1) rfl rfl
      · refine .sees_bind rfl (fun h => ?_) (fun _ => ?_) fun _ => .pure (Nat.le_refl 0)
        · exact (Feeds.first (x := false) (.of_advances
            (bumpBalanced_of_not_atEnd (View.atEnd_of_kind h rfl)))).eats
        · exact .bind safe_bumpBalanced.safeAt fun _ _ => .pure (Nat.le_refl 0)
    · refine .word (C := fun w => w.kind == .operator && w.text == "==") (fun hin => ?_)
        (fun w hw => ?_) (fun w => ?_) fun _ => .complains (.first .report)
      · rw [View.kind_cut hin, View.text_cut hin]
      · exact .of_kind (eq_of_beq (Bool.and_eq_true_iff.mp hw).1) rfl rfl
      · exact .bind safe_type'.safeAt fun _ _ => .pure (Nat.le_refl 0)

theorem safe_whereRequirements : Safe c whereRequirements := by
  refine .ifSees rfl (fun _ h => .node (.first (.bump_kind h rfl))) fun i v h => ?_
  refine .node (.bind (.bump_kind h rfl) fun _ _ => .separated fun w => ?_)
  exact .bind (safe_requirement i w) fun _ _ => .pure (Nat.le_refl 0)

/-- The name of a generic parameter and its bound. -/
theorem safe_boundName : Safe c (do
    name
    if ← eat .colon then follow' .type) :=
  .bind safe_name fun _ => .bind (.eat rfl rfl) fun _ => .ite (fun _ => safe_type') fun _ => .pure

theorem safe_genericParameter : Safe c genericParameter := by
  have hwords : ∀ w : View, (w.spells "each" && w.kindAt 1 == .ident) = true →
      w.AtWord ∧ w.kindAt 1 ≠ .eof := by
    intro w h
    rw [Bool.and_eq_true, beq_iff_eq] at h
    exact ⟨.of_spells h.1, by rw [h.2]; decide⟩
  refine .node (.bind safe_attributes fun _ => fun i v => .view_bind (.ahead
    (C := fun w => w.spells "each" && w.kindAt 1 == .ident) 1 (fun hin => ?_)
    (fun h => (hwords _ h).2) (fun h => ?_) (fun h => ?_) fun _ => safe_boundName i v))
  · rw [View.spells_cut (Nat.lt_of_succ_lt hin), View.kindAt_cut hin]
  · exact .bump_bind (hwords v h).1.atEnd eats_name.first
  · exact .bind (.bump (hwords v h).1.plain) fun _ w => safe_boundName i w

theorem eats_genericParameter : Eats 0 v genericParameter := by
  refine .node (.last fun _ _ => Feeds.eats (x := false) (.view_bind ?_))
  dsimp only
  split
  · exact .last fun _ _ => .first feeds_name
  · exact .first feeds_name

theorem safeAt_genericParameterClause {X : Unit → View → Prop} (h : v.kind = .lt) :
    SafeAt c i (fun _ => 0) X 0 v genericParameterClause genericParameterClause := by
  refine .node (.bind (.bump_kind h rfl) fun _ _ => .bind (.separatedUntil (fun w _ _ => ?_)
    fun w => ?_) fun _ _ => .bind safe_whereRequirements.safeAt fun _ _ => .require rfl rfl)
  · exact .inl eats_genericParameter.first
  · exact .bind safe_genericParameter.safeAt fun _ _ => .pure (Nat.le_refl 0)

theorem safe_genericParameters : Safe c genericParameters :=
  .ifSees rfl (fun _ h => .node (.first (.bump_kind h rfl)))
    fun _ _ h => safeAt_genericParameterClause h

theorem safeAt_primaryAssociatedTypes {X : Unit → View → Prop} (h : v.kind = .lt) :
    SafeAt c i (fun _ => 0) X 0 v primaryAssociatedTypes primaryAssociatedTypes := by
  refine .node (.bind (.bump_kind h rfl) fun _ _ => .bind (.separatedUntil (fun w _ _ => ?_)
    fun w => ?_) fun _ _ => .require rfl rfl)
  · exact .inl (.last fun _ _ => eats_name.first)
  · refine .sees_bind rfl (fun _ => eats_name.first) (fun _ => ?_) fun _ => ?_
    · exact .bind safe_name.safeAt fun _ _ => .pure (Nat.le_refl 0)
    · exact .bind safe_name.safeAt fun _ _ => .pure (Nat.le_refl 0)

theorem safe_inheritedType : Safe c inheritedType := by
  have htype : Safe c (do if ← sees .kwClass then bump else follow' .type) := by
    refine fun i v => .sees_bind rfl (fun h => ?_) (fun h => ?_) fun _ => safe_type' i v
    · exact .bump (View.atEnd_of_kind h rfl)
    · exact .bump_kind h rfl
  refine .node fun i v => .view_bind (.word (C := fun w => w.kind == .operator && w.text == "~")
    (fun hin => ?_) (fun w hw => ?_) (fun w => htype i w) fun _ => htype i v)
  · rw [View.kind_cut hin, View.text_cut hin]
  · exact .of_kind (eq_of_beq (Bool.and_eq_true_iff.mp hw).1) rfl rfl

theorem safe_inheritance : Safe c inheritance := by
  refine .ifSees rfl (fun _ h => .node (.first (.bump_kind h rfl))) fun i v h => ?_
  refine .node (.bind (.bump_kind h rfl) fun _ _ => .separated fun w => ?_)
  exact .bind (safe_inheritedType i w) fun _ _ => .pure (Nat.le_refl 0)

/-! ## Parameters -/

/-- Names of a parameter, which stands in brackets that are closed before the cut. -/
theorem safeAt_parameterNames :
    SafeAt c (i + 1) (fun _ => 0) anyEnd 0 v parameterNames parameterNames := by
  have hlabel : ∀ k : TokenKind, k.isArgumentLabel = true → k.isCloser = false ∧
      k.isOpener = false := by
    intro k hk
    revert hk
    cases k <;> decide
  have hbump : ∀ w : View, w.kind.isArgumentLabel = true ∨ w.kind = .colon →
      SafeAt c (i + 1) (fun _ => 0) anyEnd 0 w bump bump := by
    intro w hw
    exact .bump (hw.elim (fun h => (hlabel _ h).2) fun h => by rw [h]; rfl)
  refine .view_decided ?_ ?_
  · dsimp only
    split
    · next h =>
      split
      · exact hbump v (.inl h)
      · split
        · next hsecond =>
          have hend := (View.AtWord.of_isArgumentLabel h).atEnd
          rw [← View.kind_tail] at hsecond
          exact .bump_then hend (hbump v (.inl h))
            (hbump _ (.inl (Bool.and_eq_true_iff.mp hsecond).1))
        · split
          · exact hbump v (.inl h)
          · exact .pure (Nat.le_refl 0)
    · exact .pure (Nat.le_refl 0)
  · -- no label is a bracket, so the two lexemes behind labels stand before the closing one
    intro _ hle hcloses
    rw [Nat.zero_add] at hcloses
    dsimp only
    rw [hcloses.kind_cut hle]
    cases hk : v.kind.isArgumentLabel with
    | false => rfl
    | true =>
      have hone := hcloses.lt_succ hle (hlabel _ hk).1
      rw [View.kindAt_cut' hone]
      cases hsecond : (v.kindAt 1).isArgumentLabel with
      | false => rfl
      | true =>
        have htail : v.tail.kind.isCloser = false := by
          rw [View.kind_tail]
          exact (hlabel _ hsecond).1
        rw [View.kindAt_cut' (n := 2) fun hc => ?_]
        have hlength : v.tail.lexemes.length = v.lexemes.length - 1 := List.length_drop
        have hlt := hone hc
        have htwo := (hcloses.tail hle (hlabel _ hk).1).lt_succ (by omega) htail hc
        omega

theorem safeAt_parameter {X : Unit → View → Prop} :
    SafeAt c (i + 1) (fun _ => 0) X 0 v parameter parameter := by
  have hrest : Safe c (do let _ ← eat .ellipsis; initialValue) :=
    .bind (.eat rfl rfl) fun _ => safe_initialValue
  refine .node (.bind safe_attributes.safeAt fun _ _ => .bind safeAt_parameterNames fun _ _ =>
    .bind (.eat rfl rfl) fun b w => ?_)
  cases b with
  | true => exact .bind safe_type'.safeAt fun _ _ => hrest.safeAt
  | false =>
    refine .kind_inside ?_
    split
    · exact hrest.safeAt
    · exact hrest.safeAt
    · exact .complains Complains.report.first

/-- One element of a list of parameters, which tells whether it has consumed anything. -/
theorem safeAt_parameterElement {X : Bool → View → Prop} : SafeAt c (i + 1) (fun _ => 0) X 0 v
    (do
      let before ← view
      parameter
      let after ← view
      pure (after.lexemes.length != before.lexemes.length))
    (do
      let before ← view
      parameter
      let after ← view
      pure (after.lexemes.length != before.lexemes.length)) := by
  refine .within fun hle => .view_bind (.bind safeAt_parameter fun _ w => .within fun hle' =>
    .view_bind ?_)
  have hsame : ((w.cut c).lexemes.length != (v.cut c).lexemes.length) =
      (w.lexemes.length != v.lexemes.length) := by
    rw [View.length_cut, View.length_cut, Bool.eq_iff_iff, bne_iff_ne, bne_iff_ne]
    omega
  rw [hsame]
  exact .pure (Nat.le_refl 0)

theorem safeAt_parameterClause {X : Unit → View → Prop} (h : v.kind = .lParen) :
    SafeAt c i (fun _ => 0) X 0 v parameterClause parameterClause :=
  .node (.bracketed (by rw [h]; rfl) rfl fun _ => .separatedUntil
    (fun _ _ _ => .inr (Nat.succ_pos i)) fun _ => safeAt_parameterElement)

theorem safe_functionSignature : Safe c functionSignature := by
  have hresult : Safe c (do effects; optionalReturnClause) :=
    .bind safe_effects fun _ => safe_optionalReturnClause
  refine .node fun i v => .sees_bind rfl (fun h => ?_) (fun h => ?_) fun _ => ?_
  · exact (Eats.node (Feeds.first (x := false) (.bump_kind h rfl)).eats).first
  · exact .bind (safeAt_parameterClause h) fun _ _ => hresult.safeAt
  · exact .complains Complains.report.first

/-! ## Code blocks -/

theorem safe_codeBlock : Safe c codeBlock := by
  refine fun i v => .sees_bind rfl (fun h => ?_) (fun h => ?_) fun _ => .complains .report
  · exact (Feeds.node (x := false) (.first (.bump_kind h rfl))).eats
  · exact .node (.braced h)

theorem eats_codeBlock (h : v.kind = .lBrace) : Eats 0 v codeBlock := by
  refine (Feeds.sees_bind (x := false) ?_).eats
  rw [if_pos (beq_iff_eq.mpr h)]
  exact .node (.first (.bump_kind h rfl))

/-- Where no block begins, that is reported. -/
theorem complains_codeBlock (h : v.kind ≠ .lBrace) : Complains v codeBlock := by
  rintro s rfl
  refine wlp_sees_bind ?_
  rw [if_neg (by simpa using h)]
  exact List.cons_ne_nil _ _

theorem safe_optionalCodeBlock : Safe c optionalCodeBlock :=
  .ifSees rfl (fun _ h => (eats_codeBlock h).feeds) fun i v _ => safe_codeBlock i v

/-! ## Accessors -/

theorem safe_accessorParameter : Safe c accessorParameter := by
  refine .ifSees rfl (fun _ h => .node (.first (.bump_kind h rfl))) fun i v h => ?_
  refine .node (.bind (.bump_opener (by rw [h]; rfl)) fun _ _ => ?_)
  exact .bind (.require rfl rfl) fun _ _ => .require_closer rfl

theorem safeAt_accessor {X : Unit → View → Prop} (h : Lookahead.atAccessor v.lexemes = true) :
    SafeAt c (i + 1) (fun _ => 0) X 0 v accessor accessor := by
  have hrest : Safe c (do accessorParameter; effects; optionalCodeBlock) :=
    .bind safe_accessorParameter fun _ => .bind safe_effects fun _ => safe_optionalCodeBlock
  refine .node (safeAt_introduction (fun w hw => .bind (.bump ?_) fun _ _ => hrest.safeAt)
    fun t _ => wlp_of_forall (fun _ _ _ _ hbounded => ?_) t)
  · rw [← headKind_lexemes, hw]
    rcases Lookahead.headKind_of_atAccessor h with hk | hk <;> rw [hk] <;> rfl
  · exact View.Closes.before hbounded.closes hbounded.within

/-- Between braces, whether an accessor comes next is told by what stands before the cut. -/
theorem atAccessor_cut (h : v.Closes c (n + 1)) (hcut : Cuttable c v.lexemes) :
    Lookahead.atAccessor (v.cut c).lexemes = Lookahead.atAccessor v.lexemes :=
  h.walled.blind hcut fun _ _ => Lookahead.blind_atAccessor

theorem safeAt_accessorBlock {X : Unit → View → Prop} (h : v.kind = .lBrace) :
    SafeAt c i (fun _ => 0) X 0 v accessorBlock accessorBlock := by
  refine .node (.bind (.bump_opener (by rw [h]; rfl)) fun _ w => .view_decided ?_
    fun hcut _ hcloses => ?_)
  · dsimp only
    split
    · refine .closed_of rfl (.repeating fun u => .view_decided ?_ fun hcut hle hcloses => ?_)
      · split
        · exact .pure (Nat.le_refl 0)
        · split
          · next hat => exact .bind (safeAt_accessor hat) fun _ _ => .pure (Nat.le_refl 0)
          · split
            · exact .complains Complains.recover.first
            · exact .complains Complains.recover.first
      · rw [Nat.zero_add] at hcloses
        rw [View.atEnd, hcloses.kind_cut hle, atAccessor_cut hcloses hcut]
        rfl
    · exact .items
  · rw [Nat.add_comm] at hcloses
    rw [atAccessor_cut hcloses hcut]

theorem eats_accessorBlock (h : v.kind = .lBrace) : Eats 0 v accessorBlock :=
  (Feeds.node (x := false) (.first (.bump_kind h rfl))).eats

/-! ## Closures -/

theorem safe_closureNames : Safe c closureNames := by
  refine .repeating fun i v => .kind_bind ?_ ?_
  · split
    · next h => exact .inl (Feeds.first (x := false) (.bump_kind h rfl)).eats
    · next h => exact .inl (Feeds.first (x := false) (.bump_kind h rfl)).eats
    · exact .inr rfl
  · split
    · next h => exact .bind (.bump_kind h rfl) fun _ _ => .eat rfl rfl
    · next h => exact .bind (.bump_kind h rfl) fun _ _ => .eat rfl rfl
    · exact .pure (Nat.le_refl 0)

theorem safe_closureSignature : Safe c closureSignature := by
  have hresult : Safe c (do effects; optionalReturnClause; require .kwIn .noClosureIn) :=
    .bind safe_effects fun _ => .bind safe_optionalReturnClause fun _ => .require rfl rfl
  have hparameters : Safe c (do
      if ← sees .lParen then parameterClause else closureNames
      effects
      optionalReturnClause
      require .kwIn .noClosureIn) := by
    refine fun i v => .sees_bind rfl (fun h => ?_) (fun h => ?_) fun _ => ?_
    · exact (Eats.node (Feeds.first (x := false) (.bump_kind h rfl)).eats).first
    · exact .bind (safeAt_parameterClause h) fun _ _ => hresult.safeAt
    · exact .bind safe_closureNames.safeAt fun _ _ => hresult.safeAt
  refine .node (.bind safe_attributes fun _ => fun i v => .sees_bind rfl (fun h => ?_)
    (fun _ => ?_) fun _ => hparameters i v)
  · exact (Feeds.first (x := false) (.of_advances
      (bumpBalanced_of_not_atEnd (View.atEnd_of_kind h rfl)))).eats
  · exact .bind safe_bumpBalanced.safeAt fun _ _ => hparameters.safeAt

/-- Behind the brace of a closure, whether it has a signature is told by what stands before the
    cut. -/
theorem safeAt_closureRest {X : Unit → View → Prop} :
    SafeAt c i (fun _ => 0) X 1 v closureRest closureRest := by
  refine .view_decided ?_ fun hcut _ hcloses => ?_
  · dsimp only
    split
    · exact .bind safe_closureSignature.safeAt fun _ _ => .items
    · exact .items
  · rw [Nat.add_comm] at hcloses
    rw [hcloses.walled.blind hcut fun _ _ => Lookahead.blind_atClosureSignature]

theorem safeAt_closure {X : Unit → View → Prop} (h : v.kind = .lBrace) :
    SafeAt c i (fun _ => 0) X 0 v closure closure :=
  .node (.bind (.bump_opener (by rw [h]; rfl)) fun _ _ => safeAt_closureRest)

theorem eats_closure (h : v.kind = .lBrace) : Eats 0 v closure :=
  (Feeds.node (x := false) (.first (.bump_kind h rfl))).eats

theorem safe_trailingClosures : Safe c trailingClosures := by
  have hwords : ∀ w : View, ((w.kind == .ident || w.kind == .underscore) && !w.gap.newline &&
      w.kindAt 1 == .colon && w.kindAt 2 == .lBrace) = true →
      w.AtWord ∧ w.tail.AtWord ∧ w.tail.tail.kind = .lBrace := by
    intro w h
    simp only [Bool.and_eq_true, Bool.or_eq_true, beq_iff_eq] at h
    refine ⟨h.1.1.1.elim (fun hk => .of_kind hk rfl rfl) fun hk => .of_kind hk rfl rfl, ?_, ?_⟩
    · exact .of_kind ((View.kind_tail w).trans h.1.2) rfl rfl
    · exact (View.kind_tail _).trans ((View.kindAt_tail w 1).trans h.2)
  refine .repeating fun i v => .view_bind (.ahead (C := fun w =>
    (w.kind == .ident || w.kind == .underscore) && !w.gap.newline && w.kindAt 1 == .colon &&
      w.kindAt 2 == .lBrace) 2 (fun hin => ?_) (fun h => ?_) (fun h => ?_) (fun h => ?_)
    fun _ => .pure (Nat.le_refl 0))
  · rw [View.kind_cut (by omega), View.gap_cut (by omega),
      View.kindAt_cut (v := v) (c := c) (n := 1) (by omega), View.kindAt_cut hin]
  · rw [eq_of_beq (Bool.and_eq_true_iff.mp h).2]
    decide
  · obtain ⟨h₀, h₁, h₂⟩ := hwords v h
    exact .bump_bind h₀.atEnd (.bump_bind h₁.atEnd (eats_closure h₂).first)
  · obtain ⟨h₀, h₁, h₂⟩ := hwords v h
    refine .word_then h₀ (.word_then h₁ (.bind (safeAt_closure h₂) fun _ _ => ?_))
    exact .pure (Nat.le_refl 0)

end Grammar

end SwiftOutline
