/-
  SwiftOutline.Proofs.Cut.Declaration

  Declarations on a front part of a text. A declaration is told by the lexeme
  behind its attributes and modifiers, which it consumes.
-/
import SwiftOutline.Proofs.Cut.Expression

namespace SwiftOutline

namespace Grammar

open SwiftOutline.Parser

variable {c : Cut} {i n : Nat} {v : View}

/-! ## Types and extensions -/

theorem safe_memberBlock : Safe c memberBlock := by
  refine fun i v => .sees_bind rfl (fun h => ?_) (fun h => ?_) fun _ => .complains .report
  · exact (Feeds.node (x := false) (.first (.bump_kind h rfl))).eats
  · exact .node (.braced h)

/-- Inheritance, requirements and members, which end types and extensions. -/
theorem safe_nominalEnd : Safe c (do inheritance; whereRequirements; memberBlock) :=
  .bind safe_inheritance fun _ => .bind safe_whereRequirements fun _ => safe_memberBlock

theorem safeAt_nominal {k : NodeKind} (ho : v.kind.isOpener = false) :
    SafeAt c i (fun _ => 0) anyEnd 0 v (nominal k) (nominal k) := by
  refine .bind (.bump ho) fun _ _ => .bind safe_name.safeAt fun _ w => ?_
  refine .sees_bind rfl (fun h => ?_) (fun h => ?_) fun _ => safe_nominalEnd.safeAt
  · dsimp only
    rw [if_pos rfl]
    split
    · exact (Eats.node (Eats.bump (View.atEnd_of_kind h rfl)).first).first
    · exact (Eats.node (Eats.bump (View.atEnd_of_kind h rfl)).first).first
  · dsimp only
    rw [if_pos rfl]
    split
    · exact .bind (safeAt_primaryAssociatedTypes h) fun _ _ => safe_nominalEnd.safeAt
    · exact .bind (safeAt_genericParameterClause h) fun _ _ => safe_nominalEnd.safeAt

theorem safeAt_typeInitializer {X : Unit → View → Prop} (h : v.kind = .eq) :
    SafeAt c i (fun _ => 0) X 0 v typeInitializer typeInitializer :=
  .introduced h rfl rfl

theorem eats_typeInitializer (h : v.kind = .eq) : Eats 0 v typeInitializer :=
  .node (Eats.bump (View.atEnd_of_kind h rfl)).first

theorem safeAt_typeAlias (ho : v.kind.isOpener = false) :
    SafeAt c i (fun _ => 0) anyEnd 0 v typeAlias typeAlias := by
  refine .bind (.bump ho) fun _ _ => .bind safe_name.safeAt fun _ _ => ?_
  refine .bind safe_genericParameters.safeAt fun _ _ => ?_
  refine .sees_bind rfl (fun h => (eats_typeInitializer h).first) (fun h => ?_) fun _ => ?_
  · exact .bind (safeAt_typeInitializer h) fun _ _ => safe_whereRequirements.safeAt
  · exact .complains Complains.report.first

theorem safeAt_associatedType (ho : v.kind.isOpener = false) :
    SafeAt c i (fun _ => 0) anyEnd 0 v associatedType associatedType := by
  refine .bind (.bump ho) fun _ _ => .bind safe_name.safeAt fun _ _ => ?_
  refine .bind safe_inheritance.safeAt fun _ _ => ?_
  refine .sees_bind rfl (fun h => (eats_typeInitializer h).first) (fun h => ?_) fun _ => ?_
  · exact .bind (safeAt_typeInitializer h) fun _ _ => safe_whereRequirements.safeAt
  · exact safe_whereRequirements.safeAt

/-! ## Functions -/

theorem View.AtWord.of_isOperatorLike (h : v.kind.isOperatorLike = true) : v.AtWord := by
  refine ⟨atEnd_of_isOperatorLike h, ?_⟩
  revert h
  cases v.kind <;> decide

theorem safe_operatorPart {stops : TokenKind → Bool} : Safe c (operatorPart stops) := by
  refine fun i v => .view_bind (.word (C := fun w => !w.gap.trivia &&
    (w.kind.isOperatorLike || w.kind == .dot) && !stops w.kind) (fun hin => ?_) (fun w h => ?_)
    (fun _ => .pure (Nat.le_refl 0)) fun _ => .pure (Nat.le_refl 0))
  · rw [View.kind_cut hin, View.gap_cut hin]
  · simp only [Bool.and_eq_true, Bool.or_eq_true, beq_iff_eq] at h
    exact h.1.2.elim View.AtWord.of_isOperatorLike fun hk => .of_kind hk rfl rfl

theorem safeAt_operatorName {stops : TokenKind → Bool} {X : Unit → View → Prop} (h : v.AtWord) :
    SafeAt c i (fun _ => 0) X 0 v (operatorName stops) (operatorName stops) :=
  .node (.bind (.bump h.plain) fun _ _ => (Safe.repeating safe_operatorPart).safeAt)

theorem eats_operatorName {stops : TokenKind → Bool} (h : v.atEnd = false) :
    Eats 0 v (operatorName stops) :=
  .node (Eats.bump h).first

theorem safe_functionName : Safe c functionName := by
  have hword : (v : View) → (v.kind.isOperatorLike || v.kind == .dot) = true → v.AtWord := by
    intro v h
    rw [Bool.or_eq_true, beq_iff_eq] at h
    exact h.elim View.AtWord.of_isOperatorLike fun hk => .of_kind hk rfl rfl
  refine fun i v => .kind_bind (.inl ?_) ?_
  · split
    · exact eats_name
    · split
      · next h => exact eats_operatorName (hword v h).atEnd
      · exact Complains.report.eats
  · split
    · exact safe_name.safeAt
    · split
      · next h => exact safeAt_operatorName (hword v h)
      · exact .complains .report

theorem safe_functionRest : Safe c functionRest :=
  .bind safe_genericParameters fun _ => .bind safe_functionSignature fun _ =>
    .bind safe_whereRequirements fun _ => safe_optionalCodeBlock

theorem safeAt_function (ho : v.kind.isOpener = false) :
    SafeAt c i (fun _ => 0) anyEnd 0 v function function :=
  .bind (.bump ho) fun _ _ => .bind safe_functionName.safeAt fun _ _ => safe_functionRest.safeAt

theorem safeAt_initializer (ho : v.kind.isOpener = false) :
    SafeAt c i (fun _ => 0) anyEnd 0 v initializer initializer := by
  refine .bind (.bump ho) fun _ w => .view_bind (.word (C := fun u => u.seesJoined .question ||
    u.seesJoined .exclamation) (fun hin => ?_) (fun u h => ?_) (fun _ => ?_) fun _ => ?_)
  · rw [View.seesJoined_cut hin, View.seesJoined_cut hin]
  · simp only [View.seesJoined, Bool.or_eq_true, Bool.and_eq_true, beq_iff_eq] at h
    exact h.elim (fun hk => .of_kind hk.1 rfl rfl) fun hk => .of_kind hk.1 rfl rfl
  · exact safe_functionRest.safeAt
  · exact safe_functionRest.safeAt

theorem safe_optionalAccessorBlock : Safe c (do if ← sees .lBrace then accessorBlock) :=
  .ifSees rfl (fun _ h => (eats_accessorBlock h).feeds) fun _ _ h => safeAt_accessorBlock h

theorem safeAt_subscript (ho : v.kind.isOpener = false) :
    SafeAt c i (fun _ => 0) anyEnd 0 v subscript subscript :=
  .bind (.bump ho) fun _ _ => .bind safe_genericParameters.safeAt fun _ _ =>
    .bind safe_functionSignature.safeAt fun _ _ => .bind safe_whereRequirements.safeAt fun _ _ =>
      safe_optionalAccessorBlock.safeAt

/-! ## Variables -/

/-- Behind a value, whether observers come is told by the block that is looked into. -/
theorem safe_bindingAccessors {initialized : Bool} : Safe c (bindingAccessors initialized) := by
  have hbrace : ∀ {w : View}, (w.kind == .lBrace && (!initialized ||
      Lookahead.atObservers w.lexemes)) = true → w.kind = .lBrace := fun h =>
    eq_of_beq (Bool.and_eq_true_iff.mp h).1
  refine fun i v => .view_bind ?_
  by_cases hin : c.behind < v.lexemes.length
  · refine .decided (r := if v.kind == .lBrace && (!initialized ||
      Lookahead.atObservers v.lexemes) then accessorBlock else pure ()) ?_ fun hcut _ hcloses => ?_
    · split
      · next h => exact safeAt_accessorBlock (hbrace h)
      · exact .pure (Nat.le_refl 0)
    · rw [View.kind_cut hin]
      by_cases hk : v.kind = .lBrace
      · rw [hcloses.blind hin (by rw [hk]; rfl) hcut fun _ _ _ => Lookahead.blind_atObservers]
      · rw [beq_false_of_ne hk, Bool.false_and, Bool.false_and]
  · -- at the cut no accessors are seen
    rw [View.kind_cut_end (Nat.le_of_not_lt hin), show (TokenKind.eof == .lBrace) = false from rfl,
      Bool.false_and, if_neg Bool.false_ne_true]
    split
    · next h => exact .eaten (eats_accessorBlock (hbrace h)) fun hlt => absurd hlt hin
    · exact .pure (Nat.le_refl 0)

theorem safe_patternBinding : Safe c patternBinding := by
  refine .node (.bind safe_bindingPattern fun _ => .bind safe_optionalAscription fun _ => ?_)
  refine fun i v => .sees_bind rfl (fun h => ?_) (fun h => ?_) fun _ => ?_
  · exact (Eats.node (Eats.bump (View.atEnd_of_kind h rfl)).first).first
  · exact .bind (safeAt_initializerClause h) fun _ _ => safe_bindingAccessors.safeAt
  · exact safe_bindingAccessors.safeAt

theorem safeAt_bindings (ho : v.kind.isOpener = false) :
    SafeAt c i (fun _ => 0) anyEnd 0 v bindings bindings :=
  .bind (.bump ho) fun _ _ =>
    .node (Safe.separated (.bind safe_patternBinding fun _ => .pure)).safeAt

/-! ## Imports, operators and precedence groups -/

theorem safe_importComponent {problem : Problem} : Safe c (importComponent problem) := by
  refine fun i v => .kind_bind (.inl (.of_kind feeds_importComponent.eats)) ?_
  split
  · next h =>
    rw [Bool.or_eq_true, beq_iff_eq] at h
    have hword : v.AtWord := h.elim (fun hk => .of_kind hk rfl rfl) View.AtWord.of_isOperatorLike
    exact .bind (.bump hword.plain) fun _ _ => .pure (Nat.le_refl 0)
  · exact .complains Complains.report.first

theorem safe_importMember : Safe c importMember :=
  .bind (.eat rfl rfl) fun _ => .ite (fun _ => safe_importComponent) fun _ => .pure

/-- The path of an import. -/
theorem safe_importPath : Safe c (node .importPath do
    let _ ← importComponent .noModuleName
    repeating importMember) :=
  .node (.bind safe_importComponent fun _ => .repeating safe_importMember)

theorem eats_importPath : Eats 0 v (node .importPath do
    let _ ← importComponent .noModuleName
    repeating importMember) :=
  .node feeds_importComponent.eats.first

theorem atWord_of_atImportKind (h : atImportKind v = true) : v.AtWord := by
  unfold atImportKind at h
  split at h
  · next hk => exact .of_kind hk rfl rfl
  · next hk => exact .of_kind hk rfl rfl
  · next hk => exact .of_kind hk rfl rfl
  · next hk => exact .of_kind hk rfl rfl
  · next hk => exact .of_kind hk rfl rfl
  · next hk => exact .of_kind hk rfl rfl
  · next hk => exact .of_kind hk rfl rfl
  · next hk => exact .of_kind hk rfl rfl
  · exact .of_spells (Bool.and_eq_true_iff.mp h).1

/-- What an import imports is not found where it is named behind the cut. -/
theorem atImportKind_of_cut (h : atImportKind (v.cut c) = true) : atImportKind v = true := by
  unfold atImportKind at h
  split at h
  · next hk => rw [atImportKind, View.kind_of_cut hk rfl]
  · next hk => rw [atImportKind, View.kind_of_cut hk rfl]
  · next hk => rw [atImportKind, View.kind_of_cut hk rfl]
  · next hk => rw [atImportKind, View.kind_of_cut hk rfl]
  · next hk => rw [atImportKind, View.kind_of_cut hk rfl]
  · next hk => rw [atImportKind, View.kind_of_cut hk rfl]
  · next hk => rw [atImportKind, View.kind_of_cut hk rfl]
  · next hk => rw [atImportKind, View.kind_of_cut hk rfl]
  · obtain ⟨hword, hnext⟩ := Bool.and_eq_true_iff.mp h
    have hone : c.behind + 1 < v.lexemes.length := v.lt_of_kindAt_cut (by
      rw [eq_of_beq hnext]
      decide)
    rw [View.kindAt_cut hone] at hnext
    rw [View.spells_cut (Nat.lt_of_succ_lt hone)] at hword
    have hident : v.kind = .ident := eq_of_beq (Bool.and_eq_true_iff.mp hword).1
    rw [atImportKind, hident]
    exact Bool.and_eq_true_iff.mpr ⟨hword, hnext⟩

theorem safeAt_importRest (ho : v.kind.isOpener = false) :
    SafeAt c i (fun _ => 0) anyEnd 0 v importRest importRest := by
  refine .bind (.bump ho) fun _ w => .view_bind (.ite (n := 1) (fun hin => ?_) (fun h => ?_)
    (fun h => ?_) (fun h => ?_) fun _ => safe_importPath.safeAt)
  · rw [atImportKind, atImportKind, View.kind_cut (Nat.lt_of_succ_lt hin),
      View.spells_cut (Nat.lt_of_succ_lt hin), View.kindAt_cut hin]
  · exact atImportKind_of_cut h
  · exact .bump_bind (atWord_of_atImportKind h).atEnd eats_importPath
  · exact .bind (.bump (atWord_of_atImportKind h).plain) fun _ _ => safe_importPath.safeAt

theorem safe_commaName : Safe c commaName := by
  refine fun i v => .view_bind (.pair (C := fun w => w.kind == .comma && w.kindAt 1 == .ident)
    (fun hin => ?_) (fun w h => ?_) (fun w hw => (Eats.bump hw.atEnd).first)
    (fun w hw => .bind (.bump hw.plain) fun _ _ => .pure (Nat.le_refl 0))
    fun _ => .pure (Nat.le_refl 0))
  · rw [View.kind_cut (Nat.lt_of_succ_lt hin), View.kindAt_cut hin]
  · rw [Bool.and_eq_true, beq_iff_eq, beq_iff_eq, ← View.kind_tail] at h
    exact ⟨.of_kind h.1 rfl rfl, .of_kind h.2 rfl rfl⟩

theorem safe_operatorRest : Safe c operatorRest := by
  refine fun i v => .kind_bind ?_ ?_
  · split
    · next h => exact .inl (Eats.node (Eats.bump (View.atEnd_of_kind h rfl)).first)
    · exact .inl Complains.recover.eats
    · exact .inr rfl
  · split
    · next h =>
      exact .node (.bind (.bump_kind h rfl) fun _ _ => .bind (.require rfl rfl) fun _ _ =>
        (Safe.repeating safe_commaName).safeAt)
    · exact .complains .recover
    · exact .pure (Nat.le_refl 0)

theorem safeAt_operator (ho : v.kind.isOpener = false) :
    SafeAt c i (fun _ => 0) anyEnd 0 v operator operator := by
  have hword : (v : View) → (v.kind.isOperatorLike || v.kind == .ident || v.kind == .dot) = true →
      v.AtWord := by
    intro v h
    simp only [Bool.or_eq_true, beq_iff_eq, or_assoc] at h
    exact h.elim View.AtWord.of_isOperatorLike fun hk =>
      hk.elim (fun hk => .of_kind hk rfl rfl) fun hk => .of_kind hk rfl rfl
  refine .bind (.bump ho) fun _ w => .kind_bind (.inl ?_) ?_
  · dsimp only
    split
    · next h => exact (eats_operatorName (hword w h).atEnd).first
    · exact Complains.report.first.eats
  · dsimp only
    split
    · next h => exact .bind (safeAt_operatorName (hword w h)) fun _ _ => safe_operatorRest.safeAt
    · exact .complains Complains.report.first

/-- In braces, the name behind a comma is seen. -/
theorem safeAt_groupComma : SafeAt c (i + 1) (fun _ => 0) anyEnd 0 v groupComma groupComma := by
  refine .view_decided ?_ fun _ hle hcloses => ?_
  · split
    · next h =>
      refine .bind (.bump_kind (eq_of_beq (Bool.and_eq_true_iff.mp h).1) rfl) fun _ _ => ?_
      exact .pure (Nat.le_refl 0)
    · exact .pure (Nat.le_refl 0)
  · rw [Nat.zero_add] at hcloses
    rw [hcloses.kind_cut hle]
    by_cases hcomma : v.kind = .comma
    · rw [View.kindAt_cut' (hcloses.lt_succ hle (by rw [hcomma]; rfl))]
    · rw [beq_false_of_ne hcomma, Bool.false_and, Bool.false_and]

theorem safeAt_groupValues : SafeAt c (i + 1) (fun _ => 0) anyEnd 0 v groupValues groupValues := by
  refine .repeating fun w => .kind_inside ?_
  dsimp only
  split
  · next h => exact .bind (.bump_kind h rfl) fun _ _ => safeAt_groupComma
  · next h => exact .bind (.bump_kind h rfl) fun _ _ => safeAt_groupComma
  · next h => exact .bind (.bump_kind h rfl) fun _ _ => safeAt_groupComma
  · exact safeAt_groupComma

theorem safeAt_groupAttribute :
    SafeAt c (i + 1) (fun _ => 0) anyEnd 0 v groupAttribute groupAttribute := by
  have hwords : ∀ w : View, (w.kind == .ident && w.kindAt 1 == .colon) = true →
      w.AtWord ∧ w.tail.AtWord := by
    intro w h
    rw [Bool.and_eq_true, beq_iff_eq, beq_iff_eq, ← View.kind_tail] at h
    exact ⟨.of_kind h.1 rfl rfl, .of_kind h.2 rfl rfl⟩
  refine .view_bind (.ahead (C := fun w => w.kind == .ident && w.kindAt 1 == .colon) 1
    (fun hin => ?_) (fun h => ?_) (fun h => ?_) (fun h => ?_) fun _ => .complains .recover)
  · rw [View.kind_cut (Nat.lt_of_succ_lt hin), View.kindAt_cut hin]
  · exact View.kind_tail _ ▸ (hwords _ h).2.ne
  · exact .node (.bump_bind (hwords v h).1.atEnd (Eats.bump (hwords v h).2.atEnd).first)
  · refine .node (.word_then (hwords v h).1 (.bind (.bump (hwords v h).2.plain) fun _ _ => ?_))
    exact safeAt_groupValues

theorem safeAt_precedenceGroup (ho : v.kind.isOpener = false) :
    SafeAt c i (fun _ => 0) anyEnd 0 v precedenceGroup precedenceGroup := by
  refine .bind (.bump ho) fun _ _ => .bind safe_name.safeAt fun _ _ => ?_
  refine .bind (k := fun found => if found then 1 else 0) (.expect_of rfl fun hv => ?_)
    fun found _ => ?_
  · exact .bump_opener (by rw [hv]; rfl)
  · cases found with
    | true =>
      refine .closed_of rfl (.repeating fun w => .view_decided ?_ fun _ hle hcloses => ?_)
      · split
        · exact .pure (Nat.le_refl 0)
        · exact .bind safeAt_groupAttribute fun _ _ => .pure (Nat.le_refl 0)
      · rw [Nat.zero_add] at hcloses
        rw [View.atEnd, hcloses.kind_cut hle]
        rfl
    | false => exact .pure (Nat.le_refl 0)

/-! ## Cases of enumerations -/

theorem safeAt_associatedValues {X : Unit → View → Prop} (h : v.kind = .lParen) :
    SafeAt c i (fun _ => 0) X 0 v associatedValues associatedValues := by
  refine .node (.bracketed (by rw [h]; rfl) rfl fun _ => .separatedUntil
    (fun _ _ _ => .inr (Nat.succ_pos i)) fun w => .bind_pure (.node ?_))
  exact .bind safe_labels.safeAt fun _ _ => .bind safe_type'.safeAt fun _ _ =>
    safe_initialValue.safeAt

theorem safe_enumCaseElement : Safe c (node .enumCaseElement do
    name
    if ← sees .lParen then associatedValues
    initialValue) := by
  refine .node (.bind safe_name fun _ => fun i v => .sees_bind rfl (fun h => ?_) (fun h => ?_)
    fun _ => safe_initialValue i v)
  · exact (Eats.node (Eats.bump (View.atEnd_of_kind h rfl)).first).first
  · exact .bind (safeAt_associatedValues h) fun _ _ => safe_initialValue.safeAt

theorem safeAt_enumCases (ho : v.kind.isOpener = false) :
    SafeAt c i (fun _ => 0) anyEnd 0 v enumCases enumCases :=
  .bind (.bump ho) fun _ _ => (Safe.separated (.bind safe_enumCaseElement fun _ => .pure)).safeAt

/-! ## All declarations -/

theorem safeAt_declarationRest {k : NodeKind} (ho : v.kind.isOpener = false) :
    SafeAt c i (fun _ => 0) anyEnd 0 v (declarationRest k) (declarationRest k) := by
  unfold declarationRest
  split
  · exact safeAt_nominal ho
  · exact safeAt_nominal ho
  · exact safeAt_nominal ho
  · exact safeAt_nominal ho
  · exact safeAt_nominal ho
  · exact .bind (.bump ho) fun _ _ => .bind safe_type'.safeAt fun _ _ => safe_nominalEnd.safeAt
  · exact safeAt_function ho
  · exact safeAt_initializer ho
  · exact .bind (.bump ho) fun _ _ => .bind safe_effects.safeAt fun _ _ =>
      safe_optionalCodeBlock.safeAt
  · exact safeAt_subscript ho
  · exact safeAt_bindings ho
  · exact safeAt_typeAlias ho
  · exact safeAt_associatedType ho
  · exact safeAt_importRest ho
  · exact safeAt_operator ho
  · exact safeAt_precedenceGroup ho
  · exact safeAt_enumCases ho
  · exact .complains .report

/-- What introduces a declaration is a word. -/
theorem atWord_of_introduces {k : NodeKind} (h : Lookahead.Introduces k v.lexemes) : v.AtWord := by
  cases hls : v.lexemes with
  | nil =>
    rw [hls] at h
    exact h.elim
  | cons l rest =>
    have hk : v.kind = l.kind := SafeAt.kind_of_cons hls
    rw [hls] at h
    rcases h with hword | ⟨-, hident, -⟩
    · constructor
      · rw [View.atEnd, hk]
        revert hword
        cases l.kind <;> simp [TokenKind.introduces?]
      · rw [hk]
        revert hword
        cases l.kind <;> simp [TokenKind.introduces?, TokenKind.isOpener]
    · exact .of_kind (hk.trans hident) rfl rfl

theorem safeAt_declaration {scope : Scope} {k : NodeKind}
    (h : Lookahead.declaration? scope v.lexemes = some k) :
    SafeAt c i (fun _ => 0) anyEnd 0 v (declaration k) (declaration k) := by
  have hintro := Lookahead.introduces_of_declaration? h
  refine .node (safeAt_introduction (fun w hw => safeAt_declarationRest ?_) fun t ht => ?_)
  · rw [← hw] at hintro
    exact (atWord_of_introduces hintro).plain
  · rw [← ht] at hintro
    have hfed : Eats 0 t.view (declarationRest k) :=
      (feeds_declarationRest (isWorded_of_declaration? h) (atWord_of_introduces hintro).atEnd).eats
    refine wlp_mono (fun _ u hu hbounded _ _ _ => ?_) (wlp_cutting (hfed t rfl))
    exact Nat.lt_of_le_of_lt hbounded.within (hu.resolve_right fun hr => hr hbounded.clean)

end Grammar

end SwiftOutline
