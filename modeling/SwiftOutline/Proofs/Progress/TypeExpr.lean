/-
  SwiftOutline.Proofs.Progress.TypeExpr

  Progress of attributes, modifiers and type expressions. Every one of them that
  is run only where it begins consumes its first lexeme; the others are steady.
-/
import SwiftOutline.Grammar.TypeExpr
import SwiftOutline.Proofs.Parser.Combinator

namespace SwiftOutline

namespace Grammar

open SwiftOutline.Parser

variable {k : Nat} {v : View}

/-! ## What look-ahead tells about the next lexeme -/

theorem headKind_lexemes (v : View) : Lookahead.headKind v.lexemes = v.kind := by
  cases h : v.lexemes <;> simp [Lookahead.headKind, View.kind, View.kindAt, h]

theorem atEnd_of_atModifier (h : Lookahead.atModifier v.lexemes = true) : v.atEnd = false := by
  unfold Lookahead.atModifier at h
  rw [headKind_lexemes] at h
  split at h
  · next hk => exact View.atEnd_of_kind hk rfl
  · next hk => exact View.atEnd_of_kind hk rfl
  · cases hl : v.lexemes with
    | nil => simp [hl, Lookahead.atModifierWord] at h
    | cons l ls =>
      simp only [hl, Lookahead.atModifierWord, Bool.and_eq_true] at h
      exact View.atEnd_of_beq (c := .ident) (by simpa [View.kind, View.kindAt, hl] using h.1) rfl

theorem atEnd_of_atEffect (h : Lookahead.atEffect v.lexemes = true) : v.atEnd = false := by
  unfold Lookahead.atEffect Lookahead.atThrows at h
  rw [headKind_lexemes] at h
  cases hl : v.lexemes with
  | nil => simp [hl, Lookahead.spells, View.kind, View.kindAt] at h
  | cons l ls =>
    have hk : v.kind = l.kind := by simp [View.kind, View.kindAt, hl]
    simp only [hl, hk, Lookahead.spells, Bool.or_eq_true, Bool.and_eq_true, beq_iff_eq] at h
    simp only [View.atEnd, hk]
    rcases h with ((h | h) | h) | h <;> simp [h]

/-! ## Generic arguments -/

theorem advances_genericArguments {R : Unit → Prop} (h : v.atEnd = false) :
    Advances k v R genericArguments := by
  refine .node rfl ((bump_of_not_atEnd h).then fun _ => ?_)
  exact .bind (.separatedUntil (.node rfl (steady_follow rfl))) fun _ => steady_require

theorem steady_joinedGenericArguments : Steady k joinedGenericArguments := by
  refine fun v => .seesJoined_bind ?_
  split
  · next h => exact advances_genericArguments (View.atEnd_of_seesJoined h rfl)
  · exact .pure id

/-! ## Attributes -/

theorem advances_attributeArgumentPart :
    Advances k v (fun b => b = true) attributeArgumentPart := by
  refine .kind_bind ?_
  split
  · exact .pure (by simp)
  · exact .pure (by simp)
  · exact .pure (by simp)
  · next _ _ hend =>
    refine (advances_bumpBalanced.mono (Nat.le_refl _) fun _ _ => ?_).then fun _ => .pure
    simpa [View.atEnd] using hend

theorem steady_attributeArgument : Steady k attributeArgument := by
  have rest : Steady k (repeating attributeArgumentPart) :=
    .repeating fun _ => advances_attributeArgumentPart
  refine .node rfl (.view_bind fun v => ?_)
  split
  · exact .bind steady_bump fun _ => .bind steady_bump fun _ => rest
  · exact rest

theorem advances_attributeArguments {R : Unit → Prop} (h : v.atEnd = false) :
    Advances k v R attributeArguments := by
  refine .node rfl ((bump_of_not_atEnd h).then fun _ => ?_)
  refine .bind (.separatedUntil (.bind ?_ fun _ => .pure)) fun _ => steady_require
  exact steady_attributeArgument

theorem steady_joinedAttributeArguments : Steady k joinedAttributeArguments := by
  refine fun v => .seesJoined_bind ?_
  split
  · next h => exact advances_attributeArguments (View.atEnd_of_seesJoined h rfl)
  · exact .pure id

theorem advances_attributeMember : Advances k v (fun b => b = true) attributeMember := by
  refine .view_bind ?_
  split
  · next h =>
    rw [Bool.and_eq_true] at h
    exact (bump_of_beq h.1 rfl).then fun _ => .bind steady_bump fun _ => .pure
  · exact .pure (by simp)

theorem advances_attributeUse {R : Unit → Prop} (h : v.atEnd = false) :
    Advances k v R attributeUse := by
  have rest : Steady 4 (do joinedGenericArguments; joinedAttributeArguments) :=
    .bind steady_joinedGenericArguments fun _ => steady_joinedAttributeArguments
  refine .node rfl ((bump_of_not_atEnd h).then fun _ => .kind_bind fun c => ?_)
  split
  · refine .bind steady_bump fun _ => .bind (.repeating fun _ => ?_) fun _ => rest
    exact advances_attributeMember
  · exact .bind steady_report fun _ => rest

/-- An attribute is consumed where there is one. -/
theorem advances_nextAttribute :
    Advances k v (fun b => b = true ∨ v.kind = .atSign) nextAttribute := by
  refine .sees_bind ?_
  split
  · next h =>
    have huse : Advances k v (fun _ => True) attributeUse :=
      advances_attributeUse (View.atEnd_of_beq h rfl)
    exact huse.then fun _ => .pure
  · next h => exact .pure (by simpa using h)

theorem advances_attributes : Advances k v (fun _ => v.kind = .atSign) attributes := by
  refine .sees_bind ?_
  split
  · exact .node rfl (.repeating_while fun _ _ => advances_nextAttribute)
  · next h => exact .pure (by simpa using h)

theorem steady_attributes : Steady k attributes :=
  fun _ => advances_attributes.forget

/-! ## Modifiers -/

theorem advances_modifier {R : Unit → Prop} (h : v.atEnd = false) : Advances k v R modifier := by
  refine .node rfl ((bump_of_not_atEnd h).then fun _ => .view_bind fun w => ?_)
  split
  · exact .node rfl (.bind steady_bump fun _ => .bind steady_bump fun _ => steady_bump)
  · exact .pure

theorem advances_nextModifier : Advances k v (fun b => b = true) nextModifier := by
  refine .view_bind ?_
  split
  · next h => exact (advances_modifier (atEnd_of_atModifier h)).then fun _ => .pure
  · exact .pure (by simp)

theorem steady_modifiers : Steady k modifiers := by
  refine .view_bind fun v => ?_
  split
  · exact .node rfl (.repeating fun _ => advances_nextModifier)
  · exact .pure

/-! ## Function tails -/

theorem steady_effectSpecifiers : Steady k effectSpecifiers := by
  refine .node rfl (.repeating fun w => .view_bind ?_)
  dsimp only
  split
  · next h =>
    refine (bump_of_not_atEnd (atEnd_of_atEffect h)).then fun _ => ?_
    split
    · refine .seesJoined_bind fun b => ?_
      split
      · refine .bind steady_bump fun _ => .bind (steady_follow' rfl) fun _ => ?_
        exact .bind steady_require fun _ => .pure
      · exact .pure
    · exact .pure
  · exact .pure (by simp)

theorem steady_effects : Steady k effects := by
  refine .view_bind fun v => ?_
  split
  · exact steady_effectSpecifiers
  · exact .pure

theorem steady_returnClause : Steady 3 returnClause :=
  .node rfl (.bind steady_bump fun _ => steady_follow' rfl)

theorem steady_optionalReturnClause : Steady 3 optionalReturnClause :=
  .ifSees steady_returnClause

/-! ## Types -/

theorem steady_labels : Steady k labels := by
  refine .view_bind fun v => ?_
  split
  · split
    · exact .bind steady_bump fun _ => steady_bump
    · split
      · exact .bind steady_bump fun _ => .bind steady_bump fun _ => steady_bump
      · exact .pure
  · exact .pure

theorem advances_simpleType {R : Unit → Prop} (h : v.atEnd = false) :
    Advances k v R simpleType := by
  have arguments : Steady 4 joinedGenericArguments :=
    steady_joinedGenericArguments
  refine .node rfl ((bump_of_not_atEnd h).then fun _ => .bind arguments fun _ => ?_)
  refine .repeating fun w => .view_bind ?_
  split
  · next hw =>
    simp only [Bool.and_eq_true] at hw
    refine (bump_of_beq hw.1.1.1 rfl).then fun _ => ?_
    exact .bind steady_bump fun _ => .bind arguments fun _ => .pure
  · exact .pure (by simp)

theorem advances_collectionType {R : Unit → Prop} (h : v.atEnd = false) :
    Advances k v R collectionType := by
  refine .then (.node? ((bump_of_not_atEnd h).then fun _ => ?_) ?_) fun _ => .pure
  · refine .bind (steady_follow' rfl) fun _ => .bind steady_eat fun keyed => ?_
    exact .when (fun _ => steady_follow' rfl) fun _ => .bind steady_require fun _ => .pure
  · refine .bind fun _ => .bind fun _ => .bind fun keyed => ?_
    cases keyed with
    | true => exact .bind fun _ => .bind fun _ => .some rfl
    | false => exact .bind fun _ => .some rfl

theorem steady_tupleTypeElement : Steady 3 tupleTypeElement := by
  refine .node rfl (.bind steady_labels fun _ => ?_)
  exact .bind (steady_follow rfl) fun _ => .bind steady_eat fun _ => .pure

theorem advances_tupleType {R : Unit → Prop} (h : v.atEnd = false) :
    Advances k v R tupleType := by
  refine .node rfl ((bump_of_not_atEnd h).then fun _ => ?_)
  exact .bind (.separatedUntil steady_tupleTypeElement.later) fun _ => steady_require

/-- A type is consumed where there is one. -/
theorem advances_primaryType : Advances k v (fun b => b = true) primaryType := by
  refine .kind_bind ?_
  split
  · next h => exact (advances_simpleType (View.atEnd_of_kind h rfl)).then fun _ => .pure
  · next h => exact (advances_simpleType (View.atEnd_of_kind h rfl)).then fun _ => .pure
  · next h => exact (advances_simpleType (View.atEnd_of_kind h rfl)).then fun _ => .pure
  · next h => exact (advances_collectionType (View.atEnd_of_kind h rfl)).then fun _ => .pure
  · next h => exact (advances_tupleType (View.atEnd_of_kind h rfl)).then fun _ => .pure
  · exact (steady_report v).bind (fun _ => .pure) fun _ _ => .pure (by simp)

theorem advances_typeSuffix : Advances k v (fun b => b = true) typeSuffix := by
  refine .view_bind ?_
  split
  · next h =>
    split
    · exact .pure (by simp)
    · exact .then (.wrap rfl (bump_of_kind h rfl)) fun _ => .pure
  · next h =>
    split
    · exact .pure (by simp)
    · exact .then (.wrap rfl (bump_of_kind h rfl)) fun _ => .pure
  · next h =>
    split
    · refine .then (.wrap rfl ((bump_of_kind h rfl).then fun _ => ?_)) fun _ => .pure
      exact steady_bump
    · exact .pure (by simp)
  · exact .pure (by simp)

theorem steady_typeTail {tuple : Bool} : Steady 4 (typeTail tuple) := by
  refine .view_bind fun w => .when (fun _ => .wrap rfl ?_) fun _ => ?_
  · exact .bind steady_effects fun _ => steady_returnClause.later
  · exact .repeating fun _ => advances_typeSuffix

theorem advances_postfixType : Advances k v (fun b => b = true) postfixType := by
  refine .sees_bind (advances_primaryType.bind (fun b => ?_) fun b hb => ?_)
  · split
    · exact .bind steady_typeTail fun _ => .pure
    · exact .pure
  · rw [if_neg hb]
    exact .pure (by simp)

theorem advances_joinedType : Advances k v (fun b => b = true) joinedType := by
  refine .bind (advances_eat rfl) (fun b => ?_) fun b hb => ?_
  · split
    · exact .bind (fun u => advances_postfixType.forget) fun _ => .pure
    · exact .pure
  · rw [if_neg hb]
    exact .pure (by simp)

theorem steady_compositionType : Steady k compositionType := by
  refine .bind (fun v => advances_postfixType.forget) fun b => ?_
  split
  · refine .sees_bind fun _ => .when (fun _ => ?_) fun _ => .pure
    exact .wrap rfl (.repeating fun _ => advances_joinedType)
  · exact .pure

/-! ## The rule for types -/

theorem atEnd_of_atTypeSpecifier (h : atTypeSpecifier v = true) : v.atEnd = false := by
  simp only [atTypeSpecifier, Bool.or_eq_true, Bool.and_eq_true] at h
  rcases h with h | h
  · exact View.atEnd_of_beq h rfl
  · exact View.atEnd_of_beq (c := .ident) h.1.1 rfl

/-- A type specifier is consumed where there is one. -/
theorem advances_typeSpecifier :
    Advances k v (fun b => b = true ∨ atTypeSpecifier v = true) typeSpecifier := by
  refine .view_bind ?_
  split
  · next h => exact (bump_of_not_atEnd (atEnd_of_atTypeSpecifier h)).then fun _ => .pure
  · next h => exact .pure (by simpa using h)

theorem advances_typeSpecifiers :
    Advances k v (fun _ => atTypeSpecifier v = true) (repeating typeSpecifier) :=
  .repeating_while fun _ _ => advances_typeSpecifier

theorem steady_typeExpr : Steady k typeExpr := by
  refine fun v => .view_bind ?_
  split
  · next h =>
    -- the rule follows itself only behind a specifier or an attribute
    refine .then (.node rfl ?_) fun _ => .pure
    refine advances_typeSpecifiers.bind (fun _ => ?_) fun _ hspec => ?_
    · exact .bind steady_attributes fun _ => steady_follow' rfl
    · refine advances_attributes.bind (fun _ => steady_follow' rfl) fun _ hattr => ?_
      simp only [Bool.or_eq_true, beq_iff_eq] at h
      exact absurd h (by simp [hspec, hattr])
  · split
    · next h =>
      simp only [Bool.and_eq_true, Bool.or_eq_true] at h
      have hv : v.atEnd = false :=
        h.1.1.elim (fun h => View.atEnd_of_spells h) fun h => View.atEnd_of_spells h
      refine .then (.node rfl ((bump_of_not_atEnd hv).then fun _ => ?_)) fun _ => .pure
      exact .bind steady_compositionType fun _ => .pure
    · exact steady_compositionType v

theorem steady_ascription : Steady 3 ascription :=
  .node rfl (.bind steady_bump fun _ => steady_follow' rfl)

theorem steady_optionalAscription : Steady 3 optionalAscription :=
  .ifSees steady_ascription

end Grammar

end SwiftOutline
