/-
  SwiftOutline.Proofs.Filled.TypeExpr

  Nodes of attributes, modifiers and type expressions have tokens. Most of them
  begin with a lexeme that was looked at before; where a part may be missing,
  that is reported. An argument of an attribute alone may be empty.
-/
import SwiftOutline.Proofs.Parser.Filled
import SwiftOutline.Proofs.Progress.TypeExpr

namespace SwiftOutline

namespace Grammar

open SwiftOutline.Parser

variable {v : View}

/-! ## Generic arguments -/

theorem neat_genericArguments : Neat genericArguments :=
  .listed rfl rfl (.node rfl neat_follow fun _ => .follow rfl)

theorem neat_joinedGenericArguments : Neat joinedGenericArguments := by
  refine .seesJoined_bind fun b => ?_
  split
  · exact neat_genericArguments
  · exact .pure

/-! ## Attributes -/

theorem neat_attributeArgument : Neat attributeArgument := by
  have part : Neat attributeArgumentPart := by
    refine .kind_bind fun c => ?_
    split
    · exact .pure
    · exact .pure
    · exact .pure
    · exact .bind neat_bumpBalanced fun _ => .pure
  refine .attributeArgument (.view_bind fun w => ?_)
  split
  · exact .bind neat_bump fun _ => .bind neat_bump fun _ => .repeating part
  · exact .repeating part

theorem neat_attributeArguments : Neat attributeArguments :=
  .listed rfl rfl (.bind neat_attributeArgument fun _ => .pure)

theorem neat_joinedAttributeArguments : Neat joinedAttributeArguments := by
  refine .seesJoined_bind fun b => ?_
  split
  · exact neat_attributeArguments
  · exact .pure

theorem neat_attributeMember : Neat attributeMember := by
  refine .view_bind fun w => ?_
  split
  · exact .bind neat_bump fun _ => .bind neat_bump fun _ => .pure
  · exact .pure

theorem neatAt_attributeUse (h : v.atEnd = false) : NeatAt v attributeUse := by
  have rest : Neat (do joinedGenericArguments; joinedAttributeArguments) :=
    .bind neat_joinedGenericArguments fun _ => neat_joinedAttributeArguments
  refine .opened rfl h fun _ => .kind_bind fun c => ?_
  split
  · exact .bind neat_bump fun _ => .bind (.repeating neat_attributeMember) fun _ => rest
  · exact .bind neat_report fun _ => rest

theorem neat_nextAttribute : Neat nextAttribute := by
  refine fun v => .sees_bind ?_
  split
  · next h => exact (neatAt_attributeUse (View.atEnd_of_beq h rfl)).bind fun _ => .pure
  · exact Neat.pure v

theorem neat_attributes : Neat attributes := by
  refine .ifSees fun v hv => .node rfl (Neat.repeating neat_nextAttribute v) (.repeating ?_)
  exact .of_advances (advances_nextAttribute.mono (Nat.le_refl _) fun _ _ => Or.inr hv)

/-! ## Modifiers -/

theorem neatAt_modifier (h : v.atEnd = false) : NeatAt v modifier := by
  refine .opened rfl h fun _ w => .view_bind ?_
  split
  · next hdetail =>
    simp only [Lookahead.atModifierDetail, headKind_lexemes, Bool.and_eq_true] at hdetail
    refine .opened rfl (View.atEnd_of_beq hdetail.1.1 rfl) fun _ => ?_
    exact .bind neat_bump fun _ => neat_bump
  · exact Neat.pure w

theorem neat_nextModifier : Neat nextModifier := by
  refine fun v => .view_bind ?_
  split
  · next h => exact (neatAt_modifier (atEnd_of_atModifier h)).bind fun _ => .pure
  · exact Neat.pure v

theorem neat_modifiers : Neat modifiers := by
  refine fun v => .view_bind ?_
  split
  · next h =>
    refine .node rfl (Neat.repeating neat_nextModifier v) (.repeating (.view_bind ?_))
    rw [if_pos h]
    exact .first (.node (.first (.bump (atEnd_of_atModifier h))))
  · exact Neat.pure v

/-! ## Function tails -/

theorem neat_effects : Neat effects := by
  refine fun v => .view_bind ?_
  split
  · next h =>
    refine .node rfl (Neat.repeating (.view_bind fun w => ?_) v) (.repeating (.view_bind ?_))
    · dsimp only
      split
      · refine .bind neat_bump fun _ => ?_
        split
        · refine .seesJoined_bind fun b => ?_
          split
          · exact .bind neat_bump fun _ => .bind neat_follow' fun _ =>
              .bind neat_require fun _ => .pure
          · exact .pure
        · exact .pure
      · exact .pure
    · dsimp only
      rw [if_pos h]
      exact .first (.bump (atEnd_of_atEffect h))
  · exact Neat.pure v

theorem neat_returnClause : Neat returnClause :=
  .introduced rfl rfl

theorem neat_optionalReturnClause : Neat optionalReturnClause :=
  .ifSees fun v _ => neat_returnClause v

/-! ## Types -/

theorem neat_labels : Neat labels := by
  refine .view_bind fun w => ?_
  split
  · split
    · exact .bind neat_bump fun _ => neat_bump
    · split
      · exact .bind neat_bump fun _ => .bind neat_bump fun _ => neat_bump
      · exact .pure
  · exact .pure

theorem neatAt_simpleType (h : v.atEnd = false) : NeatAt v simpleType := by
  refine .opened rfl h fun _ => ?_
  refine .bind neat_joinedGenericArguments fun _ => .repeating (.view_bind fun w => ?_)
  split
  · exact .bind neat_bump fun _ => .bind neat_bump fun _ =>
      .bind neat_joinedGenericArguments fun _ => .pure
  · exact .pure

theorem neatAt_collectionType (h : v.atEnd = false) : NeatAt v collectionType := by
  have hfed : Feeds true v bump := .bump h
  refine .bind (.nodeNamed (.inl rfl) (Neat.bind neat_bump (fun _ => ?_) v) (.first hfed))
    fun _ => .pure
  refine .bind neat_follow' fun _ => .bind neat_eat fun keyed => ?_
  exact .when (fun _ => neat_follow') fun _ => .bind neat_require fun _ => .pure

theorem neat_tupleTypeElement : Neat tupleTypeElement := by
  refine .node rfl (.bind neat_labels fun _ => ?_) fun _ => .last fun _ _ => .first (.follow rfl)
  exact .bind neat_follow fun _ => .bind neat_eat fun _ => .pure

theorem neat_tupleType : Neat tupleType :=
  .listed rfl rfl neat_tupleTypeElement

theorem neat_primaryType : Neat primaryType := by
  refine fun v => .kind_bind ?_
  split
  · next h => exact (neatAt_simpleType (View.atEnd_of_kind h rfl)).bind fun _ => .pure
  · next h => exact (neatAt_simpleType (View.atEnd_of_kind h rfl)).bind fun _ => .pure
  · next h => exact (neatAt_simpleType (View.atEnd_of_kind h rfl)).bind fun _ => .pure
  · next h => exact (neatAt_collectionType (View.atEnd_of_kind h rfl)).bind fun _ => .pure
  · exact Neat.bind neat_tupleType (fun _ => .pure) v
  · exact Neat.bind neat_report (fun _ => .pure) v

theorem feeds_primaryType : Feeds false v primaryType := by
  refine .kind_bind ?_
  split
  · next h => exact .first (.node (.first (.bump_kind h rfl)))
  · next h => exact .first (.node (.first (.bump_kind h rfl)))
  · next h => exact .first (.node (.first (.bump_kind h rfl)))
  · next h => exact .first (.first (.node? (.first (.bump_kind h rfl))))
  · next h => exact .first (.node (.first (.bump_kind h rfl)))
  · exact .first .report

theorem neat_typeSuffix : Neat typeSuffix := by
  refine fun v => .view_bind ?_
  split
  · next h =>
    split
    · exact Neat.pure v
    · exact (NeatAt.wrapSingle rfl (View.atEnd_of_kind h rfl)).bind fun _ => .pure
  · next h =>
    split
    · exact Neat.pure v
    · exact (NeatAt.wrapSingle rfl (View.atEnd_of_kind h rfl)).bind fun _ => .pure
  · next h =>
    split
    · refine NeatAt.bind (.wrapOpened rfl (View.atEnd_of_kind h rfl) ?_) fun _ => .pure
      exact fun _ => neat_bump
    · exact Neat.pure v
  · exact Neat.pure v

theorem neat_typeTail {tuple : Bool} : Neat (typeTail tuple) := by
  refine .view_bind fun w => .when (fun _ v => .wrap rfl ?_ ?_) fun _ => .repeating neat_typeSuffix
  · exact Neat.bind neat_effects (fun _ => neat_returnClause) v
  · exact .last fun _ _ => .node (.last fun _ _ => .follow' rfl)

theorem neat_postfixType : Neat postfixType := by
  refine .sees_bind fun tuple => .bind neat_primaryType fun b => ?_
  split
  · exact .bind neat_typeTail fun _ => .pure
  · exact .pure

theorem neat_compositionType : Neat compositionType := by
  have joined : Neat joinedType := by
    refine .bind neat_eat fun b => ?_
    split
    · exact .bind neat_postfixType fun _ => .pure
    · exact .pure
  refine .bind neat_postfixType fun b => ?_
  split
  · refine fun w => .sees_bind ?_
    dsimp only
    split
    · next h =>
      refine NeatAt.bind (.wrap rfl (Neat.repeating joined w) (.repeating ?_)) fun _ => .pure
      exact .first (.eat h rfl)
    · exact Neat.pure w
  · exact .pure

theorem feeds_compositionType : Feeds false v compositionType :=
  .first (.sees_bind (.first feeds_primaryType))

/-! ## The rule for types -/

theorem neat_typeExpr : Neat typeExpr := by
  have specifier : Neat typeSpecifier := by
    refine .view_bind fun w => ?_
    split
    · exact .bind neat_bump fun _ => .pure
    · exact .pure
  refine .view_bind fun w => ?_
  split
  · refine .bind (.node rfl (.bind (.repeating specifier) fun _ => ?_) ?_) fun _ => .pure
    · exact .bind neat_attributes fun _ => neat_follow'
    · exact fun _ => .last fun _ _ => .last fun _ _ => .follow' rfl
  · split
    · refine .bind (.node rfl (.bind neat_bump fun _ => ?_) ?_) fun _ => .pure
      · exact .bind neat_compositionType fun _ => .pure
      · exact fun _ => .last fun _ _ => .first feeds_compositionType
    · exact neat_compositionType

/-- There is a type, or that there is none is reported. -/
theorem feeds_typeExpr : Feeds false v typeExpr := by
  refine .view_bind ?_
  split
  · exact .first (.node (.last fun _ _ => .last fun _ _ => .follow' rfl))
  · split
    · exact .first (.node (.last fun _ _ => .first feeds_compositionType))
    · exact feeds_compositionType

theorem neat_optionalAscription : Neat optionalAscription :=
  .ifSees fun v _ => Neat.introduced rfl rfl v

end Grammar

end SwiftOutline
