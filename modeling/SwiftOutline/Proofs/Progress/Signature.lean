/-
  SwiftOutline.Proofs.Progress.Signature

  Progress of generic clauses, inheritance, signatures and braced blocks. All of
  them are steady where expressions can be followed; a block is entered only
  behind its brace, so that its items come after a consumed lexeme.
-/
import SwiftOutline.Grammar.Block
import SwiftOutline.Proofs.Progress.TypeExpr

namespace SwiftOutline

namespace Grammar

open SwiftOutline.Parser

variable {k : Nat} {v : View}

/-! ## Names and values -/

theorem steady_name : Steady k name := by
  refine .sees_bind fun b => ?_
  split
  · exact .node rfl steady_bump
  · exact steady_report

theorem steady_initializerClause {place : Place} : Steady 3 (initializerClause place) :=
  .node rfl (.bind steady_bump fun _ => steady_follow' rfl)

theorem steady_initialValue : Steady 3 initialValue :=
  .ifSees steady_initializerClause

/-! ## Generics -/

theorem steady_requirement : Steady 3 requirement := by
  refine .bind (.node? (.bind (steady_follow rfl) fun b => ?_) (.bind fun b => ?_)) fun _ => .pure
  · split
    · refine .view_bind fun v => ?_
      split
      · refine .bind steady_bump fun _ => .view_bind fun w => ?_
        split
        · refine .bind steady_bump fun _ => .sees_bind fun _ => ?_
          exact .when (fun _ => steady_bumpBalanced) fun _ => .pure
        · exact .bind (steady_follow' rfl) fun _ => .pure
      · split
        · exact .bind steady_bump fun _ => .bind (steady_follow' rfl) fun _ => .pure
        · exact .bind steady_report fun _ => .pure
    · exact .pure
  · split
    · refine .bind fun v => ?_
      split
      · refine .bind fun _ => .bind fun w => ?_
        split
        · refine .bind fun _ => .bind fun paren => ?_
          cases paren with
          | true => exact .bind fun _ => .some rfl
          | false => exact .some rfl
        · exact .bind fun _ => .some rfl
      · split
        · exact .bind fun _ => .bind fun _ => .some rfl
        · exact .bind fun _ => .none
    · exact .none

theorem steady_whereRequirements : Steady 3 whereRequirements := by
  refine .ifSees (.node rfl (.bind steady_bump fun _ => .separated ?_))
  exact .bind steady_requirement fun _ => .pure

theorem steady_genericParameter : Steady 3 genericParameter := by
  have bound : Steady 3 (do if ← eat .colon then follow' .type) := by
    refine .bind steady_eat fun b => ?_
    split
    · exact steady_follow' rfl
    · exact .pure
  refine .node rfl (.bind steady_attributes fun _ => .view_bind fun v => ?_)
  refine .when (fun _ => steady_bump) fun _ => ?_
  exact .bind steady_name fun _ => bound

theorem steady_genericParameterClause : Steady 3 genericParameterClause := by
  refine .node rfl (.bind steady_bump fun _ => ?_)
  refine .bind (.separatedUntil (.bind steady_genericParameter fun _ => .pure)) fun _ => ?_
  exact .bind steady_whereRequirements fun _ => steady_require

theorem steady_genericParameters : Steady 3 genericParameters :=
  .ifSees steady_genericParameterClause

theorem steady_primaryAssociatedTypes : Steady 3 primaryAssociatedTypes := by
  have element : Steady 3 (do let named ← sees .ident; name; pure named) :=
    .sees_bind fun _ => .bind steady_name fun _ => .pure
  refine .node rfl (.bind steady_bump fun _ => ?_)
  exact .bind (.separatedUntil element) fun _ => steady_require

theorem steady_inheritedType : Steady 3 inheritedType := by
  refine .node rfl (.view_bind fun v => .when (fun _ => steady_bump) fun _ => ?_)
  refine .sees_bind fun b => ?_
  split
  · exact steady_bump
  · exact steady_follow' rfl

theorem steady_inheritance : Steady 3 inheritance := by
  refine .ifSees (.node rfl (.bind steady_bump fun _ => .separated ?_))
  exact .bind steady_inheritedType fun _ => .pure

/-! ## Parameters -/

theorem steady_parameterNames : Steady k parameterNames := by
  refine .view_bind fun v => ?_
  dsimp only
  split
  · split
    · exact steady_bump
    · split
      · exact .bind steady_bump fun _ => steady_bump
      · split
        · exact steady_bump
        · exact .pure
  · exact .pure

theorem steady_parameter : Steady 3 parameter := by
  have rest : Steady 3 (do let _ ← eat .ellipsis; initialValue) :=
    .bind steady_eat fun _ => steady_initialValue
  refine .node rfl (.bind steady_attributes fun _ => ?_)
  refine .bind steady_parameterNames fun _ => .bind steady_eat fun b => ?_
  dsimp only
  split
  · exact .bind (steady_follow' rfl) fun _ => rest
  · refine .kind_bind fun c => ?_
    split
    · exact rest
    · exact rest
    · exact .bind steady_report fun _ => rest

theorem steady_parameterClause : Steady 3 parameterClause := by
  refine .node rfl (.bind steady_bump fun _ => .bind (.separatedUntil ?_) fun _ => steady_require)
  exact .view_bind fun _ => .bind steady_parameter fun _ => .view_bind fun _ => .pure

theorem steady_functionSignature : Steady 3 functionSignature := by
  have result : Steady 3 (do effects; optionalReturnClause) :=
    .bind steady_effects fun _ => steady_optionalReturnClause
  refine .node rfl (.sees_bind fun b => ?_)
  dsimp only
  split
  · exact .bind steady_parameterClause fun _ => result
  · exact .bind steady_report fun _ => result

/-! ## Code blocks -/

theorem steady_codeBlock : Steady k codeBlock := by
  refine fun v => .sees_bind ?_
  split
  · next h =>
    refine .node rfl ((bump_of_beq h rfl).then fun _ => ?_)
    exact .bind (steady_follow' rfl) fun _ => steady_require
  · exact steady_report v

theorem steady_optionalCodeBlock : Steady k optionalCodeBlock :=
  .ifSees steady_codeBlock

/-! ## Accessors -/

theorem steady_accessorParameter : Steady k accessorParameter :=
  .ifSees (.node rfl (.bind steady_bump fun _ => .bind steady_require fun _ => steady_require))

/-- An accessor consumes at least one lexeme before the end: attributes and modifiers may take it
    away, but then it is consumed. -/
theorem advances_accessor {R : Unit → Prop} (h : v.atEnd = false) : Advances 4 v R accessor := by
  have rest : Steady 4 (do accessorParameter; effects; optionalCodeBlock) :=
    .bind steady_accessorParameter fun _ => .bind steady_effects fun _ => steady_optionalCodeBlock
  refine .node rfl (.bind (steady_attributes v) (fun _ => ?_) fun _ _ => ?_)
  · exact .bind steady_modifiers fun _ => .bind steady_bump fun _ => rest
  · refine (steady_modifiers v).bind (fun _ => ?_) fun _ _ => ?_
    · exact .bind steady_bump fun _ => rest
    · exact (bump_of_not_atEnd h).then fun _ => rest

theorem advances_accessorBlock {R : Unit → Prop} (h : v.atEnd = false) :
    Advances k v R accessorBlock := by
  refine .node rfl ((bump_of_not_atEnd h).then fun _ => .view_bind fun v => ?_)
  dsimp only
  split
  · refine .bind (.repeating fun w => .view_bind ?_) fun _ => steady_require
    split
    · exact .pure (by simp)
    · next hw =>
      simp only [Bool.or_eq_true, not_or, Bool.not_eq_true] at hw
      split
      · exact (advances_accessor hw.2).then fun _ => .pure
      · split
        · exact (recover_of_not_atEnd hw.2).then fun _ => .pure
        · exact (recover_of_not_atEnd hw.2).then fun _ => .pure
  · exact .bind (steady_follow' rfl) fun _ => steady_require

/-! ## Closures -/

theorem steady_closureNames : Steady k closureNames := by
  refine .repeating fun w => .kind_bind ?_
  split
  · next h => exact (bump_of_kind h rfl).then fun _ => steady_eat
  · next h => exact (bump_of_kind h rfl).then fun _ => steady_eat
  · exact .pure (by simp)

theorem steady_closureSignature : Steady 3 closureSignature := by
  have result : Steady 3 (do effects; optionalReturnClause; require .kwIn .noClosureIn) :=
    .bind steady_effects fun _ => .bind steady_optionalReturnClause fun _ => steady_require
  refine .node rfl (.bind steady_attributes fun _ => .sees_bind fun _ => ?_)
  refine .when (fun _ => steady_bumpBalanced) fun _ => .sees_bind fun b => ?_
  dsimp only
  split
  · exact .bind steady_parameterClause fun _ => result
  · exact .bind steady_closureNames fun _ => result

theorem steady_closureRest : Steady 4 closureRest := by
  refine .view_bind fun _ => .when (fun _ => steady_closureSignature.later) fun _ => ?_
  exact .bind (steady_follow' rfl) fun _ => steady_require

theorem advances_closure {R : Unit → Prop} (h : v.atEnd = false) : Advances k v R closure :=
  .node rfl ((bump_of_not_atEnd h).then fun _ => steady_closureRest)

theorem steady_closure : Steady 4 closure :=
  .node rfl (.bind steady_bump fun _ => steady_closureRest)

theorem steady_trailingClosures : Steady k trailingClosures := by
  refine .repeating fun w => .view_bind ?_
  split
  · next h =>
    simp only [Bool.and_eq_true, Bool.or_eq_true] at h
    have hw : w.atEnd = false :=
      h.1.1.1.elim (fun h => View.atEnd_of_beq h rfl) fun h => View.atEnd_of_beq h rfl
    refine (bump_of_not_atEnd hw).then fun _ => ?_
    exact .bind steady_bump fun _ => .bind steady_closure fun _ => .pure
  · exact .pure (by simp)

end Grammar

end SwiftOutline
