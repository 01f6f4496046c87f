/-
  SwiftOutline.Proofs.Progress.Item

  Progress of statements, switch cases, conditional compilation and lists of
  items, and with them of every rule of the grammar.
-/
import SwiftOutline.Grammar.Item
import SwiftOutline.Proofs.Progress.Declaration

namespace SwiftOutline

namespace Grammar

open SwiftOutline.Parser

variable {k : Nat} {v : View} {scope : Scope}

/-! ## Cases -/

theorem steady_caseItems : Steady 3 caseItems := by
  refine .separated (.bind (.node rfl (.bind (steady_follow rfl) fun _ => ?_)) fun _ => .pure)
  exact steady_optionalWhereClause

/-- A case begins with an attribute or its keyword, either of which is consumed before the items
    of the case are followed. -/
theorem advances_switchCase {R : Unit → Prop}
    (h : v.kind = .kwCase ∨ v.kind = .kwDefault ∨ v.kind = .atSign) :
    Advances 3 v R switchCase := by
  have body : Steady 4 (follow' (.items .caseBody)) := steady_follow' rfl
  have caseLabel : Steady 4 (do caseItems; require .colon .noCaseColon) :=
    .bind steady_caseItems.later fun _ => steady_require
  refine .node rfl (.bind advances_attributes (fun _ => ?_) fun _ hattr => ?_)
  · refine .kind_bind fun c => ?_
    dsimp only
    split
    · exact .bind (.node rfl (.bind steady_bump fun _ => caseLabel)) fun _ => body
    · exact .bind (.node rfl (.bind steady_bump fun _ => steady_require)) fun _ => body
    · exact .bind steady_report fun _ => body
  · refine .kind_bind ?_
    dsimp only
    split
    · next hk =>
      refine .then (.node rfl ?_) fun _ => body
      exact (bump_of_kind hk rfl).then fun _ => caseLabel
    · next hk =>
      refine .then (.node rfl ?_) fun _ => body
      exact (bump_of_kind hk rfl).then fun _ => steady_require
    · next hcase hdefault =>
      rcases h with h | h | h
      · exact absurd h hcase
      · exact absurd h hdefault
      · exact absurd h hattr

/-! ## Statements -/

theorem advances_guardBody {R : Unit → Prop} (h : v.atEnd = false) :
    Advances 3 v R guardBody :=
  (bump_of_not_atEnd h).then fun _ => .bind steady_conditions.later fun _ =>
    .bind steady_require fun _ => steady_codeBlock

theorem advances_whileBody {R : Unit → Prop} (h : v.atEnd = false) :
    Advances 3 v R whileBody :=
  (bump_of_not_atEnd h).then fun _ => .bind steady_conditions.later fun _ => steady_codeBlock

theorem advances_repeatBody {R : Unit → Prop} (h : v.atEnd = false) :
    Advances 3 v R repeatBody := by
  refine (bump_of_not_atEnd h).then fun _ => .bind steady_codeBlock fun _ => ?_
  refine .bind steady_expect fun b => ?_
  split
  · exact steady_follow' rfl
  · exact .pure

theorem advances_forBody {R : Unit → Prop} (h : v.atEnd = false) : Advances 3 v R forBody := by
  have tail : Steady 4 (do optionalWhereClause; codeBlock) :=
    .bind steady_optionalWhereClause.later fun _ => steady_codeBlock
  refine (bump_of_not_atEnd h).then fun _ => .bind steady_eat fun _ => .view_bind fun v => ?_
  refine .when (fun _ => steady_bump) fun _ => .bind steady_eat fun matching => ?_
  refine .bind (steady_follow rfl) fun _ => .bind steady_optionalAscription.later fun _ => ?_
  refine .bind steady_expect fun _ => ?_
  exact .when (fun _ => steady_follow' rfl) fun _ => tail

theorem advances_doBody {R : Unit → Prop} (h : v.atEnd = false) : Advances 3 v R doBody := by
  refine (bump_of_not_atEnd h).then fun _ => .bind steady_effects fun _ => ?_
  refine .bind steady_codeBlock fun _ => .repeating fun w => .sees_bind ?_
  split
  · next h =>
    refine .then (.node rfl ?_) fun _ => .pure
    refine (bump_of_beq h rfl).then fun _ => .sees_bind fun b => ?_
    dsimp only
    split
    · exact steady_codeBlock
    · exact .bind steady_caseItems.later fun _ => steady_codeBlock
  · exact .pure (by simp)

theorem advances_returnBody {R : Unit → Prop} (h : v.atEnd = false) :
    Advances 3 v R returnBody := by
  refine (bump_of_not_atEnd h).then fun _ => .view_bind fun v => ?_
  split
  · exact .pure
  · exact steady_follow' rfl

theorem advances_jumpBody {R : Unit → Prop} (h : v.atEnd = false) :
    Advances 3 v R jumpBody := by
  refine (bump_of_not_atEnd h).then fun _ => .view_bind fun v => ?_
  split
  · exact steady_bump
  · exact .pure

/-- What makes a statement is consumed, if there is a statement. -/
theorem advances_statementBody :
    Advances 3 v (fun n? => n?.isSome = true) statementBody := by
  refine .kind_bind ?_
  split
  · next h => exact .then (advances_ifBody h) fun _ => .pure
  · next h => exact .then (advances_guardBody (View.atEnd_of_kind h rfl)) fun _ => .pure
  · next h => exact .then (advances_whileBody (View.atEnd_of_kind h rfl)) fun _ => .pure
  · next h => exact .then (advances_repeatBody (View.atEnd_of_kind h rfl)) fun _ => .pure
  · next h => exact .then (advances_forBody (View.atEnd_of_kind h rfl)) fun _ => .pure
  · next h => exact .then (advances_doBody (View.atEnd_of_kind h rfl)) fun _ => .pure
  · next h => exact .then (advances_switchBody (View.atEnd_of_kind h rfl)) fun _ => .pure
  · next h => exact .then (bump_of_kind h rfl) fun _ => .bind steady_codeBlock fun _ => .pure
  · next h => exact .then (advances_returnBody (View.atEnd_of_kind h rfl)) fun _ => .pure
  · next h => exact .then (bump_of_kind h rfl) fun _ => .bind (steady_follow' rfl) fun _ => .pure
  · next h => exact .then (advances_jumpBody (View.atEnd_of_kind h rfl)) fun _ => .pure
  · next h => exact .then (advances_jumpBody (View.atEnd_of_kind h rfl)) fun _ => .pure
  · next h => exact .then (bump_of_kind h rfl) fun _ => .pure
  · split
    · next hbegins =>
      have hexpr : Advances 3 v (fun _ => True) (follow' (.expr .statement)) :=
        (advances_follow' rfl).mono (Nat.le_refl _) fun _ _ => hbegins
      exact hexpr.then fun _ => .pure
    · exact .pure (by simp)

theorem namesPlain_statementBody : NamesPlain statementBody := by
  refine .bind fun k => ?_
  split
  case h_8 => exact .bind fun _ => .bind fun _ => .some rfl
  case h_10 => exact .bind fun _ => .bind fun _ => .some rfl
  case h_14 =>
    split
    · exact .bind fun _ => .some rfl
    · exact .none
  all_goals exact .bind fun _ => .some rfl

/-- A statement consumes what it begins with, or sets it aside. -/
theorem advances_statement {R : Unit → Prop} (h : v.atEnd = false) :
    Advances 3 v R statement := by
  refine .kind_bind ?_
  split
  · exact .setAside (advances_enumCaseDecl h)
  · split
    · exact recover_of_not_atEnd h
    · have found : Advances 3 v (fun b => b = true) (node? do
          if atStatementLabel (← view) then
            bump
            bump
          statementBody) := by
        refine .node? (.view_bind ?_) (.bind fun v => ?_)
        · dsimp only
          split
          · refine (bump_of_not_atEnd h).then fun _ => .bind steady_bump fun _ w => ?_
            exact advances_statementBody.later.forget
          · exact advances_statementBody
        · dsimp only
          split
          · exact .bind fun _ => .bind fun _ => namesPlain_statementBody
          · exact namesPlain_statementBody
      -- where no statement is found nothing has been consumed, and recovery does
      refine found.bind (fun b => ?_) fun b hb => ?_
      · split
        · exact .pure
        · exact steady_recover
      · rw [if_neg hb]
        exact recover_of_not_atEnd h

/-! ## Conditional compilation -/

theorem steady_directiveCondition : Steady k directiveCondition := by
  refine .node rfl (.view_bind fun v => ?_)
  split
  · exact steady_report
  · refine .bind steady_bumpBalanced fun _ => .repeating fun w => .view_bind ?_
    split
    · exact .pure (by simp)
    · next h =>
      simp only [Bool.or_eq_true, not_or, Bool.not_eq_true] at h
      exact (advances_bumpBalanced.mono (Nat.le_refl _) fun _ _ => h.1).then fun _ => .pure

theorem advances_directiveBranch {R : Unit → Prop} (h : v.atEnd = false) :
    Advances k v R (directiveBranch scope) := by
  have items : Steady 4 (follow' (.items scope)) := steady_follow' rfl
  refine .node rfl (.sees_bind ((bump_of_not_atEnd h).then fun _ => ?_))
  split
  · exact items
  · exact .bind steady_directiveCondition fun _ => items

theorem advances_directiveBlock {R : Unit → Prop} (h : v.atEnd = false) :
    Advances k v R (directiveBlock scope) := by
  refine .node rfl (.then (.inDirective ?_) fun _ => steady_require)
  refine .then (advances_directiveBranch h) fun _ => .repeating fun w => .kind_bind ?_
  split
  · next hk => exact (advances_directiveBranch (View.atEnd_of_kind hk rfl)).then fun _ => .pure
  · next hk => exact (advances_directiveBranch (View.atEnd_of_kind hk rfl)).then fun _ => .pure
  · exact .pure (by simp)

/-! ## Items -/

theorem advances_declarationOrStatement (h : v.atEnd = false) :
    Advances 3 v (fun _ => False) (declarationOrStatement scope) := by
  refine .view_bind ?_
  split
  · next hk => exact steady_declaration (plain_of_declaration? hk) v
  · split
    · exact advances_statement h
    · split
      · exact recover_of_not_atEnd h
      · exact .setAside (advances_statement h)

theorem advances_item (h : v.atEnd = false) : Advances 3 v (fun _ => False) (item scope) := by
  refine .kind_bind ?_
  split
  · exact bump_of_not_atEnd h
  · exact advances_directiveBlock h
  · exact recover_of_not_atEnd h
  · exact recover_of_not_atEnd h
  · exact recover_of_not_atEnd h
  · split
    · exact advances_declarationOrStatement h
    · split
      · next hk =>
        simp only [Bool.or_eq_true, beq_iff_eq] at hk
        exact advances_switchCase (or_assoc.mp hk)
      · exact recover_of_not_atEnd h

/-- An item that consumes nothing is set aside, so that a round of the list always consumes. -/
theorem steady_items : Steady 3 (items scope) := by
  refine .repeating fun w => .view_bind ?_
  split
  · exact .pure (by simp)
  · next h =>
    simp only [Bool.or_eq_true, not_or, Bool.not_eq_true] at h
    refine (advances_item h.1).bind (fun _ => .view_bind fun u => ?_) fun _ _ => .view_bind ?_
    · exact .when (fun _ => steady_recover) fun _ => .pure
    · dsimp only
      rw [if_pos (by simp)]
      exact (recover_of_not_atEnd h.1).then fun _ => .pure

/-! ## Rules -/

/-- The body of every rule comes to an end where the rules of a lower rank can be followed, and
    consumes what the rule must; an `if` is followed at its keyword. -/
theorem advances_body {r : Rule} (hr : r = .ifStmt → v.kind = .kwIf) :
    Advances r.rank v (fun _ => r.consumes v) (body r) := by
  cases r with
  | items scope => exact Steady.bind steady_items (fun _ => .pure) v
  | type => exact steady_typeExpr v
  | pattern binding => exact steady_pattern v
  | bindingPattern => exact Steady.bind steady_bindingPattern (fun _ => .pure) v
  | expr place => exact advances_expression
  | ifStmt =>
    have hif : Advances 1 v (fun _ => True) ifStmt := advances_ifStmt (hr rfl)
    exact hif.then fun _ => .pure

end Grammar

end SwiftOutline
