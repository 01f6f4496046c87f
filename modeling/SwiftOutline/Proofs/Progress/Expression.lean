/-
  SwiftOutline.Proofs.Progress.Expression

  Progress of patterns and expressions, and of the statements inside them. A
  pattern consumes a bracket, a keyword or a point before it follows another
  pattern or a type, and a closure inside it stands behind its brace. An
  expression is the only rule that follows another one, the `if`, before it has
  consumed anything.
-/
import SwiftOutline.Grammar.Expression
import SwiftOutline.Grammar.Pattern
import SwiftOutline.Proofs.Progress.Signature

namespace SwiftOutline

namespace Grammar

open SwiftOutline.Parser

variable {k : Nat} {v : View} {binding : Bool}

/-! ## Elements and arguments -/

theorem steady_patternLabel : Steady k patternLabel := by
  refine .view_bind fun v => ?_
  split
  · exact .bind steady_bump fun _ => steady_bump
  · exact .pure

/-- An element of a tuple pattern or an argument: a label and a pattern. -/
theorem steady_labelledPattern {n : NodeKind} (hn : n.isPlain = true) :
    Steady 3 (node n do
      patternLabel
      follow (.pattern binding)) :=
  .node hn (.bind steady_patternLabel fun _ => steady_follow rfl)

theorem advances_tuplePattern {R : Unit → Prop} (h : v.atEnd = false) :
    Advances k v R (tuplePattern binding) := by
  refine .node rfl ((bump_of_not_atEnd h).then fun _ => ?_)
  exact .bind (.separatedUntil (.later (steady_labelledPattern rfl))) fun _ => steady_require

theorem advances_patternArguments {R : Unit → Prop} (h : v.atEnd = false) :
    Advances k v R (patternArguments binding) := by
  refine .node rfl ((bump_of_not_atEnd h).then fun _ => ?_)
  exact .bind (.separatedUntil (.later (steady_labelledPattern rfl))) fun _ => steady_require

/-! ## Expressions to compare with -/

theorem steady_patternSuffixes : Steady k (patternSuffixes binding) := by
  refine .repeating fun w => .view_bind ?_
  split
  · next h =>
    rw [Bool.and_eq_true] at h
    refine .then (.wrap rfl ((bump_of_beq h.1 rfl).then fun _ => ?_)) fun _ => .pure
    exact steady_bump
  · split
    · next h =>
      refine .then (.wrap rfl ?_) fun _ => .pure
      exact advances_patternArguments (View.atEnd_of_seesJoined h rfl)
    · exact .pure (by simp)

theorem steady_patternPrimary : Steady k (patternPrimary binding) := by
  have suffixes : Steady k (do patternSuffixes binding; pure true) :=
    .bind steady_patternSuffixes fun _ => .pure
  refine .view_bind fun v => ?_
  split
  · exact .bind (.node rfl steady_bump) fun _ => .pure
  · split
    · exact .bind (.node rfl (.bind steady_bump fun _ => steady_bump)) fun _ => .pure
    · split
      · exact .bind (.node rfl (.bind steady_bump fun _ => steady_bump)) fun _ => suffixes
      · split
        · exact .bind (.node rfl steady_bump) fun _ => suffixes
        · exact .bind (.node rfl steady_bump) fun _ => suffixes
        · exact .bind (.node rfl steady_bump) fun _ => suffixes
        · exact .bind (.node rfl steady_bump) fun _ => suffixes
        · exact .pure

theorem advances_patternToken {depth : Nat} : Advances k v Step.goesOn (patternToken depth) := by
  refine .view_bind ?_
  split
  · exact .pure id
  · exact .pure id
  · next h =>
    split
    · exact .pure id
    · refine .then ?_ fun _ => .pure
      exact advances_closure (View.atEnd_of_kind h rfl)
  · next h => exact (bump_of_kind h rfl).then fun _ => .pure
  · next h => exact (bump_of_kind h rfl).then fun _ => .pure
  · next hend _ _ _ _ =>
    split
    · exact .pure id
    · exact (bump_of_not_atEnd (by simpa [View.atEnd] using hend)).then fun _ => .pure

theorem steady_patternTokens : Steady k patternTokens :=
  fun _ => .loop advances_patternToken (fun _ => trivial) (fun _ _ => advances_patternToken)
    (fun _ => .pure) fun _ _ => .pure id

theorem steady_expressionPattern : Steady k (expressionPattern binding) := by
  refine .kind_bind fun c => ?_
  split
  · exact .bind steady_report fun _ => .pure
  · refine .bind (.node rfl (.bind steady_patternPrimary fun structured => .kind_bind fun c => ?_))
      fun _ => .pure
    split
    · exact .pure
    · split
      · exact .wrap rfl steady_patternTokens
      · exact .node rfl steady_patternTokens

/-! ## The rules for patterns -/

theorem steady_primaryPattern : Steady k (primaryPattern binding) := by
  have nested : Steady 4 (follow' (.pattern true)) := steady_follow' rfl
  refine fun v => .view_bind ?_
  split
  · next h =>
    refine .then (.node rfl ?_) fun _ => .pure
    exact (bump_of_kind h rfl).then fun _ => nested
  · next h =>
    refine .then (.node rfl ?_) fun _ => .pure
    exact (bump_of_kind h rfl).then fun _ => nested
  · next h =>
    refine .then (.node rfl ?_) fun _ => .pure
    exact (bump_of_kind h rfl).then fun _ => steady_follow' rfl
  · next h => exact .then (advances_tuplePattern (View.atEnd_of_kind h rfl)) fun _ => .pure
  · split
    · exact Steady.bind (.node rfl steady_bump) (fun _ => .pure) v
    · exact steady_expressionPattern v
  · split
    · exact Steady.bind (.node rfl steady_bump) (fun _ => .pure) v
    · exact steady_expressionPattern v
  · exact steady_expressionPattern v

theorem steady_pattern : Steady k (pattern binding) := by
  refine .bind steady_primaryPattern fun b => ?_
  split
  · refine fun w => .sees_bind ?_
    dsimp only
    split
    · next h =>
      refine .then (.wrap rfl ?_) fun _ => .pure
      exact (bump_of_beq h rfl).then fun _ => steady_follow' rfl
    · exact .pure id
  · exact .pure

theorem steady_bindingPattern : Steady k bindingPattern := by
  have element : Steady 4 (node .tuplePatternElement do follow' .bindingPattern; pure true) :=
    .node rfl (.bind (steady_follow' rfl) fun _ => .pure)
  refine fun v => .kind_bind ?_
  split
  · exact .node rfl (steady_bump v)
  · exact .node rfl (steady_bump v)
  · next h =>
    refine .node rfl ((bump_of_kind h rfl).then fun _ => ?_)
    exact .bind (.separatedUntil element) fun _ => steady_require
  · exact steady_report v

/-! ## Conditions -/

theorem steady_whereClause : Steady 3 whereClause :=
  .node rfl (.bind steady_bump fun _ => steady_follow' rfl)

theorem steady_optionalWhereClause : Steady 3 optionalWhereClause :=
  .ifSees steady_whereClause

theorem steady_conditionValue {required : Bool} : Steady 3 (conditionValue required) := by
  refine .sees_bind fun b => ?_
  split
  · exact steady_initializerClause
  · split
    · exact steady_report
    · exact .pure

theorem steady_patternCondition {required : Bool} : Steady 3 (patternCondition required) :=
  .bind (steady_follow rfl) fun _ => .bind steady_optionalAscription fun _ => steady_conditionValue

theorem steady_conditions : Steady 3 conditions := by
  refine .separated (.bind (.node rfl (.kind_bind fun c => ?_)) fun _ => .pure)
  split
  · exact steady_patternCondition
  · exact steady_patternCondition
  · exact .bind steady_bump fun _ => steady_patternCondition
  · exact steady_follow' rfl

/-! ## Statements inside expressions -/

/-- Another `if` behind an `else` is followed at its keyword. -/
theorem steady_elseBranch : Steady 4 elseBranch := by
  refine .bind steady_eat fun b => ?_
  split
  · refine fun w => .sees_bind ?_
    split
    · next hw => exact follow'_ifStmt (by decide) (by simpa using hw)
    · exact steady_codeBlock w
  · exact .pure

/-- An `if` consumes its keyword. -/
theorem advances_ifBody {R : Unit → Prop} (h : v.kind = .kwIf) : Advances k v R ifBody := by
  refine (bump_of_kind h rfl).then fun _ => ?_
  refine .bind steady_conditions.later fun _ => ?_
  exact .bind steady_codeBlock fun _ => steady_elseBranch

theorem advances_ifStmt {R : Unit → Prop} (h : v.kind = .kwIf) : Advances k v R ifStmt :=
  .node rfl (advances_ifBody h)

theorem advances_switchBody {R : Unit → Prop} (h : v.atEnd = false) :
    Advances k v R switchBody := by
  refine (bump_of_not_atEnd h).then fun _ => .bind (steady_follow' rfl) fun _ => ?_
  refine .bind steady_expect fun b => ?_
  split
  · exact .bind (steady_follow' rfl) fun _ => steady_require
  · exact .pure

theorem advances_switchExpr {R : Unit → Prop} (h : v.atEnd = false) :
    Advances k v R switchExpr :=
  .node rfl (advances_switchBody h)

/-! ## The rule for expressions -/

theorem advances_plainLexeme {r : Run} {R : Step Run → Prop} (h : v.atEnd = false) :
    Advances k v R (plainLexeme v r) :=
  (bump_of_not_atEnd h).then fun _ => .pure

/-- What is taken into an expression has been consumed, and what an expression begins with is
    taken into it. -/
theorem advances_exprStep {place : Place} {r : Run} (hk : 2 ≤ k) :
    Advances k v (fun step => step.goesOn ∨ (r.isEmpty = true ∧ beginsExpr place v.kind = true))
      (exprStep place r) := by
  refine .view_bind ?_
  dsimp only
  split
  · next h =>
    simp only [Bool.and_eq_true, Bool.not_eq_true'] at h
    exact .pure (by simp [Step.goesOn, h.1.2])
  · split
    -- the kinds that end a run even if it is empty begin no expression
    · next h => exact .pure (by simp [Step.goesOn, h, beginsExpr])
    · next h => exact .pure (by simp [Step.goesOn, h, beginsExpr])
    · next h => exact .pure (by simp [Step.goesOn, h, beginsExpr, TokenKind.isDirective])
    · next h => exact .pure (by simp [Step.goesOn, h, beginsExpr, TokenKind.isDirective])
    · next h => exact .pure (by simp [Step.goesOn, h, beginsExpr, TokenKind.isDirective])
    · next h => exact .pure (by simp [Step.goesOn, h, beginsExpr, TokenKind.isDirective])
    · next h => exact (bump_of_kind h rfl).then fun _ => .pure
    · next h => exact (bump_of_kind h rfl).then fun _ => .pure
    · next h =>
      split
      · exact .pure (by simp [Step.goesOn, h, beginsExpr])
      · exact (bump_of_kind h rfl).then fun _ => .pure
    · next h =>
      split
      · exact .pure (by simp [Step.goesOn, h, beginsExpr])
      · exact (bump_of_kind h rfl).then fun _ => .pure
    · next h =>
      split
      · next hends =>
        -- a brace ends a run only if that holds something
        simp only [Bool.and_eq_true, Bool.not_eq_true'] at hends
        exact .pure (by simp [Step.goesOn, hends.1.2])
      · have hclosure : Advances k v (fun _ => True) closure :=
          advances_closure (View.atEnd_of_kind h rfl)
        refine hclosure.then fun _ => ?_
        exact .bind steady_trailingClosures fun _ => .pure
    · next h =>
      split
      · exact (follow'_ifStmt (by omega) h).then fun _ => .pure
      · exact advances_plainLexeme (View.atEnd_of_kind h rfl)
    · next h =>
      split
      · have hswitch : Advances k v (fun _ => True) switchExpr :=
          advances_switchExpr (View.atEnd_of_kind h rfl)
        exact hswitch.then fun _ => .pure
      · exact advances_plainLexeme (View.atEnd_of_kind h rfl)
    · next h =>
      split
      · exact (bump_of_kind h rfl).then fun _ => .pure
      · exact advances_plainLexeme (View.atEnd_of_kind h rfl)
    · next h =>
      split
      · exact (bump_of_kind h rfl).then fun _ => .pure
      · exact advances_plainLexeme (View.atEnd_of_kind h rfl)
    · next _ hend _ _ _ _ _ _ _ _ _ _ _ _ _ _ =>
      exact advances_plainLexeme (by simpa [View.atEnd] using hend)

/-- An expression is consumed where one begins. -/
theorem advances_expression {place : Place} :
    Advances 2 v (fun _ => beginsExpr place v.kind = true) (expression place) := by
  have close : ∀ r : Run, Steady 4 (do if 0 < r.depth then report .openBracket) := by
    intro r
    split
    · exact steady_report
    · exact .pure
  refine .kind_bind ?_
  split
  · next hbegins =>
    have first : Advances 2 v (fun _ => True) (exprStep place {}) :=
      (advances_exprStep (Nat.le_refl _)).mono (Nat.le_refl _) fun _ _ => Or.inr ⟨rfl, hbegins⟩
    have rounds : ∀ r w, Advances 4 w Step.goesOn (exprStep place r) :=
      fun r w => (advances_exprStep (by decide)).mono (Nat.le_refl _) fun _ => Or.inl
    have run : Advances 2 v (fun _ => True) (.loop (exprStep place) {} fun r => do
        if 0 < r.depth then report .openBracket) :=
      .loop first (fun _ => trivial) rounds close fun _ h => absurd trivial h
    exact .then (.node rfl run) fun _ => .pure
  · next hbegins => exact (steady_report v).bind (fun _ => .pure) fun _ _ => .pure hbegins

end Grammar

end SwiftOutline
