/-
  SwiftOutline.Proofs.Filled.Expression

  Nodes of patterns and expressions have tokens, those of the statements inside
  expressions included.
-/
import SwiftOutline.Proofs.Filled.Signature
import SwiftOutline.Proofs.Progress.Expression

namespace SwiftOutline

namespace Grammar

open SwiftOutline.Parser

variable {v : View} {binding : Bool}

/-! ## Patterns -/

/-- An element of a tuple pattern or an argument: a label and a pattern. -/
theorem neat_labelledPattern {k : NodeKind} (hk : k.isDeclared = false) :
    Neat (node k do
      patternLabel
      follow (.pattern binding)) := by
  refine .node hk (.bind (.view_bind fun w => ?_) fun _ => neat_follow)
    fun _ => .last fun _ _ => .follow rfl
  split
  · exact .bind neat_bump fun _ => neat_bump
  · exact .pure

theorem neat_tuplePattern : Neat (tuplePattern binding) :=
  .listed rfl rfl (neat_labelledPattern rfl)

theorem neat_patternSuffixes : Neat (patternSuffixes binding) := by
  have arguments : Neat (patternArguments binding) := .listed rfl rfl (neat_labelledPattern rfl)
  refine .repeating fun w => .view_bind ?_
  split
  · next h =>
    rw [Bool.and_eq_true] at h
    refine .bind (.wrapOpened rfl (View.atEnd_of_beq h.1 rfl) ?_) fun _ => .pure
    exact fun _ => neat_bump
  · split
    · refine .bind (.wrap rfl (arguments w) (.node ?_)) fun _ => .pure
      exact .closed rfl
    · exact Neat.pure w

theorem atEnd_of_isLiteral (h : v.kind.isLiteral = true) : v.atEnd = false := by
  cases hend : v.atEnd with
  | false => rfl
  | true =>
    rw [eq_of_beq hend] at h
    exact absurd h (by simp [TokenKind.isLiteral])

theorem neat_patternPrimary : Neat (patternPrimary binding) := by
  have suffixes : Neat (do patternSuffixes binding; pure true) :=
    .bind neat_patternSuffixes fun _ => .pure
  refine fun v => .view_bind ?_
  split
  · next h =>
    exact (NeatAt.single rfl (atEnd_of_isLiteral h)).bind fun _ => .pure
  · split
    · next h =>
      simp only [Bool.and_eq_true] at h
      refine NeatAt.bind (.opened rfl (View.atEnd_of_beq h.1.1.1 rfl) ?_) fun _ => .pure
      exact fun _ => neat_bump
    · split
      · next h =>
        rw [Bool.and_eq_true] at h
        refine NeatAt.bind (.opened rfl (View.atEnd_of_beq h.1 rfl) ?_) fun _ => suffixes
        exact fun _ => neat_bump
      · split
        · next h => exact (NeatAt.single rfl (View.atEnd_of_kind h rfl)).bind fun _ => suffixes
        · next h => exact (NeatAt.single rfl (View.atEnd_of_kind h rfl)).bind fun _ => suffixes
        · next h => exact (NeatAt.single rfl (View.atEnd_of_kind h rfl)).bind fun _ => suffixes
        · next h => exact (NeatAt.single rfl (View.atEnd_of_kind h rfl)).bind fun _ => suffixes
        · exact Neat.pure v

theorem neat_patternTokens : Neat patternTokens := by
  refine .loop (fun depth => .view_bind fun w => ?_) fun _ => .pure
  split
  · exact .pure
  · exact .pure
  · split
    · exact .pure
    · exact .bind neat_closure fun _ => .pure
  · exact .bind neat_bump fun _ => .pure
  · exact .bind neat_bump fun _ => .pure
  · split
    · exact .pure
    · exact .bind neat_bump fun _ => .pure

/-- A lexeme that does not end a pattern is taken into it. -/
theorem feeds_patternToken (h : endsPattern v.kind = false) : Feeds false v (patternToken 0) := by
  refine .view_bind ?_
  split
  · next hk => exact absurd h (by rw [hk]; decide)
  · next hk => exact absurd h (by rw [hk]; decide)
  · next hk => exact absurd h (by rw [hk]; decide)
  · next hk => exact .first (.bump_kind hk rfl)
  · next hk => exact .first (.bump_kind hk rfl)
  · next hend _ _ _ _ =>
    rw [h, Bool.and_false, if_neg Bool.false_ne_true]
    exact .first (.bump (by simpa [View.atEnd] using hend))

theorem feeds_patternTokens (h : endsPattern v.kind = false) : Feeds false v patternTokens :=
  .loop (feeds_patternToken h)

/-- What makes a pattern that is an expression to compare with. -/
def expressionPatternBody (binding : Bool) : Parser Unit := do
  let structured ← patternPrimary binding
  unless endsPattern (← kind) do
    if structured then wrap .expr patternTokens else node .expr patternTokens

theorem neat_expressionPatternBody : Neat (expressionPatternBody binding) := by
  refine .bind neat_patternPrimary fun structured w => .kind_bind ?_
  split
  · exact Neat.pure w
  · next h =>
    have hfed : Feeds false w patternTokens := feeds_patternTokens (by simpa using h)
    split
    · exact .wrap rfl (neat_patternTokens w) hfed
    · exact .node rfl (neat_patternTokens w) hfed

/-- What the pattern begins with is consumed, or is still there for the tokens behind it. -/
theorem feeds_expressionPatternBody (h : endsPattern v.kind = false) :
    Feeds false v (expressionPatternBody binding) := by
  refine .behind (.later (k := 0) steady_patternPrimary) fun structured => .kind_bind ?_
  rw [if_neg (by rw [h]; exact Bool.false_ne_true)]
  split
  -- a primary that has consumed nothing leaves a lexeme that ends no pattern
  · exact .wrap (feeds_patternTokens h)
  · exact .node (feeds_patternTokens h)

theorem neat_expressionPattern : Neat (expressionPattern binding) := by
  refine fun v => .kind_bind ?_
  split
  · exact Neat.bind neat_report (fun _ => .pure) v
  · next h =>
    refine NeatAt.bind (.node rfl (neat_expressionPatternBody v) ?_) fun _ => .pure
    exact feeds_expressionPatternBody (by simpa using h)

theorem feeds_expressionPattern : Feeds false v (expressionPattern binding) := by
  refine .kind_bind ?_
  split
  · exact .first .report
  · next h => exact .first (.node (feeds_expressionPatternBody (by simpa using h)))

theorem neat_primaryPattern : Neat (primaryPattern binding) := by
  refine fun v => .view_bind ?_
  split
  · next h =>
    refine NeatAt.bind (.opened rfl (View.atEnd_of_kind h rfl) ?_) fun _ => .pure
    exact fun _ => neat_follow'
  · next h =>
    refine NeatAt.bind (.opened rfl (View.atEnd_of_kind h rfl) ?_) fun _ => .pure
    exact fun _ => neat_follow'
  · next h =>
    refine NeatAt.bind (.opened rfl (View.atEnd_of_kind h rfl) ?_) fun _ => .pure
    exact fun _ => neat_follow'
  · exact Neat.bind neat_tuplePattern (fun _ => .pure) v
  · next h =>
    split
    · exact (NeatAt.single rfl (View.atEnd_of_kind h rfl)).bind fun _ => .pure
    · exact neat_expressionPattern v
  · next h =>
    split
    · exact (NeatAt.single rfl (View.atEnd_of_kind h rfl)).bind fun _ => .pure
    · exact neat_expressionPattern v
  · exact neat_expressionPattern v

theorem neat_pattern : Neat (pattern binding) := by
  refine .bind neat_primaryPattern fun b => ?_
  split
  · refine fun w => .sees_bind ?_
    dsimp only
    split
    · next h =>
      refine NeatAt.bind (.wrapOpened rfl (View.atEnd_of_beq h rfl) ?_) fun _ => .pure
      exact fun _ => neat_follow'
    · exact Neat.pure w
  · exact .pure

/-- There is a pattern, or that there is none is reported. -/
theorem feeds_pattern : Feeds false v (pattern binding) := by
  refine .first (.view_bind ?_)
  split
  · next h => exact .first (.node (.first (.bump_kind h rfl)))
  · next h => exact .first (.node (.first (.bump_kind h rfl)))
  · next h => exact .first (.node (.first (.bump_kind h rfl)))
  · next h => exact .first (.node (.first (.bump_kind h rfl)))
  · next h =>
    split
    · exact .first (.node (.bump_kind h rfl))
    · exact feeds_expressionPattern
  · next h =>
    split
    · exact .first (.node (.bump_kind h rfl))
    · exact feeds_expressionPattern
  · exact feeds_expressionPattern

theorem neat_bindingPattern : Neat bindingPattern := by
  refine fun v => .kind_bind ?_
  split
  · next h => exact .single rfl (View.atEnd_of_kind h rfl)
  · next h => exact .single rfl (View.atEnd_of_kind h rfl)
  · next h =>
    refine Neat.listed rfl rfl (.node rfl ?_ fun _ => .first (.follow' rfl)) v
    exact .bind neat_follow' fun _ => .pure
  · exact neat_report v

theorem feeds_bindingPattern : Feeds false v bindingPattern := by
  refine .kind_bind ?_
  split
  · next h => exact .node (.bump_kind h rfl)
  · next h => exact .node (.bump_kind h rfl)
  · next h => exact .node (.first (.bump_kind h rfl))
  · exact .report

/-! ## Conditions -/

theorem neat_optionalWhereClause : Neat optionalWhereClause :=
  .ifSees fun v _ => Neat.introduced rfl rfl v

theorem neat_patternCondition {required : Bool} : Neat (patternCondition required) := by
  refine .bind neat_follow fun _ => .bind neat_optionalAscription fun _ => .sees_bind fun b => ?_
  split
  · exact neat_initializerClause
  · split
    · exact neat_report
    · exact .pure

/-- What makes a condition. -/
def conditionBody : Parser Unit := do
  match ← kind with
  | .kwLet | .kwVar => patternCondition false
  | .kwCase =>
    bump
    patternCondition true
  | _ => follow' (.expr .condition)

theorem feeds_conditionBody : Feeds false v conditionBody := by
  refine .kind_bind ?_
  split
  · exact .first (.follow rfl)
  · exact .first (.follow rfl)
  · next h => exact .first (.bump_kind h rfl)
  · exact .follow' rfl

theorem neat_conditions : Neat conditions := by
  have body : Neat conditionBody := by
    refine .kind_bind fun c => ?_
    split
    · exact neat_patternCondition
    · exact neat_patternCondition
    · exact .bind neat_bump fun _ => neat_patternCondition
    · exact neat_follow'
  exact .separated (.bind (.node rfl body fun _ => feeds_conditionBody) fun _ => .pure)

theorem feeds_conditions : Feeds false v conditions :=
  .separated (.first (.node feeds_conditionBody))

/-! ## Statements inside expressions -/

theorem neat_ifBody : Neat ifBody := by
  have elseBranch : Neat elseBranch := by
    refine .bind neat_eat fun b => ?_
    split
    · refine .sees_bind fun b => ?_
      split
      · exact neat_follow'
      · exact neat_codeBlock
    · exact .pure
  refine .bind neat_bump fun _ => .bind neat_conditions fun _ => ?_
  exact .bind neat_codeBlock fun _ => elseBranch

/-- An `if` has conditions, or that it has none is reported. -/
theorem feeds_ifBody : Feeds false v ifBody :=
  .last fun _ _ => .first feeds_conditions

theorem neat_ifStmt : Neat ifStmt := .node rfl neat_ifBody fun _ => feeds_ifBody

theorem neat_switchBody : Neat switchBody := by
  refine .bind neat_bump fun _ => .bind neat_follow' fun _ => .bind neat_expect fun b => ?_
  split
  · exact .bind neat_follow' fun _ => neat_require
  · exact .pure

theorem neatAt_switchExpr (h : v.atEnd = false) : NeatAt v switchExpr :=
  .nodeWith (.inl rfl) (neat_switchBody v) (.first (.bump h))

/-! ## Expressions -/

theorem neat_exprStep {place : Place} {r : Run} : Neat (exprStep place r) := by
  have plain : ∀ w : View, Neat (plainLexeme w r) := fun _ => .bind neat_bump fun _ => .pure
  refine fun v => .view_bind ?_
  dsimp only
  split
  · exact Neat.pure v
  · split
    · exact Neat.pure v
    · exact Neat.pure v
    · exact Neat.pure v
    · exact Neat.pure v
    · exact Neat.pure v
    · exact Neat.pure v
    · exact Neat.bind neat_bump (fun _ => .pure) v
    · exact Neat.bind neat_bump (fun _ => .pure) v
    · split
      · exact Neat.pure v
      · exact Neat.bind neat_bump (fun _ => .pure) v
    · split
      · exact Neat.pure v
      · exact Neat.bind neat_bump (fun _ => .pure) v
    · split
      · exact Neat.pure v
      · exact Neat.bind neat_closure (fun _ => .bind neat_trailingClosures fun _ => .pure) v
    · split
      · exact Neat.bind neat_follow' (fun _ => .pure) v
      · exact plain v v
    · next h =>
      split
      · exact (neatAt_switchExpr (View.atEnd_of_kind h rfl)).bind fun _ => .pure
      · exact plain v v
    · split
      · exact Neat.bind neat_bump (fun _ => .pure) v
      · exact plain v v
    · split
      · exact Neat.bind neat_bump (fun _ => .pure) v
      · exact plain v v
    · exact plain v v

/-- What an expression begins with is taken into it. -/
theorem feeds_exprStep {place : Place} (h : beginsExpr place v.kind = true) :
    Feeds false v (exprStep place {}) :=
  .of_advances ((advances_exprStep (by decide)).mono (Nat.le_refl _) fun _ _ => Or.inr ⟨rfl, h⟩)

theorem neat_expression {place : Place} : Neat (expression place) := by
  have close : ∀ r : Run, Neat (do if 0 < r.depth then report .openBracket) := by
    intro r
    split
    · exact neat_report
    · exact .pure
  refine fun v => .kind_bind ?_
  split
  · next h =>
    refine NeatAt.bind (.node rfl ?_ (.loop (feeds_exprStep h))) fun _ => .pure
    exact Neat.loop (fun _ => neat_exprStep) close v
  · exact Neat.bind neat_report (fun _ => .pure) v

/-- There is an expression, or that there is none is reported. -/
theorem feeds_expression {place : Place} : Feeds false v (expression place) := by
  refine .kind_bind ?_
  split
  · next h => exact .first (.node (.loop (feeds_exprStep h)))
  · exact .first .report

end Grammar

end SwiftOutline
