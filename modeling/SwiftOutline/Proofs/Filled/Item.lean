/-
  SwiftOutline.Proofs.Filled.Item

  Nodes of statements, cases, conditional compilation and lists of items have
  tokens, and with them those of every rule of the grammar. So what is parsed has
  no nodes without tokens, apart from arguments of attributes, unless something
  is reported; and in no case are there any that introduce declarations.
-/
import SwiftOutline.Proofs.Filled.Declaration
import SwiftOutline.Proofs.Progress.Termination

namespace SwiftOutline

namespace Grammar

open SwiftOutline.Parser

variable {v : View} {scope : Scope}

/-! ## Cases -/

theorem neat_caseItems : Neat caseItems := by
  refine .separated (.bind (.node rfl (.bind neat_follow fun _ => ?_) fun _ => ?_) fun _ => .pure)
  · exact neat_optionalWhereClause
  · exact .first (.follow rfl)

theorem neat_switchCase : Neat switchCase := by
  refine .node rfl (.bind neat_attributes fun _ w => .kind_bind ?_)
    fun _ => .last fun _ w => .kind_bind ?_
  · dsimp only
    split
    · next h =>
      refine NeatAt.bind (.opened rfl (View.atEnd_of_kind h rfl) ?_) fun _ => neat_follow'
      exact fun _ => .bind neat_caseItems fun _ => neat_require
    · next h =>
      refine NeatAt.bind (.opened rfl (View.atEnd_of_kind h rfl) ?_) fun _ => neat_follow'
      exact fun _ => neat_require
    · exact Neat.bind neat_report (fun _ => neat_follow') w
  · dsimp only
    split
    · next h => exact .first (.node (.first (.bump_kind h rfl)))
    · next h => exact .first (.node (.first (.bump_kind h rfl)))
    · exact .first .report

/-! ## Statements -/

theorem neat_repeatBody : Neat repeatBody := by
  refine .bind neat_bump fun _ => .bind neat_codeBlock fun _ => .bind neat_expect fun b => ?_
  split
  · exact neat_follow'
  · exact .pure

theorem neat_forBody : Neat forBody := by
  have tail : Neat (do optionalWhereClause; codeBlock) :=
    .bind neat_optionalWhereClause fun _ => neat_codeBlock
  refine .bind neat_bump fun _ => .bind neat_eat fun _ => .view_bind fun v => ?_
  refine .when (fun _ => neat_bump) fun _ => .bind neat_eat fun matching => ?_
  refine .bind neat_follow fun _ => .bind neat_optionalAscription fun _ => ?_
  refine .bind neat_expect fun _ => ?_
  exact .when (fun _ => neat_follow') fun _ => tail

theorem neat_doBody : Neat doBody := by
  refine .bind neat_bump fun _ => .bind neat_effects fun _ => .bind neat_codeBlock fun _ => ?_
  refine .repeating fun w => .sees_bind ?_
  split
  · next h =>
    refine NeatAt.bind (.opened rfl (View.atEnd_of_beq h rfl) fun _ => ?_) fun _ => .pure
    refine .sees_bind fun b => ?_
    dsimp only
    split
    · exact neat_codeBlock
    · exact .bind neat_caseItems fun _ => neat_codeBlock
  · exact Neat.pure w

theorem neat_returnBody : Neat returnBody := by
  refine .bind neat_bump fun _ => .view_bind fun v => ?_
  split
  · exact .pure
  · exact neat_follow'

theorem neat_jumpBody : Neat jumpBody := by
  refine .bind neat_bump fun _ => .view_bind fun v => ?_
  split
  · exact neat_bump
  · exact .pure

theorem neat_statementBody : Neat statementBody := by
  refine .kind_bind fun k => ?_
  split
  · exact .bind neat_ifBody fun _ => .pure
  · refine .bind (.bind neat_bump fun _ => .bind neat_conditions fun _ => ?_) fun _ => .pure
    exact .bind neat_require fun _ => neat_codeBlock
  · refine .bind (.bind neat_bump fun _ => .bind neat_conditions fun _ => ?_) fun _ => .pure
    exact neat_codeBlock
  · exact .bind neat_repeatBody fun _ => .pure
  · exact .bind neat_forBody fun _ => .pure
  · exact .bind neat_doBody fun _ => .pure
  · exact .bind neat_switchBody fun _ => .pure
  · exact .bind neat_bump fun _ => .bind neat_codeBlock fun _ => .pure
  · exact .bind neat_returnBody fun _ => .pure
  · exact .bind neat_bump fun _ => .bind neat_follow' fun _ => .pure
  · exact .bind neat_jumpBody fun _ => .pure
  · exact .bind neat_jumpBody fun _ => .pure
  · exact .bind neat_bump fun _ => .pure
  · split
    · exact .bind neat_follow' fun _ => .pure
    · exact .pure

/-- What makes a statement, its label included. -/
def labelledStatement : Parser (Option NodeKind) := do
  if atStatementLabel (← view) then
    bump
    bump
  statementBody

theorem advances_labelledStatement (h : v.atEnd = false) :
    Advances 4 v (fun n? => n?.isSome = true) labelledStatement := by
  refine .view_bind ?_
  dsimp only
  split
  · refine (bump_of_not_atEnd h).then fun _ => .bind steady_bump fun _ w => ?_
    exact advances_statementBody.later.forget
  · exact advances_statementBody.later

theorem neat_labelledStatement : Neat labelledStatement := by
  refine .view_bind fun w => ?_
  dsimp only
  split
  · exact .bind neat_bump fun _ => .bind neat_bump fun _ => neat_statementBody
  · exact neat_statementBody

theorem neatAt_statement (h : v.atEnd = false) : NeatAt v statement := by
  refine .kind_bind ?_
  split
  · refine .report_bind (.node rfl (neatAt_declaration rfl h) (.node ?_))
    exact (feeds_declarationBody rfl h).weaken
  · split
    · exact neat_recover v
    · refine NeatAt.bind (.node? (neat_labelledStatement v) (advances_labelledStatement h))
        fun found => ?_
      split
      · exact .pure
      · exact neat_recover

/-! ## Conditional compilation -/

theorem neat_directiveCondition : Neat directiveCondition := by
  refine .node rfl (.view_bind fun w => ?_) fun w => .view_bind ?_
  · split
    · exact neat_report
    · refine .bind neat_bumpBalanced fun _ => .repeating (.view_bind fun u => ?_)
      split
      · exact .pure
      · exact .bind neat_bumpBalanced fun _ => .pure
  · split
    · exact .report
    · next h =>
      simp only [Bool.or_eq_true, not_or, Bool.not_eq_true] at h
      exact .first (.of_advances (bumpBalanced_of_not_atEnd h.1))

theorem feeds_directiveBranch {x : Bool} (h : v.atEnd = false) :
    Feeds x v (directiveBranch scope) :=
  .node (.sees_bind (.first (.bump h)))

theorem neatAt_directiveBranch (h : v.atEnd = false) : NeatAt v (directiveBranch scope) := by
  refine .node rfl (Neat.sees_bind (fun b => .bind neat_bump fun _ => ?_) v)
    (.sees_bind (.first (.bump h)))
  split
  · exact neat_follow'
  · exact .bind neat_directiveCondition fun _ => neat_follow'

theorem neatAt_directiveBlock (h : v.atEnd = false) : NeatAt v (directiveBlock scope) := by
  refine .nodeWith (.inl rfl) (.bind (.inDirective (.bind ?_ fun _ => .repeating ?_))
    fun _ => neat_require) (.first (.inDirective (.first (feeds_directiveBranch h))))
  · exact neatAt_directiveBranch h
  · refine fun w => .kind_bind ?_
    split
    · next hk => exact (neatAt_directiveBranch (View.atEnd_of_kind hk rfl)).bind fun _ => .pure
    · next hk => exact (neatAt_directiveBranch (View.atEnd_of_kind hk rfl)).bind fun _ => .pure
    · exact Neat.pure w

/-! ## Items -/

theorem neatAt_declarationOrStatement (h : v.atEnd = false) :
    NeatAt v (declarationOrStatement scope) := by
  refine .view_bind ?_
  split
  · next hk => exact neatAt_declaration (isWorded_of_declaration? hk) h
  · split
    · exact neatAt_statement h
    · split
      · exact neat_recover v
      · refine .report_bind (.node rfl (neatAt_statement h) (.of_advances ?_))
        exact (advances_statement h).later

theorem neatAt_item (h : v.atEnd = false) : NeatAt v (item scope) := by
  refine .kind_bind ?_
  split
  · exact neat_bump v
  · exact neatAt_directiveBlock h
  · exact neat_recover v
  · exact neat_recover v
  · exact neat_recover v
  · split
    · exact neatAt_declarationOrStatement h
    · split
      · exact neat_switchCase v
      · exact neat_recover v

theorem neat_items : Neat (items scope) := by
  refine .repeating fun w => .view_bind ?_
  split
  · exact Neat.pure w
  · next h =>
    simp only [Bool.or_eq_true, not_or, Bool.not_eq_true] at h
    refine (neatAt_item h.1).bind fun _ => .view_bind fun u => ?_
    exact .when (fun _ => neat_recover) fun _ => .pure

/-! ## Rules -/

theorem neat_body (r : Rule) : Neat (body r) := by
  cases r with
  | items scope => exact .bind neat_items fun _ => .pure
  | type => exact neat_typeExpr
  | pattern binding => exact neat_pattern
  | bindingPattern => exact .bind neat_bindingPattern fun _ => .pure
  | expr place => exact neat_expression
  | ifStmt => exact .bind neat_ifStmt fun _ => .pure

theorem feeds_body {r : Rule} (hr : r.tells = true) : Feeds false v (body r) := by
  cases r with
  | items scope => exact absurd hr Bool.false_ne_true
  | type => exact feeds_typeExpr
  | pattern binding => exact feeds_pattern
  | bindingPattern => exact .first feeds_bindingPattern
  | expr place => exact feeds_expression
  | ifStmt => exact .first (.node feeds_ifBody)

/-- The body of every rule does what is known of the rule. -/
theorem wlp_body (r : Rule) (s : State) : wlp Filling (body r) (Filling r s) s := by
  -- the four parts of what is known of a rule, each under its own condition
  have hreaches := wlp_reaches (body r) s
  have hfilled : wlp Filling (body r) (fun _ t => s.Filled → t.Filled) s := by
    by_cases hs : s.Filled
    · exact wlp_mono (fun _ _ ht _ => ht) (neat_body r s.view s rfl hs)
    · exact wlp_of_forall (fun _ _ h => absurd h hs) s
  have htold : wlp Filling (body r)
      (fun _ t => r.tells = true → t.left < s.left ∨ t.reports ≠ []) s := by
    by_cases hr : r.tells = true
    · exact wlp_mono (fun _ _ ht _ => ht.imp_right And.right) (feeds_body hr s rfl)
    · exact wlp_of_forall (fun _ _ h => absurd h hr) s
  have hmoves : wlp Filling (body r) (fun _ t =>
      (r = .ifStmt → s.view.kind = .kwIf) → s.Moves t (r.consumes s.view)) s := by
    by_cases hr : r = .ifStmt → s.view.kind = .kwIf
    · refine wlp_mono (fun _ _ ht _ => ht) (wlp_of_wp moves_of_filling
        (advances_body hr (4 * s.left + 4) s rfl (by omega)))
    · exact wlp_of_forall (fun _ _ h => absurd h hr) s
  refine wlp_mono (fun b t ht => ?_) (wlp_and (wlp_and hreaches hfilled) (wlp_and htold hmoves))
  exact ⟨ht.1.1, ht.1.2, ht.2.1, ht.2.2⟩

/-! ## Files -/

theorem neat_file : Neat file := by
  refine .bind neat_follow' fun _ => .repeating (.view_bind fun w => ?_)
  split
  · exact .pure
  · exact .bind neat_recover fun _ => .bind neat_follow' fun _ => .pure

/-- What parsing builds has nodes with the tokens that they need. -/
theorem filled_parseLexemes (lexemes : List Lexeme) (endGap : Gap) :
    (parseLexemes lexemes endGap).Filled := by
  obtain ⟨t, -, hproceeds, hrun⟩ := exists_proceeds_file lexemes endGap
  have hfinal : parseLexemes lexemes endGap = t := by
    rw [parseLexemes, hrun _ (Nat.le_refl _)]
  rw [hfinal]
  refine hproceeds.of_wlp wlp_body (neat_file _ _ rfl fun u hu => ?_)
  exact absurd hu List.not_mem_nil

end Grammar

end SwiftOutline
