/-
  SwiftOutline.Proofs.Parser.Switches

  A `switch` may stand in expressions and as a statement, with a label or without
  one. What it needs for a relation to be kept, and the relation is kept by all
  programs for statements and expressions.
-/
import SwiftOutline.Proofs.Parser.Kinds

namespace SwiftOutline

namespace Grammar

open SwiftOutline.Parser

/-- What brings a relation about at a `switch`, behind a label and without one. -/
structure SwitchKept (K : Kept) (call : Rule → State → Bool × State) : Prop where
  plain : ∀ s : State, s.view.kind = .kwSwitch → K.rel s (switchExpr.run call s).2
  labelled : ∀ s : State, atStatementLabel s.view = true →
    (s.start false).consume.consume.view.kind = .kwSwitch →
    K.rel s ((node .switchExpr (do bump; bump; switchBody)).run call s).2

namespace SwitchKept

variable {F : Forms} {K : Kept} {call : Rule → State → Bool × State} [HasInner F]
  (h : SwitchKept K call) (hF : K.Allows call F)

include h hF

theorem by_exprStep (place : Place) (r : Run) : K.By call (exprStep place r) := by
  intro s
  simp only [exprStep, run_view_bind, run_ite]
  split
  · exact K.refl s
  split
  case h_13 hk =>
    split
    · rw [run_bind]
      exact h.plain s hk
    · exact K.consume s
  all_goals exact hF.by (P := fun _ => True) (by simp [plainLexeme]) s

theorem by_expression (place : Place) : K.By call (expression place) := by
  have hview : K.By call kind := K.refl
  have hrun : K.By call (.loop (exprStep place) {} fun r => do
      if 0 < r.depth then report .openBracket) := by
    intro s
    have hrest (r : Run) : K.By call (if 0 < r.depth then report .openBracket else pure ()) :=
      hF.by (P := fun _ => True) (by simp)
    exact K.trans (rel_runRounds (h.by_exprStep hF place) _ _ s) (hrest _ _)
  refine hview.bind fun k => .ite (.bind ?_ fun _ => .pure) (.bind (K.complain · _) fun _ => .pure)
  intro s
  rw [run_node]
  exact hF.node (HasInner.node rfl) (hrun _)

omit h in
/-- A statement that is no `switch`, and its kind. -/
theorem run_statementBody {s : State} (hk : s.view.kind ≠ .kwSwitch) :
    K.rel s (statementBody.run call s).2 ∧
      ∀ k, (statementBody.run call s).1 = some k → k.isInner = true := by
  simp only [statementBody, run_kind_bind]
  split
  case h_7 h => exact absurd h hk
  all_goals
    refine hF.run (P := fun k? : Option NodeKind => ∀ k, k? = some k → k.isInner = true) ?_ s
    simp +decide [guardBody, whileBody, repeatBody, forBody, returnBody, jumpBody]

omit [HasInner F] h hF in
theorem run_statementBody_of_switch {s : State} (hk : s.view.kind = .kwSwitch) :
    statementBody.run call s = (some .switchExpr, (switchBody.run call s).2) := by
  rw [statementBody, run_kind_bind, hk, run_bind, run_pure]

/-- A statement with or without a label. -/
theorem by_labelled : K.By call (node? do
    if atStatementLabel (← view) then
      bump
      bump
    statementBody) := by
  intro s
  generalize hp : (do
    if atStatementLabel (← view) then
      bump
      bump
    statementBody : Parser (Option NodeKind)) = p
  obtain ⟨t, ht, hst, hlabel⟩ : ∃ t, p.run call (s.start false) = statementBody.run call t ∧
      K.rel (s.start false) t ∧ (t = s.start false ∨
        atStatementLabel s.view = true ∧ t = (s.start false).consume.consume) := by
    subst hp
    cases hlabel : atStatementLabel s.view with
    | true =>
      have hview : atStatementLabel (s.start false).view = true := hlabel
      refine ⟨(s.start false).consume.consume, ?_, K.trans (K.consume _) (K.consume _),
        .inr ⟨rfl, rfl⟩⟩
      rw [run_view_bind, if_pos hview, run_bind, run_bind]
      rfl
    | false =>
      have hview : atStatementLabel (s.start false).view = false := hlabel
      refine ⟨s.start false, ?_, K.refl _, .inl rfl⟩
      rw [run_view_bind, if_neg (by simp [hview])]
  rw [run_node?]
  by_cases hk : t.view.kind = .kwSwitch
  · rw [ht, run_statementBody_of_switch hk]
    rcases hlabel with rfl | ⟨hlabel, rfl⟩
    · have hswitch := h.plain s hk
      rwa [switchExpr, run_node] at hswitch
    · have hswitch := h.labelled s hlabel hk
      rwa [run_node, run_bind, run_bind] at hswitch
  · obtain ⟨hbody, hinner⟩ := run_statementBody hF hk
    rw [← ht] at hbody hinner
    cases hfound : (p.run call (s.start false)).1 with
    | none =>
      exact K.finish (K.trans hst hbody) fun k (hk : none = some k) =>
        absurd hk (Option.some_ne_none k).symm
    | some k => exact hF.node (HasInner.node (hinner k hfound)) (K.trans hst hbody)

theorem by_statement [HasBlocks F] : K.By call statement := by
  intro s
  simp only [statement, run_kind_bind, run_ite]
  split
  · exact hF.by (P := fun _ => True) (by simp +decide [declaration, declarationRest]) s
  split
  · exact hF.by (P := fun _ => True) (by simp +decide) s
  · have hrecover : K.By call (recover .noStatement) :=
      hF.by (P := fun _ => True) (by simp +decide)
    exact (h.by_labelled hF).bind (fun _ => .ite .pure hrecover) s

theorem by_declarationOrStatement [HasBlocks F] {scope : Scope}
    (hdecl : ∀ (s : State) (k : NodeKind),
      Lookahead.declaration? scope s.view.lexemes = some k →
        K.rel s ((declaration k).run call s).2) : K.By call (declarationOrStatement scope) := by
  have hplain {α : Type} {p : Parser α} (hp : Makes F p fun _ => True) : K.By call p := hF.by hp
  have hstatement := h.by_statement hF
  intro s
  simp only [declarationOrStatement, run_view_bind]
  split
  · next k hk => exact hdecl s k hk
  · refine Kept.By.ite hstatement (.ite (hplain (by simp +decide)) ?_) s
    refine .bind (hplain (by simp)) fun _ => fun s => ?_
    rw [run_node]
    exact hF.node (HasInner.node rfl) (hstatement _)

/-- All rules but those for items. -/
theorem by_body [HasTypes F] [Adopts F] {r : Rule}
    (hitems : ∀ scope, r = .items scope → K.By call (items scope)) : K.By call (body r) := by
  have hplain {α : Type} {p : Parser α} (hp : Makes F p fun _ => True) : K.By call p := hF.by hp
  cases r with
  | items scope => exact .bind (hitems scope rfl) fun _ => .pure
  | expr place => exact h.by_expression hF place
  | ifStmt => exact hplain (by simp +decide [body, ifStmt])
  | _ => exact hplain (by simp [body])

end SwitchKept

end Grammar

end SwiftOutline
