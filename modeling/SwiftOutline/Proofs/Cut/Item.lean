/-
  SwiftOutline.Proofs.Cut.Item

  Statements, conditional compilation and lists of items on a front part of a
  text, and with them every rule of the grammar. What an item is may be told by
  lexemes that come behind it; but a list of items ends before a bracket or
  directive, and what is looked at does not go past that.
-/
import SwiftOutline.Proofs.Cut.Declaration

namespace SwiftOutline

namespace Grammar

open SwiftOutline.Parser

variable {c : Cut} {i n : Nat} {v : View} {scope : Scope}

/-! ## Cases -/

theorem safeAt_caseItem : SafeAt c i (fun _ => 0) (fun _ w => PatternEnd w) 0 v
    (node .caseItem do
      let _ ← follow (.pattern false)
      optionalWhereClause)
    (node .caseItem do
      let _ ← follow (.pattern false)
      optionalWhereClause) := by
  refine .node (.bind_of (Y := fun _ w => PatternEnd w) (.follow trivial fun _ _ _ hend => hend)
    (fun _ w => safe_optionalWhereClause.safeAt) fun _ t _ => ?_)
  by_cases ht : PatternEnd t.view
  · exact wlp_of_forall (fun _ _ _ _ _ => ht) t
  · have hwhere : t.view.kind ≠ .kwWhere := kind_ne_of_not_patternEnd ht (by decide) (by decide)
    exact wlp_ifSees_not hwhere fun _ hend _ => hend

/-- Patterns with something behind them, and no closing brace. -/
theorem safeAt_caseItems : SafeAt c i (fun _ => 0) (fun _ w => PatternEnd w) 0 v caseItems
    caseItems := by
  refine .separated_of fun w => .bind_pure (.mono (fun _ u hu => ?_) safeAt_caseItem)
  exact hu.elim (fun hk => ⟨by rw [hk]; decide, by rw [hk]; decide⟩) id

/-- Patterns with a block behind them. -/
theorem safe_caseItemsBlock : Safe c (caseItems >>= fun _ => codeBlock) := by
  refine fun i v => .bind_unless safeAt_caseItems (fun _ _ => safe_codeBlock.safeAt)
    fun _ w hw => ?_
  exact complains_codeBlock (kind_ne_of_not_patternEnd hw (by decide) (by decide))

/-- A label of a `switch`, and the statements behind it. -/
theorem safeAt_switchCase : SafeAt c i (fun _ => 0) (fun _ w => ItemsEnd c w) 0 v switchCase
    switchCase := by
  have hitems : ∀ w : View, SafeAt c i (fun _ => 0) (fun _ u => ItemsEnd c u) 0 w
      (follow' (.items .caseBody)) (follow' (.items .caseBody)) :=
    fun w => .follow' trivial fun _ _ hend => hend
  refine .node (.bind safe_attributes.safeAt fun _ w => .kind_bind (.inl ?_) ?_)
  · dsimp only
    split
    · next h => exact (Eats.node (Eats.bump (View.atEnd_of_kind h rfl)).first).first
    · next h => exact (Eats.node (Eats.bump (View.atEnd_of_kind h rfl)).first).first
    · exact Complains.report.first.eats
  · dsimp only
    split
    · next h =>
      refine .bind (.node (.bind (.bump_kind h rfl) fun _ _ => ?_)) fun _ u => hitems u
      refine .bind_unless safeAt_caseItems (fun _ _ => .require rfl rfl) fun _ u hu => ?_
      exact .require (kind_ne_of_not_patternEnd hu (by decide) (by decide))
    · next h =>
      refine .bind (.node (.bind (.bump_kind h rfl) fun _ _ => ?_)) fun _ u => hitems u
      exact .require rfl rfl
    · exact .complains Complains.report.first

/-! ## Statements -/

theorem safeAt_guardBody (ho : v.kind.isOpener = false) :
    SafeAt c i (fun _ => 0) anyEnd 0 v guardBody guardBody := by
  refine .bind (.bump ho) fun _ _ => .bind_unless safeAt_conditions (fun _ _ => ?_)
    fun _ w hw => ?_
  · exact .bind (.require rfl rfl) fun _ _ => safe_codeBlock.safeAt
  · exact (Complains.require (kind_ne_of_not_patternEnd hw (by decide) (by decide))).first

theorem safeAt_whileBody (ho : v.kind.isOpener = false) :
    SafeAt c i (fun _ => 0) anyEnd 0 v whileBody whileBody := by
  refine .bind (.bump ho) fun _ _ => .bind_unless safeAt_conditions
    (fun _ _ => safe_codeBlock.safeAt) fun _ w hw => ?_
  exact complains_codeBlock (kind_ne_of_not_patternEnd hw (by decide) (by decide))

theorem safeAt_repeatBody (ho : v.kind.isOpener = false) :
    SafeAt c i (fun _ => 0) anyEnd 0 v repeatBody repeatBody := by
  refine .bind (.bump ho) fun _ _ => .bind safe_codeBlock.safeAt fun _ _ => ?_
  refine .bind (.expect rfl rfl) fun found _ => ?_
  exact (Safe.ite (fun _ => safe_expr) fun _ => .pure).safeAt

/-- What comes behind the pattern of a `for`. -/
theorem safe_forRest : Safe c (do
    optionalAscription
    if ← expect .kwIn .noForIn then follow' (.expr .condition)
    optionalWhereClause
    codeBlock) := by
  have htail : Safe c (do optionalWhereClause; codeBlock) :=
    .bind safe_optionalWhereClause fun _ => safe_codeBlock
  refine .bind safe_optionalAscription fun _ => .bind (.expect rfl rfl) fun found => ?_
  exact .ite (fun _ => .bind safe_expr fun _ => htail) fun _ => htail

/-- Where no pattern can end, the `in` of a `for` is missing. -/
theorem complains_forRest (h : ¬ PatternEnd v) : Complains v (do
    optionalAscription
    if ← expect .kwIn .noForIn then follow' (.expr .condition)
    optionalWhereClause
    codeBlock) := by
  have hcolon : v.kind ≠ .colon := kind_ne_of_not_patternEnd h (by decide) (by decide)
  have hin : v.kind ≠ .kwIn := kind_ne_of_not_patternEnd h (by decide) (by decide)
  rintro s rfl
  have hmissing : Complains s.view (expect .kwIn .noForIn) := .expect hin
  exact wlp_bind (wlp_ifSees_not hcolon (hmissing.first s rfl))

theorem safeAt_forBody (ho : v.kind.isOpener = false) :
    SafeAt c i (fun _ => 0) anyEnd 0 v forBody forBody := by
  have hpattern : ∀ w : View, SafeAt c i (fun _ => 0) anyEnd 0 w
      (do
        let matching ← eat .kwCase
        let _ ← follow (.pattern (!matching))
        optionalAscription
        if ← expect .kwIn .noForIn then follow' (.expr .condition)
        optionalWhereClause
        codeBlock)
      (do
        let matching ← eat .kwCase
        let _ ← follow (.pattern (!matching))
        optionalAscription
        if ← expect .kwIn .noForIn then follow' (.expr .condition)
        optionalWhereClause
        codeBlock) := by
    refine fun w => .bind (.eat rfl rfl) fun matching _ => ?_
    refine .bind_unless (Y := fun _ u => PatternEnd u) (.follow trivial fun _ _ _ hend => hend)
      (fun _ _ => safe_forRest.safeAt) fun _ u hu => complains_forRest hu
  refine .bind (.bump ho) fun _ _ => .bind (.eat rfl rfl) fun _ w => ?_
  refine .view_bind (.word (C := fun u => u.spells "await") (fun hin => View.spells_cut hin)
    (fun u hu => .of_spells hu) (fun u => hpattern u) fun _ => hpattern w)

theorem safeAt_catchClause {X : Unit → View → Prop} (h : v.kind = .kwCatch) :
    SafeAt c i (fun _ => 0) X 0 v
      (node .catchClause do
        bump
        unless ← sees .lBrace do caseItems
        codeBlock)
      (node .catchClause do
        bump
        unless ← sees .lBrace do caseItems
        codeBlock) := by
  refine .node (.bind (.bump_kind h rfl) fun _ w => .sees_bind rfl (fun hb => ?_) (fun _ => ?_)
    fun _ => safe_caseItemsBlock.safeAt)
  · exact eats_codeBlock hb
  · exact safe_codeBlock.safeAt

theorem safeAt_doBody (ho : v.kind.isOpener = false) :
    SafeAt c i (fun _ => 0) anyEnd 0 v doBody doBody := by
  refine .bind (.bump ho) fun _ _ => .bind safe_effects.safeAt fun _ _ => ?_
  refine .bind safe_codeBlock.safeAt fun _ _ => .repeating fun w => ?_
  refine .sees_bind rfl (fun h => ?_) (fun h => ?_) fun _ => .pure (Nat.le_refl 0)
  · exact (Eats.node (Eats.bump (View.atEnd_of_kind h rfl)).first).first
  · exact .bind (safeAt_catchClause h) fun _ _ => .pure (Nat.le_refl 0)

theorem safeAt_returnBody (ho : v.kind.isOpener = false) :
    SafeAt c i (fun _ => 0) anyEnd 0 v returnBody returnBody := by
  refine .bind (.bump ho) fun _ w => .view_next ?_ (fun hin => ?_) ?_
  · split
    · exact .pure (Nat.le_refl 0)
    · exact safe_expr.safeAt
  · rw [View.gap_cut hin, View.kind_cut hin, View.atEnd_cut hin]
  · split
    · refine .inr fun u hu => ?_
      rw [View.atEnd, hu]
      simp
    · exact .inl (Feeds.follow' rfl).eats

theorem safeAt_jumpBody (ho : v.kind.isOpener = false) :
    SafeAt c i (fun _ => 0) anyEnd 0 v jumpBody jumpBody := by
  refine .bind (.bump ho) fun _ w => .view_next ?_ (fun hin => ?_) ?_
  · split
    · next h => exact .bump_kind (eq_of_beq (Bool.and_eq_true_iff.mp h).1) rfl
    · exact .pure (Nat.le_refl 0)
  · rw [View.kind_cut hin, View.gap_cut hin]
  · split
    · next h =>
      exact .inl (Eats.bump (View.atEnd_of_kind (eq_of_beq (Bool.and_eq_true_iff.mp h).1) rfl))
    · refine .inr fun u hu => ?_
      rw [hu]
      rfl

/-- A statement that begins with a word consumes that. -/
theorem eats_worded {α : Type} {x : TokenKind} {f : Unit → Parser Unit} {g : Unit → Parser α}
    (h : v.kind = x) (hx : (x == .eof) = false) : Eats 0 v ((bump >>= f) >>= g) :=
  (Eats.bump (View.atEnd_of_kind h hx)).first.first

theorem safe_statementBody : Safe c statementBody := by
  have hbody : ∀ {x : TokenKind} {v : View} {i : Nat} {k : NodeKind} {p : Parser Unit},
      v.kind = x → x.isOpener = false →
      (v.kind.isOpener = false → SafeAt c i (fun _ => 0) anyEnd 0 v p p) →
      SafeAt c i (fun _ => 0) anyEnd 0 v (p >>= fun _ => pure (some k))
        (p >>= fun _ => pure (some k)) :=
    fun hv hx hp => .bind (hp (hv ▸ hx)) fun _ _ => .pure (Nat.le_refl 0)
  refine fun i v => .kind_bind ?_ ?_
  · -- every statement but an expression begins with its word
    dsimp only
    split
    · next h => exact .inl (eats_worded h rfl)
    · next h => exact .inl (eats_worded h rfl)
    · next h => exact .inl (eats_worded h rfl)
    · next h => exact .inl (eats_worded h rfl)
    · next h => exact .inl (eats_worded h rfl)
    · next h => exact .inl (eats_worded h rfl)
    · next h => exact .inl (eats_worded h rfl)
    · next h => exact .inl (Eats.bump (View.atEnd_of_kind h rfl)).first
    · next h => exact .inl (eats_worded h rfl)
    · next h => exact .inl (Eats.bump (View.atEnd_of_kind h rfl)).first
    · next h => exact .inl (eats_worded h rfl)
    · next h => exact .inl (eats_worded h rfl)
    · next h => exact .inl (Eats.bump (View.atEnd_of_kind h rfl)).first
    · split
      · exact .inl (Feeds.follow' rfl).eats.first
      · exact .inr rfl
  · split
    · next h => exact .bind (safeAt_ifBody h) fun _ _ => .pure (Nat.le_refl 0)
    · next h => exact hbody h rfl safeAt_guardBody
    · next h => exact hbody h rfl safeAt_whileBody
    · next h => exact hbody h rfl safeAt_repeatBody
    · next h => exact hbody h rfl safeAt_forBody
    · next h => exact hbody h rfl safeAt_doBody
    · next h => exact .bind (safeAt_switchBody h) fun _ _ => .pure (Nat.le_refl 0)
    · next h =>
      exact .bind (.bump_kind h rfl) fun _ _ => .bind safe_codeBlock.safeAt fun _ _ =>
        .pure (Nat.le_refl 0)
    · next h => exact hbody h rfl safeAt_returnBody
    · next h =>
      exact .bind (.bump_kind h rfl) fun _ _ => .bind safe_expr.safeAt fun _ _ =>
        .pure (Nat.le_refl 0)
    · next h => exact hbody h rfl safeAt_jumpBody
    · next h => exact hbody h rfl safeAt_jumpBody
    · next h => exact .bind (.bump_kind h rfl) fun _ _ => .pure (Nat.le_refl 0)
    · split
      · exact .bind safe_expr.safeAt fun _ _ => .pure (Nat.le_refl 0)
      · exact .pure (Nat.le_refl 0)

/-- A name and a colon with a statement behind them. -/
theorem words_of_atStatementLabel (h : atStatementLabel v = true) :
    v.AtWord ∧ v.tail.AtWord ∧ v.kindAt 2 ≠ .eof ∧ Eats 0 v.tail.tail statementBody := by
  rw [atStatementLabel, Bool.and_eq_true, Bool.and_eq_true, beq_iff_eq, beq_iff_eq,
    ← View.kind_tail, ← View.kindAt_tail, ← View.kind_tail] at h
  obtain ⟨⟨hname, hcolon⟩, hword⟩ := h
  have hkind : v.kindAt 2 = v.tail.tail.kind :=
    ((View.kind_tail _).trans (View.kindAt_tail v 1)).symm
  refine ⟨.of_kind hname rfl rfl, .of_kind hcolon rfl rfl, fun heof => ?_, .kind_bind ?_⟩
  · rw [← hkind, heof] at hword
    cases hword
  · split at hword
    · next hk => rw [hk]; exact eats_worded hk rfl
    · next hk => rw [hk]; exact eats_worded hk rfl
    · next hk => rw [hk]; exact eats_worded hk rfl
    · next hk => rw [hk]; exact eats_worded hk rfl
    · next hk => rw [hk]; exact eats_worded hk rfl
    · next hk => rw [hk]; exact eats_worded hk rfl
    · cases hword

theorem safe_labelledStatement : Safe c labelledStatement := by
  refine fun i v => .view_bind (.ahead (C := atStatementLabel) 2 (fun hin => ?_) (fun h => ?_)
    (fun h => ?_) (fun h => ?_) fun _ => safe_statementBody i v)
  · rw [atStatementLabel, atStatementLabel, View.kind_cut (by omega),
      View.kindAt_cut (v := v) (c := c) (n := 1) (by omega), View.kindAt_cut hin]
  · exact (words_of_atStatementLabel h).2.2.1
  · obtain ⟨hname, hcolon, -, heats⟩ := words_of_atStatementLabel h
    exact .bump_bind hname.atEnd (.bump_bind hcolon.atEnd heats)
  · obtain ⟨hname, hcolon, -, -⟩ := words_of_atStatementLabel h
    exact .word_then hname (.word_then hcolon (safe_statementBody i _))

/-- A statement that begins before the cut. -/
theorem safeAt_statement (hin : c.behind < v.lexemes.length) :
    SafeAt c i (fun _ => 0) anyEnd 0 v statement statement := by
  refine .kind_bind' ?_
  rw [View.kind_cut hin]
  dsimp only
  split
  · exact .complains Complains.report.first
  · split
    · exact .complains .recover
    · have hfound : SafeAt c i (fun _ => 0) anyEnd 0 v (node? labelledStatement)
          (node? labelledStatement) := .node? safe_labelledStatement.safeAt
      refine .bind hfound fun found _ => ?_
      cases found with
      | true => exact .pure (Nat.le_refl 0)
      | false => exact .complains .recover

/-! ## Conditional compilation -/

theorem safe_directiveCondition : Safe c directiveCondition := by
  have hrest : Safe c (repeating do
      let v ← view
      if v.atEnd || v.gap.newline then pure false
      else
        bumpBalanced
        pure true) := by
    refine .repeating fun i v => .view_next ?_ (fun hin => ?_) ?_
    · split
      · exact .pure (Nat.le_refl 0)
      · exact .bind safe_bumpBalanced.safeAt fun _ _ => .pure (Nat.le_refl 0)
    · rw [View.atEnd_cut hin, View.gap_cut hin]
    · -- at the cut the condition ends, or a lexeme is consumed
      split
      · refine .inr fun u hu => ?_
        rw [View.atEnd, hu]
        rfl
      · next h =>
        simp only [Bool.or_eq_true, not_or, Bool.not_eq_true] at h
        exact .inl (Feeds.first (x := false) (.of_advances (bumpBalanced_of_not_atEnd h.1))).eats
  refine .node fun i v => .view_next ?_ (fun hin => ?_) (.inl ?_)
  · split
    · exact .complains .report
    · exact .bind safe_bumpBalanced.safeAt fun _ _ => hrest.safeAt
  · rw [View.atEnd_cut hin, View.gap_cut hin]
  · split
    · exact Complains.report.eats
    · next h =>
      simp only [Bool.or_eq_true, not_or, Bool.not_eq_true] at h
      exact (Feeds.first (x := false) (.of_advances (bumpBalanced_of_not_atEnd h.1))).eats

/-- A branch of an `#if` block ends before another one, or where the block ends, and that stands
    before the cut. -/
structure BranchEnd (c : Cut) (v : View) : Prop where
  kind : EndsBranch v.kind
  within : c.behind < v.lexemes.length

theorem isDirective_of_endsBranch {k : TokenKind} (h : EndsBranch k) : k.isDirective = true := by
  rcases h with rfl | rfl | rfl <;> rfl

/-- In a block that begins in the front part, a list of items can end with a branch. -/
theorem BranchEnd.itemsEnd (h : BranchEnd c v) (hd : c.outer < v.directives) : ItemsEnd c v :=
  ⟨State.walled_of_kind (s := ⟨v, [], []⟩) h.within (.inr (isDirective_of_endsBranch h.kind)),
    fun _ => hd⟩

theorem eats_directiveBranch (h : v.atEnd = false) : Eats 0 v (directiveBranch scope) :=
  (feeds_directiveBranch (x := false) h).eats

/-- A branch begins with a directive. -/
theorem safeAt_directiveBranch (hk : v.kind.isDirective = true) :
    SafeAt c i (fun _ => 0) (fun _ w => BranchEnd c w ∧ c.outer < w.directives) 0 v
      (directiveBranch scope) (directiveBranch scope) := by
  have hword : v.AtWord := by
    constructor
    · rw [View.atEnd]
      revert hk
      cases v.kind <;> decide
    · revert hk
      cases v.kind <;> decide
  have hitems : ∀ w : View, SafeAt c i (fun _ => 0)
      (fun _ u => BranchEnd c u ∧ c.outer < u.directives) 0 w (follow' (.items scope))
      (follow' (.items scope)) :=
    fun w => .follow' trivial fun _ _ hend => hend.1.itemsEnd hend.2
  refine .node (.sees_bind rfl (fun _ => (Eats.bump hword.atEnd).first) (fun _ => ?_) fun _ => ?_)
  · exact .bind (.bump hword.plain) fun _ w => hitems w
  · exact .bind (.bump hword.plain) fun _ _ => .bind safe_directiveCondition.safeAt
      fun _ w => hitems w

/-- Another branch, if one comes. -/
def anotherBranch (scope : Scope) : Parser Bool := do
  match ← kind with
  | .poundElseif | .poundElse =>
    directiveBranch scope
    pure true
  | _ => pure false

/-- Where another branch ends before the cut, the one before it has done so too. -/
theorem wlp_anotherBranch (s : State) : wlp (Cutting c) (anotherBranch scope) (fun _ t =>
    BranchEnd c t.view ∧ c.outer < t.view.directives →
      BranchEnd c s.view ∧ c.outer < s.view.directives) s := by
  have hback : EndsBranch s.view.kind → wlp (Cutting c)
      (directiveBranch scope >>= fun _ => pure true) (fun _ t =>
        BranchEnd c t.view ∧ c.outer < t.view.directives →
          BranchEnd c s.view ∧ c.outer < s.view.directives) s := by
    intro hk
    refine wlp_mono (fun _ t ht hend => ?_) (wlp_steps _ s)
    exact ⟨⟨hk, Nat.lt_of_lt_of_le hend.1.within ht.1.left_le⟩, ht.2 ▸ hend.2⟩
  refine wlp_kind_bind ?_
  split
  · next h => exact hback (.inl h)
  · next h => exact hback (.inr (.inl h))
  · exact fun hend => hend

theorem safeAt_anotherBranch : SafeAt c i (fun _ => 0)
    (fun _ w => BranchEnd c w ∧ c.outer < w.directives) 0 v (anotherBranch scope)
    (anotherBranch scope) := by
  refine .kind_bind ?_ ?_
  · split
    · next h => exact .inl (eats_directiveBranch (View.atEnd_of_kind h rfl)).first
    · next h => exact .inl (eats_directiveBranch (View.atEnd_of_kind h rfl)).first
    · exact .inr rfl
  · split
    · next h => exact .bind_pure (safeAt_directiveBranch (by rw [h]; rfl))
    · next h => exact .bind_pure (safeAt_directiveBranch (by rw [h]; rfl))
    · exact .pure (Nat.le_refl 0)

/-- All branches of a block. -/
theorem safeAt_branches (hk : v.kind = .poundIf) : SafeAt c i (fun _ => 0)
    (fun _ w => BranchEnd c w ∧ c.outer < w.directives) 0 v
    (directiveBranch scope >>= fun _ => repeating (anotherBranch scope))
    (directiveBranch scope >>= fun _ => repeating (anotherBranch scope)) := by
  refine .bind_of (safeAt_directiveBranch (by rw [hk]; rfl)) (fun _ w => ?_) fun _ t _ => ?_
  · refine .repeating_of (I := fun w => BranchEnd c w ∧ c.outer < w.directives)
      (fun u => .mono (fun b _ hb => ?_) safeAt_anotherBranch) fun s _ => ?_
    · cases b <;> exact hb
    · refine wlp_mono (fun b _ ht _ _ hend => ht ?_) (wlp_anotherBranch s)
      cases b <;> exact hend
  · have hback : wlp (Cutting c) (repeating (anotherBranch scope)) (fun _ u =>
        BranchEnd c u.view ∧ c.outer < u.view.directives →
          BranchEnd c t.view ∧ c.outer < t.view.directives) t := by
      refine wlp_repeating (I := fun u => BranchEnd c u.view ∧ c.outer < u.view.directives →
        BranchEnd c t.view ∧ c.outer < t.view.directives) (fun hend => hend) fun u hu => ?_
      refine wlp_mono (fun b w hw => ?_) (wlp_anotherBranch u)
      cases b <;> exact fun hend => hu (hw hend)
    exact wlp_mono (fun _ u hu _ hend _ => hu hend) hback

theorem safeAt_directiveBlock (hk : v.kind = .poundIf) :
    SafeAt c i (fun _ => 0) anyEnd 0 v (directiveBlock scope) (directiveBlock scope) := by
  refine .node (.bind_of (Y := fun _ w => BranchEnd c w) ?_ (fun _ _ => .require rfl rfl)
    fun _ t _ => ?_)
  · refine .inDirective fun houter => .steady (.mono (fun _ w hw => ?_) (safeAt_branches hk))
    exact ⟨⟨hw.1.kind, hw.1.within⟩, hw.2 ▸ Nat.lt_succ_of_le houter⟩
  · by_cases hend : t.view.kind = .poundEndif
    · have heats : Eats 0 t.view (require .poundEndif .noEndif) := (Feeds.require rfl).eats
      refine wlp_mono (fun _ u hu hbounded _ _ => ⟨.inr (.inr hend), ?_⟩)
        (wlp_cutting (heats t rfl))
      exact Nat.lt_of_le_of_lt hbounded.within (hu.resolve_right fun hr => hr hbounded.clean)
    · have hmissing : Complains t.view (require .poundEndif .noEndif) := .require hend
      exact wlp_mono (fun _ _ hu hbounded => absurd hbounded.clean hu)
        (wlp_cutting (hmissing t rfl))

/-! ## Items -/

/-- Before a wall, what an item is does not depend on what stands behind the cut. -/
theorem safeAt_declarationOrStatement (hin : c.behind < v.lexemes.length) :
    SafeAt c i (fun _ => 0) (fun _ w => w.Walled c) 0 v (declarationOrStatement scope)
      (declarationOrStatement scope) := by
  refine .view_late ?_ ?_
  · split
    · next hk => exact .mono (fun _ _ _ => trivial) (safeAt_declaration hk)
    · split
      · exact .mono (fun _ _ _ => trivial) (safeAt_statement hin)
      · split
        · exact .complains .recover
        · exact .complains Complains.report.first
  · rintro s t - rfl hlies hspans hbounded hwalled
    have hback : s.view.Walled c := State.walled_back hbounded.within hspans hwalled
    rw [hback.blind hlies.lexemes fun _ _ => Lookahead.blind_declaration?, View.kind_cut hin]

/-- An item that begins before the cut. -/
theorem safeAt_item (hin : c.behind < v.lexemes.length) :
    SafeAt c i (fun _ => 0) (fun _ w => ItemsEnd c w) 0 v (item scope) (item scope) := by
  refine .kind_bind' ?_
  rw [View.kind_cut hin]
  split
  · next h => exact .bump_kind h rfl
  · next h => exact .mono (fun _ _ _ => trivial) (safeAt_directiveBlock h)
  · exact .complains .recover
  · exact .complains .recover
  · exact .complains .recover
  · split
    · exact .mono (fun _ _ hend => hend.1) (safeAt_declarationOrStatement hin)
    · split
      · exact safeAt_switchCase
      · exact .complains .recover

/-- The next item of a list, if there is one. -/
def nextItem (scope : Scope) : Parser Bool := do
  let before ← view
  if before.atEnd || endsItems scope before then pure false
  else
    item scope
    let after ← view
    if after.lexemes.length == before.lexemes.length then recover .strayToken
    pure true

/-- A directive that ends no list of items is reported. -/
theorem complains_item (hk : EndsBranch v.kind) : Complains v (item scope) := by
  rintro s rfl
  refine wlp_kind_bind ?_
  rcases hk with h | h | h <;> rw [h] <;> exact Complains.recover s rfl

/-- On the front part a list of items does not end where it does not end on the text. -/
theorem endsItems_of_cut (hin : c.behind < v.lexemes.length)
    (h : endsItems scope (v.cut c) = true) : endsItems scope v = true := by
  have hopen : decide (0 < (v.cut c).directives) = true → decide (0 < v.directives) = true := by
    intro h
    have hpos : 0 < v.directives - c.outer := of_decide_eq_true h
    exact decide_eq_true (by omega)
  unfold endsItems at h ⊢
  rw [View.kind_cut hin] at h
  split at h
  · rfl
  · exact hopen h
  · exact hopen h
  · exact hopen h
  · exact h
  · exact h
  · have hseen : (v.cut c).kindAt 1 = .ident :=
      eq_of_beq (Bool.and_eq_true_iff.mp (Bool.and_eq_true_iff.mp h).2).1
    rw [View.spellsAt_cut (v.lt_of_kindAt_cut (by rw [hseen]; decide))] at h
    exact h
  · cases h

/-- A list of items that ends before the cut ends on the front part as well. -/
theorem endsItems_cut (hin : c.behind < v.lexemes.length) (hend : ItemsEnd c v)
    (h : endsItems scope v = true) : endsItems scope (v.cut c) = true := by
  have hopen : EndsBranch v.kind → decide (0 < (v.cut c).directives) = true := by
    intro hk
    have houter := hend.2 hk
    have hpos : 0 < v.directives - c.outer := by omega
    exact decide_eq_true hpos
  unfold endsItems at h ⊢
  rw [View.kind_cut hin]
  split at h
  · rfl
  · next hk => exact hopen (.inl hk)
  · next hk => exact hopen (.inr (.inl hk))
  · next hk => exact hopen (.inr (.inr hk))
  · exact h
  · exact h
  · next hk =>
    rw [View.spellsAt_cut' (hend.1.lt_succ hin (by rw [hk]; rfl) (by rw [hk]; rfl))]
    exact h
  · cases h

/-- An item that consumes nothing is set aside. -/
theorem eats_item {before : View} (hv : before = v) : Eats 0 v (do
    item scope
    let after ← view
    if after.lexemes.length == before.lexemes.length then recover .strayToken
    pure true) := by
  rintro s rfl
  refine wlp_bind (wlp_mono (fun _ t ht => wlp_view_bind ?_) (wlp_reaches (item scope) s))
  split
  · have hreported : Complains t.view (recover .strayToken >>= fun _ => pure true) :=
      Complains.recover.first
    exact wlp_mono (fun _ _ hu => .inr hu) (hreported t rfl)
  · next hne =>
    subst hv
    have hle : t.left ≤ s.left := ht.left_le
    have hne' : t.left ≠ s.left := fun heq => hne (beq_iff_eq.mpr heq)
    exact .inl (by omega)

theorem safeAt_nextItem : SafeAt c i (fun _ => 0) (fun _ w => ItemsEnd c w) 0 v (nextItem scope)
    (nextItem scope) := by
  refine .view_bind ?_
  cases hstop : v.atEnd || endsItems scope v with
  | true =>
    -- the list ends here, so what is known of its end is known here
    rw [if_pos rfl]
    refine .late (r := pure false) (Q := fun _ s t => t = s) (.pure (Nat.le_refl 0))
      (fun _ _ _ => rfl) ?_
    rintro s t - rfl hlies rfl - - - hend
    refine if_pos ?_
    by_cases hin : c.behind < t.left
    · rw [View.atEnd_cut hin]
      exact (Bool.or_eq_true _ _).mpr (((Bool.or_eq_true _ _).mp hstop).imp_right
        (endsItems_cut hin hend))
    · rw [View.atEnd, View.kind_cut_end (Nat.le_of_not_lt hin)]
      rfl
  | false =>
    rw [if_neg Bool.false_ne_true]
    obtain ⟨hatEnd, hends⟩ := (Bool.or_eq_false_iff).mp hstop
    refine .eaten (eats_item rfl) fun hin => ?_
    rw [View.atEnd_cut hin, hatEnd, Bool.false_or, if_neg fun h => ?_]
    · refine .bind_of (Y := fun _ w => ItemsEnd c w) (safeAt_item hin) (fun _ w => ?_)
        fun _ t _ => ?_
      · -- whether the item has consumed anything is seen on the front part too
        refine .within fun hle => .view_bind ?_
        split
        · exact .complains Complains.recover.first
        · next hne =>
          rw [if_neg ?_]
          · exact .pure (Nat.le_refl 0)
          · rw [View.length_cut, View.length_cut, beq_iff_eq]
            rw [beq_iff_eq] at hne
            omega
      · refine wlp_view_bind ?_
        split
        · have hreported : Complains t.view (recover .strayToken >>= fun _ => pure true) :=
            Complains.recover.first
          exact wlp_mono (fun _ _ hu hbounded => absurd hbounded.clean hu)
            (wlp_cutting (hreported t rfl))
        · exact fun _ hend _ => hend
    · rw [endsItems_of_cut hin h] at hends
      cases hends

/-- Before an item that ends at a wall stands no directive that could end the list. -/
theorem wlp_nextItem (s : State) : wlp (Cutting c) (nextItem scope) (fun _ t => t.Bounded c i →
    s.Spans c 0 0 t → ItemsEnd c t.view → ItemsEnd c s.view) s := by
  have hbranch : wlp (Cutting c) (nextItem scope)
      (fun _ t => EndsBranch s.view.kind → t.reports ≠ [] ∨ t = s) s := by
    by_cases hk : EndsBranch s.view.kind
    · refine wlp_view_bind ?_
      split
      · exact fun _ => .inr rfl
      · exact wlp_mono (fun _ _ ht _ => .inl ht) (wlp_cutting ((complains_item hk).first s rfl))
    · exact wlp_of_forall (fun _ _ h => absurd h hk) s
  refine wlp_mono (fun _ t ht hbounded hspans hend => ?_) hbranch
  refine ⟨State.walled_back hbounded.within hspans hend.1, fun hk => ?_⟩
  rcases ht hk with hreports | rfl
  · exact absurd hbounded.clean hreports
  · exact hend.2 hk

theorem safeAt_items : SafeAt c i (fun _ => 0) (fun _ w => ItemsEnd c w) 0 v (items scope)
    (items scope) := by
  show SafeAt c i (fun _ => 0) (fun _ w => ItemsEnd c w) 0 v (repeating (nextItem scope))
    (repeating (nextItem scope))
  refine .repeating_of (I := ItemsEnd c) (fun w => .mono (fun b _ hb => ?_) safeAt_nextItem)
    fun s _ => ?_
  · cases b <;> exact hb
  · refine wlp_mono (fun b _ ht hbounded hspans hend => ht hbounded hspans ?_) (wlp_nextItem s)
    cases b <;> exact hend

/-! ## Rules -/

theorem safeAt_body {r : Rule} (hr : SafeBegin r v) :
    SafeAt c i (fun _ => 0) (fun _ w => SafeEnd c r w) 0 v (body r) (body r) := by
  cases r with
  | items scope => exact .bind_pure safeAt_items
  | type => exact safe_typeExpr.safeAt
  | pattern binding => exact safeAt_pattern
  | bindingPattern => exact .bind_pure safe_bindingPattern.safeAt
  | expr place => exact safe_expression.safeAt
  | ifStmt => exact .bind_pure (.node (safeAt_ifBody hr))

/-- The body of every rule does what is known of the rule. -/
theorem wlp_body_cutting (r : Rule) (s : State) : wlp (Cutting c) (body r) (Cutting c r s) s := by
  have hsafe : wlp (Cutting c) (body r) (fun found t => SafeBegin r s.view → s.Lies c →
      t.Bounded c 0 → SafeEnd c r t.view →
        s.Spans c 0 0 t ∧ Repeats c (body r) s found t) s := by
    by_cases hs : SafeBegin r s.view ∧ s.Lies c
    · exact wlp_mono (fun _ _ ht _ _ => ht) (safeAt_body (i := 0) hs.1 s rfl hs.2)
    · exact wlp_of_forall (fun _ _ h hlies => absurd ⟨h, hlies⟩ hs) s
  refine wlp_mono (fun found t ht => ?_)
    (wlp_and (wlp_cutting (wlp_body r s)) (wlp_and (wlp_steps (body r) s) hsafe))
  exact ⟨ht.1, ht.2.1.2, ht.2.2⟩

end Grammar

end SwiftOutline
