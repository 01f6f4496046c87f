/-
  SwiftOutline.Proofs.Parser.Runs

  The programs that make runs of tokens, and those that follow patterns. An
  expression counts what it opens; so does a pattern, and what follows the pattern
  reports the stop at which it may have ended too early.
-/
import SwiftOutline.Proofs.Parser.Balance

namespace SwiftOutline

namespace Grammar

open SwiftOutline.Parser
open SwiftOutline.State (keepingClosed RunsFrom)
open SwiftOutline.Tree (ClosedRun IsApart)
open SwiftOutline.TokenKind (depthBehind? depthBehind?_open depthBehind?_close depthBehind?_plain)

variable {call : Rule → State → Bool × State}

/-! ## What is admitted -/

/-- Everything is admitted but runs of tokens and patterns. -/
def closedForms : Forms where
  node _ k _ := k ≠ .expr
  rule r := ∀ binding, r ≠ .pattern binding

@[simp] theorem node_closedForms {α : Type} {adopt : Bool} {k : NodeKind} {p : Parser α} :
    closedForms.node adopt k p ↔ k ≠ .expr := Iff.rfl

@[simp] theorem rule_closedForms {r : Rule} :
    closedForms.rule r ↔ ∀ binding, r ≠ .pattern binding := Iff.rfl

instance : HasPlain closedForms where
  node _ hk := hk
  argument _ := nofun
  name _ := nofun
  specifiers := nofun
  rule hr _ := hr

instance : HasTypes closedForms where
  type h hk := by subst hk; exact absurd h (by decide)

instance : Adopts closedForms := ⟨trivial⟩

instance : HasBlocks closedForms where
  block := nofun

/-- How rules that have been followed leave runs of tokens. -/
structure RunsKept (call : Rule → State → Bool × State) : Prop where
  leads : ∀ (r : Rule) (s : State), s.Leads (call r s).2
  others : ∀ r, (∀ binding, r ≠ .pattern binding) → ∀ s, keepingClosed.rel s (call r s).2
  patterns : ∀ binding, Halts call (follow (.pattern binding))
  /-- An `if` in an expression is a node. -/
  ifStmt : ∀ s : State, s.Adds IsApart (call .ifStmt s).2

namespace RunsKept

theorem allows (h : RunsKept call) : keepingClosed.Allows call closedForms where
  node hk hbody := keepingClosed.finish hbody fun _ hk' => Option.some.inj hk' ▸ hk
  rule hr := h.others _ hr

variable (h : RunsKept call)

include h

/-- A program that makes no runs itself and follows no patterns. -/
theorem plain {α : Type} {p : Parser α} {P : α → Prop} (hp : Makes closedForms p P) :
    keepingClosed.By call p :=
  h.allows.by hp

/-! ## Expressions -/

omit h in
theorem adds_closure (s : State) : s.Adds IsApart (closure.run call s).2 :=
  Adds.node (fun _ => .node) s

omit h in
theorem adds_trailingClosures (s : State) : s.Adds IsApart (trailingClosures.run call s).2 := by
  refine Adds.repeating (fun s => ?_) s
  rw [run_view_bind, run_ite]
  split
  · next hlabel =>
    simp only [Bool.and_eq_true, Bool.or_eq_true, beq_iff_eq] at hlabel
    obtain ⟨⟨⟨hk, -⟩, hcolon⟩, -⟩ := hlabel
    obtain ⟨hopens, hcloses, hend⟩ : s.view.kind.opensGroup = false ∧
        s.view.kind.closesGroup = false ∧ s.view.atEnd = false := by
      rw [View.atEnd]
      rcases hk with hk | hk <;> rw [hk] <;> decide
    have hnext : s.consume.view.kind = .colon := (State.kind_consume hend).trans hcolon
    have hlabel : s.Adds IsApart s.consume := State.adds_consume_of_kind hopens hcloses
    have hmark : s.consume.Adds IsApart s.consume.consume :=
      State.adds_consume_of_kind (by rw [hnext]; rfl) (by rw [hnext]; rfl)
    have hclosure : s.consume.consume.Adds IsApart (closure.run call s.consume.consume).2 :=
      adds_closure _
    simp only [run_bind, run_bump, run_pure]
    exact (hlabel.trans hmark).trans hclosure
  · exact .refl s

omit h in
/-- A lexeme that is taken into the run. -/
theorem runsFrom_bump {s t : State} {depth : Nat} {r : Run} (ht : s.RunsFrom depth t)
    (hk : depthBehind? depth t.view.kind = some r.depth) :
    s.RunsFrom ((do bump; pure (Step.again r)).run call t).1.outcome.depth
      ((do bump; pure (Step.again r)).run call t).2 :=
  ht.consume hk

omit h in
/-- Something with a structure of its own that is taken into the run. -/
theorem runsFrom_part {s t : State} {r r' : Run} {p : Parser Unit} (ht : s.RunsFrom r.depth t)
    (hp : keepingClosed.By call p) (hadds : t.Adds IsApart (p.run call t).2)
    (hr : r'.depth = r.depth) :
    s.RunsFrom ((do p; pure (Step.again r')).run call t).1.outcome.depth
      ((do p; pure (Step.again r')).run call t).2 := by
  rw [run_bind, run_pure, Step.outcome, hr]
  exact ht.adds (hp t) hadds

/-- Every lexeme of an expression is counted. -/
theorem runsFrom_exprStep (place : Place) {s t : State} {r : Run} (ht : s.RunsFrom r.depth t) :
    s.RunsFrom ((exprStep place r).run call t).1.outcome.depth
      ((exprStep place r).run call t).2 := by
  have plain (hk : depthBehind? r.depth t.view.kind = some r.depth) :
      s.RunsFrom ((plainLexeme t.view r).run call t).1.outcome.depth
        ((plainLexeme t.view r).run call t).2 := runsFrom_bump ht hk
  simp only [exprStep, run_view_bind, run_ite]
  split
  · exact ht
  split
  case h_7 hk => exact runsFrom_bump ht (depthBehind?_open (.inl hk) _)
  case h_8 hk => exact runsFrom_bump ht (depthBehind?_open (.inr hk) _)
  case h_9 hk =>
    split
    · exact ht
    · next hdepth => exact runsFrom_bump ht (depthBehind?_close (.inl hk) (by simpa using hdepth))
  case h_10 hk =>
    split
    · exact ht
    · next hdepth => exact runsFrom_bump ht (depthBehind?_close (.inr hk) (by simpa using hdepth))
  case h_11 hk =>
    split
    · exact ht
    · rw [run_bind]
      refine runsFrom_part (ht.adds ?_ (adds_closure t)) ?_ (adds_trailingClosures _) rfl
      · exact h.plain (P := fun _ => True) (by simp) t
      · exact h.plain (P := fun _ => True) (by simp)
  case h_12 hk =>
    split
    · exact runsFrom_part ht (h.others .ifStmt (by simp)) (h.ifStmt t) rfl
    · exact plain (by rw [hk]; rfl)
  case h_13 hk =>
    split
    · have hswitch : keepingClosed.By call switchExpr :=
        h.plain (P := fun _ => True) (by simp [switchExpr, switchBody])
      exact runsFrom_part ht hswitch (Adds.node (fun _ => .node) t) rfl
    · exact plain (by rw [hk]; rfl)
  case h_14 hk =>
    split
    · exact runsFrom_bump ht (by rw [hk]; rfl)
    · exact plain (by rw [hk]; rfl)
  case h_15 hk =>
    split
    · exact runsFrom_bump ht (by rw [hk]; rfl)
    · exact plain (by rw [hk]; rfl)
  case h_16 _ _ _ _ _ _ hparen hbracket hparen' hbracket' _ _ _ _ _ =>
    exact plain (depthBehind?_plain hparen hbracket hparen' hbracket' _)
  all_goals exact ht

theorem by_expression (place : Place) : keepingClosed.By call (expression place) := by
  have hkind : keepingClosed.By call kind := keepingClosed.refl
  refine hkind.bind fun k => .ite (.bind (fun s => ?_) fun _ => .pure)
    (.bind (keepingClosed.complain · _) fun _ => .pure)
  have hloop := of_runRounds (I := fun (r : Run) t => s.RunsFrom r.depth t)
    (fun r t ht => h.runsFrom_exprStep place ht) ((s.start false).left + 1) (a := {})
    s.runsFrom_start
  rw [run_node, run_loop, run_ite]
  split
  · -- the open groups are reported
    exact nofun
  · next hdepth =>
    rw [Nat.eq_zero_of_not_pos hdepth] at hloop
    exact hloop.finish

/-! ## Runs in patterns -/

theorem left_closure {s : State} (hs : s.view.atEnd = false) :
    (closure.run call s).2.left < s.left := by
  have hbump : (s.start false).consume.left < (s.start false).left := State.left_consume_lt hs
  have hrest := (run_leads h.leads closureRest (s.start false).consume).left_le
  have hinside : ((do bump; closureRest).run call (s.start false)).2.left < s.left :=
    Nat.lt_of_le_of_lt hrest hbump
  rw [closure, run_node]
  exact hinside

/-- What a round of a pattern comes to: its lexemes are counted, and the last round ends outside all
    groups or at a stop. -/
def Counted (s t : State) (o : Step Nat × State) : Prop :=
  s.RunsFrom o.1.outcome o.2 ∧ (o.1.goesOn → o.2.left < t.left) ∧
    (¬ o.1.goesOn → o.1.outcome = 0 ∨ o.2.AtStop)

omit h in
theorem counted_stop {s t : State} {depth : Nat} (ht : s.RunsFrom depth t)
    (h : depth = 0 ∨ t.AtStop) : Counted s t (.stop depth, t) :=
  ⟨ht, nofun, fun _ => h⟩

omit h in
theorem counted_again {s t u : State} {depth : Nat} (hu : s.RunsFrom depth u)
    (h : u.left < t.left) : Counted s t (.again depth, u) :=
  ⟨hu, fun _ => h, fun hnot => absurd trivial hnot⟩

theorem counted_patternToken {s t : State} {depth : Nat} (ht : s.RunsFrom depth t) :
    Counted s t ((patternToken depth).run call t) := by
  have taken {d : Nat} (hend : t.view.atEnd = false)
      (hd : depthBehind? depth t.view.kind = some d) : Counted s t (.again d, t.consume) :=
    counted_again (ht.consume hd) (State.left_consume_lt hend)
  simp only [patternToken, run_view_bind]
  split
  case h_1 hk => exact counted_stop ht (.inr (.inl hk))
  case h_2 hk => exact counted_stop ht (.inr (.inr hk))
  case h_3 hk =>
    split
    · next hdepth => exact counted_stop ht (.inl (eq_of_beq hdepth))
    · have hend : t.view.atEnd = false := by rw [View.atEnd, hk]; rfl
      have hrel := h.plain (P := fun _ => True) (p := closure) (by simp) t
      rw [run_bind, run_pure]
      exact counted_again (ht.adds hrel (adds_closure t)) (h.left_closure hend)
  case h_4 hk =>
    rw [run_bind, run_bump, run_pure]
    exact taken (by rw [View.atEnd, hk]; rfl) (depthBehind?_open (.inl hk) _)
  case h_5 hk =>
    rw [run_bind, run_bump, run_pure]
    exact taken (by rw [View.atEnd, hk]; rfl) (depthBehind?_open (.inr hk) _)
  case h_6 heof _ _ hparen hbracket =>
    split
    · next hends =>
      have hdepth : (depth == 0) = true := (Bool.and_eq_true_iff.mp hends).1
      exact counted_stop ht (.inl (eq_of_beq hdepth))
    · next hends =>
      rw [run_bind, run_bump, run_pure]
      refine taken (beq_false_of_ne heof) ?_
      split
      · next hcloses =>
        have hk : t.view.kind = .rParen ∨ t.view.kind = .rBracket := by simpa using hcloses
        refine depthBehind?_close hk fun hdepth => hends ?_
        -- a closing bracket outside of all groups would end the pattern
        rcases hk with hk | hk <;> rw [hdepth, hk] <;> rfl
      · next hcloses =>
        have hk : t.view.kind ≠ .rParen ∧ t.view.kind ≠ .rBracket := by simpa using hcloses
        exact depthBehind?_plain hparen hbracket hk.1 hk.2 _

/-- The run of a pattern is closed where it ends, unless that is at a stop. -/
theorem finish_patternTokens {s t : State} {adopt : Bool} (ht : s.RunsFrom 0 t) :
    s.ClosesOrStops ((patternTokens.run call t).2.finish s adopt (some .expr)) := by
  obtain ⟨hruns, hends⟩ := ends_of_runRounds
    (I := fun depth t => s.RunsFrom depth t) (J := fun depth t => depth = 0 ∨ t.AtStop)
    (fun depth t ht => h.counted_patternToken ht) (Nat.lt_succ_self t.left) ht
  rw [patternTokens, run_loop]
  rcases hends with hdepth | hstop
  · rw [hdepth] at hruns
    exact State.closesOrStops_of_rel hruns.finish
  · exact fun hr => ⟨(hruns hr).1, fun _ => .inr hstop⟩

/-! ## Patterns -/

/-- A pattern in a list, with its label. -/
theorem halts_labelledPattern {k : NodeKind} (hk : k ≠ .expr) (binding : Bool) :
    Halts call (node k (do patternLabel; follow (.pattern binding))) :=
  .node hk (.bind_of_by (h.plain (P := fun _ => True) (by simp)) fun _ => h.patterns binding)

/-- A list of patterns, which has to be closed. -/
theorem by_patternList {k : NodeKind} (hk : k ≠ .expr) (binding : Bool) (p : Problem) :
    keepingClosed.By call (do
      bump
      separatedUntil .rParen (node k (do patternLabel; follow (.pattern binding)))
      require .rParen p) := by
  refine .bind keepingClosed.consume fun _ => ?_
  refine (Halts.separatedUntil (h.halts_labelledPattern hk binding)).by (fun _ => ?_) fun _ => ?_
  · exact h.plain (P := fun _ => True) (by simp)
  · exact objects_require (by decide) (by decide)

theorem by_tuplePattern (binding : Bool) : keepingClosed.By call (tuplePattern binding) :=
  .node (by decide) (h.by_patternList (by decide) binding _)

theorem by_patternArguments (binding : Bool) : keepingClosed.By call (patternArguments binding) :=
  .node (by decide) (h.by_patternList (by decide) binding _)

theorem by_patternSuffixes (binding : Bool) : keepingClosed.By call (patternSuffixes binding) := by
  have hview : keepingClosed.By call view := keepingClosed.refl
  refine .repeating (hview.bind fun v => .ite (.bind ?_ fun _ => .pure) (.ite ?_ .pure))
  · exact h.plain (P := fun _ => True) (by simp +decide)
  · exact .bind (.wrap (by decide) (h.by_patternArguments binding)) fun _ => .pure

theorem by_patternPrimary (binding : Bool) : keepingClosed.By call (patternPrimary binding) := by
  have hview : keepingClosed.By call view := keepingClosed.refl
  have hsuffixes : keepingClosed.By call (do patternSuffixes binding; pure true) :=
    .bind (h.by_patternSuffixes binding) fun _ => .pure
  refine hview.bind fun v => .ite ?_ (.ite ?_ (.ite (.bind ?_ fun _ => hsuffixes) ?_))
  · exact h.plain (P := fun _ => True) (by simp +decide)
  · exact h.plain (P := fun _ => True) (by simp +decide)
  · exact h.plain (P := fun _ => True) (by simp +decide)
  · split
    · exact .bind (h.plain (P := fun _ => True) (by simp +decide)) fun _ => hsuffixes
    · exact .bind (h.plain (P := fun _ => True) (by simp +decide)) fun _ => hsuffixes
    · exact .bind (h.plain (P := fun _ => True) (by simp +decide)) fun _ => hsuffixes
    · exact .bind (h.plain (P := fun _ => True) (by simp +decide)) fun _ => hsuffixes
    · exact .pure

omit h in
theorem nodeOnTop_patternSuffixes (binding : Bool) {s : State} (hs : s.NodeOnTop) :
    ((patternSuffixes binding).run call s).2.NodeOnTop := by
  rw [patternSuffixes, run_repeating]
  refine of_roundsOf (I := State.NodeOnTop) (J := State.NodeOnTop) (fun t ht => ?_)
    (fun _ => id) s.left hs
  simp only [run_view_bind, run_ite]
  split
  · exact ⟨_, _, _, rfl⟩
  · split
    · exact ⟨_, _, _, rfl⟩
    · exact ht

omit h in
/-- What an expression pattern begins with is a node. -/
theorem nodeOnTop_patternPrimary (binding : Bool) {s : State} :
    ((patternPrimary binding).run call s).1 = true →
      ((patternPrimary binding).run call s).2.NodeOnTop := by
  have suffixed {k : NodeKind} {p : Parser Unit} :
      ((do node k p; patternSuffixes binding; pure true).run call s).2.NodeOnTop := by
    rw [run_bind, run_bind, run_pure, run_node]
    exact nodeOnTop_patternSuffixes binding ⟨_, _, _, rfl⟩
  simp only [patternPrimary, run_view_bind, run_ite]
  split
  · exact fun _ => ⟨_, _, _, rfl⟩
  split
  · exact fun _ => ⟨_, _, _, rfl⟩
  split
  · exact fun _ => suffixed
  split
  iterate 4 exact fun _ => suffixed
  · exact fun h => absurd h Bool.false_ne_true

/-- A run of a pattern, made of what comes next and, if `adopt`, of the node before it. -/
theorem halts_patternRun (adopt : Bool) {s : State} (hs : adopt = true → s.NodeOnTop) :
    s.ClosesOrStops ((if adopt then wrap .expr patternTokens
      else node .expr patternTokens).run call s).2 := by
  cases adopt with
  | true =>
    obtain ⟨k, children, before, hbuilt⟩ := hs rfl
    rw [if_pos rfl, run_wrap]
    exact h.finish_patternTokens (State.runsFrom_start_adopt hbuilt)
  | false =>
    rw [if_neg Bool.false_ne_true, run_node]
    exact h.finish_patternTokens s.runsFrom_start

theorem halts_expressionPattern (binding : Bool) : Halts call (expressionPattern binding) := by
  intro s
  rw [expressionPattern, run_kind_bind, run_ite]
  split
  · exact State.closesOrStops_of_rel (keepingClosed.complain s _)
  refine Halts.bind (p := node .expressionPattern _) (.node (by decide) fun s => ?_)
    (fun _ => .of_by .pure) (fun _ => idles_pure.waits) s
  rw [run_bind]
  refine .of_rel (h.by_patternPrimary binding s) ?_
  rw [run_kind_bind, run_ite]
  split
  · exact State.closesOrStops_of_rel (keepingClosed.refl _)
  · exact h.halts_patternRun _ (nodeOnTop_patternPrimary binding)

theorem halts_primaryPattern (binding : Bool) : Halts call (primaryPattern binding) := by
  have hexpression := h.halts_expressionPattern binding
  have plain {p : Parser Bool} (hp : Makes closedForms p fun _ => True) : Halts call p :=
    .of_by (h.plain hp)
  have hbound : Halts call (do
      node .valueBindingPattern (do bump; follow' (.pattern true))
      pure true) := by
    refine .bind (.node (by decide) (.bind_of_by keepingClosed.consume fun _ => ?_))
      (fun _ => .of_by .pure) fun _ => idles_pure.waits
    exact h.patterns true
  refine .bind_of_by (p := view) keepingClosed.refl fun v => ?_
  split
  · exact hbound
  · exact hbound
  · exact plain (by simp +decide)
  · exact .of_by (.bind (h.by_tuplePattern binding) fun _ => .pure)
  · exact .ite (plain (by simp +decide)) hexpression
  · exact .ite (plain (by simp +decide)) hexpression
  · exact hexpression

theorem halts_pattern (binding : Bool) : Halts call (pattern binding) := by
  have hcast : keepingClosed.By call (do
      if ← sees .kwAs then wrap .asPattern (do bump; follow' .type)
      pure true) := h.plain (P := fun _ => True) (by simp +decide)
  refine .bind (h.halts_primaryPattern binding) (fun found => .ite (.of_by hcast) (.of_by .pure))
    fun found => ?_
  cases found with
  | false => exact idles_pure.waits
  | true =>
    refine Idles.waits (a := true) fun s hs => ?_
    rw [if_pos rfl, run_sees_bind, hs.kind_ne (by decide) (by decide)]
    rfl

/-! ## Statements with patterns -/

omit h in
theorem idles_optionalAscription : Idles call optionalAscription () := by
  intro s hs
  rw [optionalAscription, run_sees_bind, hs.kind_ne (by decide) (by decide)]
  rfl

omit h in
theorem objects_codeBlock : Objects call codeBlock := by
  intro s hs
  rw [codeBlock, run_sees_bind, hs.kind_ne (by decide) (by decide)]
  exact List.cons_ne_nil _ _

theorem halts_patternCondition (required : Bool) : Halts call (patternCondition required) := by
  have hrest : keepingClosed.By call (do optionalAscription; conditionValue required) :=
    h.plain (P := fun _ => True) (by simp [conditionValue])
  refine .bind (h.patterns false) (fun _ => .of_by hrest) fun _ => ?_
  refine idles_optionalAscription.bind_waits fun s hs => ?_
  rw [conditionValue, run_sees_bind, hs.kind_ne (by decide) (by decide)]
  cases required with
  | true => exact fun h => absurd h (List.cons_ne_nil _ _)
  | false => exact fun _ => hs

theorem halts_conditions : Halts call conditions := by
  have hkind : keepingClosed.By call kind := keepingClosed.refl
  refine .separated (.bind (.node (by decide) (.bind_of_by hkind fun k => ?_))
    (fun _ => .of_by .pure) fun _ => idles_pure.waits)
  split
  · exact h.halts_patternCondition false
  · exact h.halts_patternCondition false
  · exact .bind_of_by keepingClosed.consume fun _ => h.halts_patternCondition true
  · exact .of_by (h.plain (P := fun _ => True) (by simp))

theorem by_ifBody : keepingClosed.By call ifBody := by
  refine .bind keepingClosed.consume fun _ => h.halts_conditions.by (fun _ => ?_) fun _ => ?_
  · exact h.plain (P := fun _ => True) (by simp [elseBranch])
  · exact objects_codeBlock.bind fun _ => h.plain (P := fun _ => True) (by simp [elseBranch])

theorem by_guardBody : keepingClosed.By call guardBody := by
  refine .bind keepingClosed.consume fun _ => h.halts_conditions.by (fun _ => ?_) fun _ => ?_
  · exact h.plain (P := fun _ => True) (by simp)
  · exact (objects_require (by decide) (by decide)).bind fun _ =>
      h.plain (P := fun _ => True) (by simp)

theorem by_whileBody : keepingClosed.By call whileBody := by
  refine .bind keepingClosed.consume fun _ => h.halts_conditions.by (fun _ => ?_) fun _ => ?_
  · exact h.plain (P := fun _ => True) (by simp)
  · exact objects_codeBlock

theorem by_forBody : keepingClosed.By call forBody := by
  have hin : keepingClosed.By call (do
      if ← expect .kwIn .noForIn then follow' (.expr .condition)
      optionalWhereClause
      codeBlock) := h.plain (P := fun _ => True) (by simp)
  have hin' : Objects call (do
      if ← expect .kwIn .noForIn then follow' (.expr .condition)
      optionalWhereClause
      codeBlock) :=
    (objects_expect (by decide) (by decide)).bind fun _ => h.plain (P := fun _ => True) (by simp)
  have hpattern : keepingClosed.By call (do
      let matching ← eat .kwCase
      let _ ← follow (.pattern (!matching))
      optionalAscription
      if ← expect .kwIn .noForIn then follow' (.expr .condition)
      optionalWhereClause
      codeBlock) := by
    refine .bind (h.plain (P := fun _ => True) (by simp)) fun matching => ?_
    refine (h.patterns _).by (fun _ => ?_) fun _ => idles_optionalAscription.bind_objects hin'
    exact .bind (h.plain (P := fun _ => True) (by simp)) fun _ => hin
  refine .bind keepingClosed.consume fun _ => ?_
  refine .bind (h.plain (P := fun _ => True) (by simp)) fun _ => ?_
  refine .bind (p := view) keepingClosed.refl fun v => ?_
  exact .ite (.bind keepingClosed.consume fun _ => hpattern) hpattern

theorem halts_caseItems : Halts call caseItems := by
  refine .separated (.bind (.node (by decide) (.bind (h.patterns false) (fun _ => .of_by ?_)
    fun _ => ?_)) (fun _ => .of_by .pure) fun _ => idles_pure.waits)
  · exact h.plain (P := fun _ => True) (by simp)
  · refine Idles.waits (a := ()) fun s hs => ?_
    rw [optionalWhereClause, run_sees_bind, hs.kind_ne (by decide) (by decide)]
    rfl

theorem by_doBody : keepingClosed.By call doBody := by
  have plain {p : Parser Unit} (hp : Makes closedForms p fun _ => True) : keepingClosed.By call p :=
    h.plain hp
  have hsees {k : TokenKind} : keepingClosed.By call (sees k) := keepingClosed.refl
  have hcatch : keepingClosed.By call (node .catchClause do
      bump
      unless ← sees .lBrace do caseItems
      codeBlock) := by
    refine .node (by decide) (.bind keepingClosed.consume fun _ => hsees.bind fun _ => ?_)
    exact .ite (plain (by simp)) (h.halts_caseItems.by (fun _ => plain (by simp))
      fun _ => objects_codeBlock)
  refine .bind keepingClosed.consume fun _ => ?_
  refine .bind (plain (by simp)) fun _ => .bind (plain (by simp)) fun _ => ?_
  exact .repeating (hsees.bind fun _ => .ite (.bind hcatch fun _ => .pure) .pure)

theorem by_switchCase : keepingClosed.By call switchCase := by
  have plain {p : Parser Unit} (hp : Makes closedForms p fun _ => True) : keepingClosed.By call p :=
    h.plain hp
  have hkind : keepingClosed.By call kind := keepingClosed.refl
  have hlabel : keepingClosed.By call (node .switchCaseLabel do
      bump
      caseItems
      require .colon .noCaseColon) := by
    refine .node (by decide) (.bind keepingClosed.consume fun _ => ?_)
    exact h.halts_caseItems.by (fun _ => plain (by simp))
      fun _ => objects_require (by decide) (by decide)
  refine .node (by decide) (.bind (plain (by simp)) fun _ => hkind.bind fun k => ?_)
  split
  · exact .bind hlabel fun _ => plain (by simp)
  · exact plain (by simp +decide)
  · exact plain (by simp)

theorem by_statementBody : keepingClosed.By call statementBody := by
  have plain {p : Parser (Option NodeKind)} (hp : Makes closedForms p fun _ => True) :
      keepingClosed.By call p := h.plain hp
  refine .bind (p := kind) keepingClosed.refl fun k => ?_
  split
  · exact .bind h.by_ifBody fun _ => .pure
  · exact .bind h.by_guardBody fun _ => .pure
  · exact .bind h.by_whileBody fun _ => .pure
  · exact plain (by simp [repeatBody])
  · exact .bind h.by_forBody fun _ => .pure
  · exact .bind h.by_doBody fun _ => .pure
  · exact plain (by simp [switchBody])
  all_goals exact plain (by simp [returnBody, jumpBody])

omit h in
/-- A statement is no run itself. -/
theorem ne_expr_of_statementBody (s : State) {k : NodeKind} :
    (statementBody.run call s).1 = some k → k ≠ .expr := by
  simp only [statementBody, run_kind_bind]
  split
  case h_14 =>
    rw [run_ite]
    split
    · rw [run_bind, run_pure]
      exact fun hk => Option.some.inj hk ▸ (by decide)
    · exact fun h => absurd h (by simp)
  all_goals
    simp only [run_bind, run_pure, Option.some.injEq]
    rintro rfl
    decide

theorem by_statement : keepingClosed.By call statement := by
  have plain {p : Parser Unit} (hp : Makes closedForms p fun _ => True) : keepingClosed.By call p :=
    h.plain hp
  have hlabelled : keepingClosed.By call (do
      if atStatementLabel (← view) then
        bump
        bump
      statementBody) := by
    refine .bind (p := view) keepingClosed.refl fun v => .ite ?_ h.by_statementBody
    refine .bind keepingClosed.consume fun _ => .bind keepingClosed.consume fun _ => ?_
    exact h.by_statementBody
  refine .bind (p := kind) keepingClosed.refl fun k => .ite ?_ (.ite ?_ ?_)
  · exact plain (by simp +decide [declaration])
  · exact plain (by simp +decide)
  · refine .bind (fun s => ?_) fun found => .ite .pure (plain (by simp +decide))
    rw [run_node?]
    refine keepingClosed.finish (hlabelled _) fun k hk => ?_
    rw [run_view_bind, run_ite] at hk
    split at hk
    · rw [run_bind, run_bind] at hk
      exact ne_expr_of_statementBody _ hk
    · exact ne_expr_of_statementBody _ hk

theorem by_declarationOrStatement (scope : Scope) :
    keepingClosed.By call (declarationOrStatement scope) := by
  have plain {p : Parser Unit} (hp : Makes closedForms p fun _ => True) : keepingClosed.By call p :=
    h.plain hp
  refine .bind (p := view) keepingClosed.refl fun v => ?_
  split
  · next k hk =>
    have hne : k ≠ .expr := by
      simpa using holds_of_declaration? hk (p := (· != .expr)) (by decide)
    exact plain (by simp [declaration, hne])
  · refine .ite h.by_statement (.ite (plain (by simp +decide)) ?_)
    exact .bind (plain (by simp)) fun _ => .node (by decide) h.by_statement

theorem by_body {r : Rule} (hr : ∀ binding, r ≠ .pattern binding) :
    keepingClosed.By call (body r) := by
  have plain {α : Type} {p : Parser α} (hp : Makes closedForms p fun _ => True) :
      keepingClosed.By call p := h.plain hp
  cases r with
  | items scope =>
    refine .bind (by_items (fun p => ?_) (fun s _ => ?_) (fun _ => ?_) fun _ => ?_) fun _ => .pure
    · exact plain (by simp +decide)
    · exact plain (by
        simp +decide [directiveBlock, directiveBranch]
        intro v
        split <;> simp) s
    · exact h.by_switchCase
    · exact h.by_declarationOrStatement scope
  | pattern binding => exact absurd rfl (hr binding)
  | expr place => exact h.by_expression place
  | ifStmt => exact .bind (.node (by decide) h.by_ifBody) fun _ => .pure
  | type => exact plain (by simp [body])
  | bindingPattern => exact plain (by simp [body])

end RunsKept

/-- The rules of the grammar leave runs of tokens so. -/
theorem runsKept_runRule (depth : Nat) : RunsKept (runRule depth) := by
  induction depth with
  | zero =>
    exact ⟨runRule_leads 0, fun _ _ => keepingClosed.refl,
      fun _ => .of_by keepingClosed.refl, State.Adds.refl⟩
  | succ depth ih =>
    exact ⟨runRule_leads (depth + 1), fun _ hr => ih.by_body hr, ih.halts_pattern,
      Adds.bind (Adds.node fun _ => .node) fun _ => .pure⟩

/-- Unless a problem was found, no run leaves a group open. -/
theorem closed_parseLexemes {lexemes : List Lexeme} {endGap : Gap}
    (h : (parseLexemes lexemes endGap).reports = []) :
    (parseLexemes lexemes endGap).Everywhere ClosedRun := by
  have hfile : keepingClosed.By (runRule (depthBound lexemes.length)) file :=
    (runsKept_runRule _).plain (P := fun _ => True) (by simp)
  rw [parseLexemes] at h ⊢
  exact (hfile _ h).2 fun x hx => absurd hx List.not_mem_nil

end Grammar

/-- In the tree of a text without problems the parentheses and square brackets directly in a run of
    tokens are balanced, whether the run is an expression or belongs to a pattern. -/
theorem runs_balanced (source : String) (hok : (parse source).ok = true) :
    ∀ c ∈ (Cursor.ofTree (parse source).tree).nodes, c.isKind .expr = true →
      TokenKind.Balanced (Tree.tokenKinds c.tree.children) := by
  intro c hc hk
  have hclosed : (parse source).tree.Everywhere Tree.ClosedRun := by
    refine everywhere_parse (fun k children (h : Tree.ClosedRun k _) hk => ?_) (fun _ => nofun)
      (Grammar.closed_parseLexemes (reports_of_ok hok))
    rw [← Tree.groupDepth?_forestWithoutTrivia]
    exact h hk
  have hdepth := hclosed.here_of_within (Cursor.Within.root.of_mem_nodes hc) (eq_of_beq hk) rfl
  exact .of_foldlM hdepth

/-- The subject of a `switch`, the pattern of its case and the statement behind that have runs. -/
theorem runs_balanced_switch :
    (parse "switch f(x[0]) \x7b case g(1)+(h[2]): a() \x7d").ok = true ∧
      ((Cursor.ofTree (parse "switch f(x[0]) \x7b case g(1)+(h[2]): a() \x7d").tree).nodes.filter
          fun c => c.isKind .expr).map (fun c => Tree.tokenKinds c.tree.children) =
        [[.ident, .lParen, .ident, .lBracket, .intLiteral, .rBracket, .rParen],
          [.operator, .lParen, .ident, .lBracket, .intLiteral, .rBracket, .rParen],
          [.ident, .lParen, .rParen]] ∧
      ∀ c ∈ (Cursor.ofTree (parse "switch f(x[0]) \x7b case g(1)+(h[2]): a() \x7d").tree).nodes,
        c.isKind .expr = true → TokenKind.Balanced (Tree.tokenKinds c.tree.children) := by
  have hok : (parse "switch f(x[0]) \x7b case g(1)+(h[2]): a() \x7d").ok = true := by decide +kernel
  exact ⟨hok, by decide +kernel, runs_balanced _ hok⟩

end SwiftOutline
