/-
  SwiftOutline.Proofs.Filled.Signature

  Nodes of generic clauses, signatures, blocks and closures have tokens. A
  parameter alone may have none without any report: before a comma. But then the
  list of parameters ends there, and its missing bracket is reported.
-/
import SwiftOutline.Proofs.Filled.TypeExpr
import SwiftOutline.Proofs.Progress.Signature

namespace SwiftOutline

namespace Grammar

open SwiftOutline.Parser

variable {v : View}

/-! ## Names and values -/

theorem neat_name : Neat name := by
  refine fun v => .sees_bind ?_
  split
  · next h => exact .single rfl (View.atEnd_of_beq h rfl)
  · exact neat_report v

theorem feeds_name : Feeds false v name := by
  refine .sees_bind ?_
  split
  · next h => exact .node (.bump (View.atEnd_of_beq h rfl))
  · exact .report

theorem neat_initializerClause {place : Place} : Neat (initializerClause place) :=
  .introduced rfl rfl

theorem neat_initialValue : Neat initialValue :=
  .ifSees fun v _ => neat_initializerClause v

/-! ## Generics -/

/-- A requirement has a type, at least one that is reported to be missing. -/
theorem neat_requirement : Neat requirement := by
  refine fun v => .bind (.nodeNamed (.inr (.bind fun b => ?_))
    (Neat.bind neat_follow (fun b => ?_) v) (.first (.follow rfl))) fun _ => .pure
  · split
    · refine .bind fun v => ?_
      split
      · refine .bind fun _ => .bind fun w => ?_
        split
        · refine .bind fun _ => .bind fun paren => ?_
          cases paren with
          | true => exact .bind fun _ => .some rfl
          | false => exact .some rfl
        · exact .bind fun _ => .some rfl
      · split
        · exact .bind fun _ => .bind fun _ => .some rfl
        · exact .bind fun _ => .none
    · exact .none
  · split
    · refine .view_bind fun w => ?_
      split
      · refine .bind neat_bump fun _ => .view_bind fun u => ?_
        split
        · refine .bind neat_bump fun _ => .sees_bind fun _ => ?_
          exact .when (fun _ => neat_bumpBalanced) fun _ => .pure
        · exact .bind neat_follow' fun _ => .pure
      · split
        · exact .bind neat_bump fun _ => .bind neat_follow' fun _ => .pure
        · exact .bind neat_report fun _ => .pure
    · exact .pure

theorem neat_whereRequirements : Neat whereRequirements := by
  refine .ifSees fun v hv => .opened rfl (View.atEnd_of_kind hv rfl) fun _ => .separated ?_
  exact .bind neat_requirement fun _ => .pure

theorem neat_genericParameter : Neat genericParameter := by
  have bound : Neat (do if ← eat .colon then follow' .type) := by
    refine .bind neat_eat fun b => ?_
    split
    · exact neat_follow'
    · exact .pure
  -- the name decides: where there is none, that is reported
  refine .node rfl (.bind neat_attributes fun _ => .view_bind fun w => ?_)
    fun _ => .last fun _ _ => .view_bind ?_
  · exact .when (fun _ => neat_bump) fun _ => .bind neat_name fun _ => bound
  · dsimp only
    split
    · exact .last fun _ _ => .first feeds_name
    · exact .first feeds_name

theorem neat_genericParameterClause : Neat genericParameterClause := by
  refine .node rfl (.bind neat_bump fun _ => .bind (.separatedUntil ?_) fun _ => ?_)
    fun _ => .last fun _ _ => .closed rfl
  · exact .bind neat_genericParameter fun _ => .pure
  · exact .bind neat_whereRequirements fun _ => neat_require

theorem neat_genericParameters : Neat genericParameters :=
  .ifSees fun v _ => neat_genericParameterClause v

theorem neat_primaryAssociatedTypes : Neat primaryAssociatedTypes :=
  .listed rfl rfl (.sees_bind fun _ => .bind neat_name fun _ => .pure)

theorem neat_inheritedType : Neat inheritedType := by
  have type : Neat (do if ← sees .kwClass then bump else follow' .type) := by
    refine .sees_bind fun b => ?_
    split
    · exact neat_bump
    · exact neat_follow'
  have hfed : ∀ w, Feeds false w (do if ← sees .kwClass then bump else follow' .type) := by
    refine fun w => .sees_bind ?_
    split
    · next h => exact .bump (View.atEnd_of_beq h rfl)
    · exact .follow' rfl
  refine .node rfl (.view_bind fun w => .when (fun _ => neat_bump) fun _ => type)
    fun w => .view_bind ?_
  dsimp only
  split
  · exact .last fun _ => hfed
  · exact hfed w

theorem neat_inheritance : Neat inheritance := by
  refine .ifSees fun v hv => .opened rfl (View.atEnd_of_kind hv rfl) fun _ => .separated ?_
  exact .bind neat_inheritedType fun _ => .pure

/-! ## Parameters -/

theorem neat_parameterNames : Neat parameterNames := by
  refine .view_bind fun w => ?_
  dsimp only
  split
  · split
    · exact neat_bump
    · split
      · exact .bind neat_bump fun _ => neat_bump
      · split
        · exact neat_bump
        · exact .pure
  · exact .pure

/-- What makes a parameter, its attributes included. -/
def parameterBody : Parser Unit := do
  attributes
  parameterNames
  if ← eat .colon then follow' .type
  else
    match ← kind with
    | .comma | .rParen => pure ()
    | _ => report .noParameterType
  let _ ← eat .ellipsis
  initialValue

theorem neat_parameterBody : Neat parameterBody := by
  have rest : Neat (do let _ ← eat .ellipsis; initialValue) :=
    .bind neat_eat fun _ => neat_initialValue
  refine .bind neat_attributes fun _ => .bind neat_parameterNames fun _ => ?_
  refine .bind neat_eat fun b => ?_
  dsimp only
  split
  · exact .bind neat_follow' fun _ => rest
  · refine .kind_bind fun c => ?_
    split
    · exact rest
    · exact rest
    · exact .bind neat_report fun _ => rest

theorem steady_parameterBody : Steady 4 parameterBody := by
  have rest : Steady 4 (do let _ ← eat .ellipsis; initialValue) :=
    .bind steady_eat fun _ => steady_initialValue.later
  refine .bind steady_attributes fun _ => .bind steady_parameterNames fun _ => ?_
  refine .bind steady_eat fun b => ?_
  dsimp only
  split
  · exact .bind (steady_follow' rfl) fun _ => rest
  · refine .kind_bind fun c => ?_
    split
    · exact rest
    · exact rest
    · exact .bind steady_report fun _ => rest

/-- Before anything else than a comma or a bracket, a parameter consumes or reports. -/
theorem feeds_parameterBody (hcomma : v.kind ≠ .comma) (hparen : v.kind ≠ .rParen) :
    Feeds false v parameterBody := by
  refine .behind steady_attributes fun _ => .behind steady_parameterNames fun _ => ?_
  by_cases hcolon : (v.kind == .colon) = true
  · exact .first (.eat hcolon rfl)
  · refine .eat_bind_not (by simpa using hcolon) (.kind_bind ?_)
    split
    · next h => exact absurd h hcomma
    · next h => exact absurd h hparen
    · exact .first .report

/-- All nodes that introduce declarations have tokens. -/
def Rough (s : State) : Prop := ∀ t ∈ s.built, t.Filled fun k => k.isDeclared = true

theorem rough_of_filled {s : State} (h : s.Filled) : Rough s :=
  fun t ht => (h t ht).mono fun _ => .inl

/-- With a report, no other nodes need tokens. -/
theorem filled_of_rough {s : State} (h : Rough s) (hreports : s.reports ≠ []) : s.Filled :=
  fun t ht => (h t ht).mono fun _ hk => hk.resolve_right fun h' => hreports h'.1

/-- A parameter has tokens, or it has none because nothing has been consumed before a comma. -/
theorem wlp_parameter {s : State} (hs : s.Filled) (hparen : s.view.kind ≠ .rParen) :
    wlp Filling parameter
      (fun _ t => t.Filled ∨ (Rough t ∧ t.view = s.view ∧ s.view.kind = .comma)) s := by
  have hmoves := wlp_of_wp moves_of_filling
    (steady_parameterBody s.view (4 * s.left + 4) (s.start false) rfl (Nat.le_refl _))
  have hneat := neat_parameterBody s.view (s.start false) rfl (hs.start false)
  refine wlp_andThen ?_
  by_cases hcomma : s.view.kind = .comma
  · refine wlp_mono (fun _ t ht => ?_)
      (wlp_and (wlp_reaches parameterBody (s.start false)) (wlp_and hneat hmoves))
    obtain ⟨hreach, hfilled, hmoves⟩ := ht
    -- if nothing has been consumed, the same comma is still ahead
    rcases hmoves.eaten with hlt | ⟨hview, -⟩
    · exact .inl (hs.finish hfilled hreach fun _ _ _ => hlt)
    · refine .inr ⟨fun u hu => ?_, hview, hcomma⟩
      rcases List.mem_cons.mp hu with rfl | hu
      · refine .node (fun h => absurd h (by decide)) fun u hu => ?_
        exact rough_of_filled hfilled u (List.mem_reverse.mp hu)
      · exact rough_of_filled hs u hu
  · have hfed := feeds_parameterBody hcomma hparen (s.start false) rfl
    refine wlp_mono (fun _ t ht => .inl ?_)
      (wlp_and (wlp_reaches parameterBody (s.start false)) (wlp_and hneat hfed))
    refine hs.finish ht.2.1 ht.1 fun k hk hminds => ?_
    obtain rfl := Option.some.inj hk
    exact lt_of_fed (.inr rfl) ht.2.2 hminds

/-- The parameters of a list: behind the last one, a node without tokens can stand before a comma
    only. -/
theorem wlp_parameters {s : State} (hs : s.Filled) :
    wlp Filling
      (separatedUntil .rParen do
        let before ← view
        parameter
        let after ← view
        pure (after.lexemes.length != before.lexemes.length))
      (fun _ t => t.Filled ∨ (Rough t ∧ t.view.kind = .comma)) s := by
  refine wlp_repeating hs fun t ht => ?_
  show wlp Filling (if t.view.kind == .rParen || t.view.atEnd then pure false else _) _ t
  split
  · exact .inl ht
  · next hparen =>
    simp only [Bool.or_eq_true, not_or, beq_iff_eq] at hparen
    refine wlp_andThen (wlp_andThen (p := view) ?_)
    refine wlp_andThen (wlp_mono (fun _ u hu => ?_) (wlp_parameter ht hparen.1))
    show wlp Filling (if (u.view.lexemes.length != t.view.lexemes.length) = true then
      eat .comma else pure false) _ u
    -- only behind a parameter that has consumed something may another one follow
    split
    · next hne =>
      have hfilled : u.Filled := by
        refine hu.resolve_right fun h => ?_
        rw [h.2.1] at hne
        exact absurd hne (by simp)
      refine wlp_mono (fun b w hw => ?_) (neat_eat u.view u rfl hfilled)
      cases b with
      | true => exact hw
      | false => exact .inl hw
    · refine hu.imp_right fun h => ⟨h.1, ?_⟩
      rw [h.2.1]
      exact h.2.2

/-- Where a parameter has no tokens, the bracket behind the list is reported to be missing. -/
theorem neat_parameterClause : Neat parameterClause := by
  refine .node rfl (.bind neat_bump fun _ v s _ hs => ?_)
    fun _ => .closed rfl
  refine wlp_andThen (wlp_mono (fun _ t ht => ?_) (wlp_parameters hs))
  rcases ht with hfilled | ⟨hrough, hcomma⟩
  · exact neat_require t.view t rfl hfilled
  · -- with that report on record, nothing but declarations needs tokens
    refine wlp_require_not (by rw [hcomma]; decide) ?_
    exact filled_of_rough hrough (List.cons_ne_nil _ _)

theorem neat_functionSignature : Neat functionSignature := by
  have result : Neat (do effects; optionalReturnClause) :=
    .bind neat_effects fun _ => neat_optionalReturnClause
  refine .node rfl (.sees_bind fun b => ?_) fun w => .sees_bind ?_
  · dsimp only
    split
    · exact .bind neat_parameterClause fun _ => result
    · exact .bind neat_report fun _ => result
  · dsimp only
    split
    · exact .first (.node (.closed rfl))
    · exact .first .report

/-! ## Code blocks -/

theorem neat_codeBlock : Neat codeBlock := by
  refine fun v => .sees_bind ?_
  split
  · exact Neat.enclosed rfl rfl v
  · exact neat_report v

theorem neat_optionalCodeBlock : Neat optionalCodeBlock :=
  .ifSees fun v _ => neat_codeBlock v

/-! ## Accessors -/

theorem neat_accessorParameter : Neat accessorParameter := by
  refine .ifSees fun v _ => Neat.node rfl ?_ (fun _ => .last fun _ _ => .first (.require rfl)) v
  exact .bind neat_bump fun _ => .bind neat_require fun _ => neat_require

theorem neatAt_accessor (h : v.atEnd = false) : NeatAt v accessor := by
  have rest : Neat (do accessorParameter; effects; optionalCodeBlock) :=
    .bind neat_accessorParameter fun _ => .bind neat_effects fun _ => neat_optionalCodeBlock
  refine .node rfl (Neat.bind neat_attributes (fun _ => ?_) v) ?_
  · exact .bind neat_modifiers fun _ => .bind neat_bump fun _ => rest
  · exact .behind steady_attributes fun _ => .behind steady_modifiers fun _ => .first (.bump h)

theorem neat_accessorBlock : Neat accessorBlock := by
  refine .node rfl (.bind neat_bump fun _ => .view_bind fun w => ?_)
    fun _ => .last fun _ w => .view_bind ?_
  · dsimp only
    split
    · refine .bind (.repeating fun u => .view_bind ?_) fun _ => neat_require
      split
      · exact Neat.pure u
      · next h =>
        simp only [Bool.or_eq_true, not_or, Bool.not_eq_true] at h
        split
        · exact (neatAt_accessor h.2).bind fun _ => .pure
        · split
          · exact Neat.bind neat_recover (fun _ => .pure) u
          · exact Neat.bind neat_recover (fun _ => .pure) u
    · exact .bind neat_follow' fun _ => neat_require
  · dsimp only
    split
    · exact .last fun _ _ => .require rfl
    · exact .last fun _ _ => .require rfl

/-! ## Closures -/

theorem neat_closureSignature : Neat closureSignature := by
  have names : Neat closureNames := by
    refine .repeating (.kind_bind fun c => ?_)
    split
    · exact .bind neat_bump fun _ => neat_eat
    · exact .bind neat_bump fun _ => neat_eat
    · exact .pure
  have result : Neat (do effects; optionalReturnClause; require .kwIn .noClosureIn) :=
    .bind neat_effects fun _ => .bind neat_optionalReturnClause fun _ => neat_require
  have hfed : ∀ w, Feeds false w (do effects; optionalReturnClause; require .kwIn .noClosureIn) :=
    fun _ => .closed rfl
  refine .node rfl (.bind neat_attributes fun _ => .sees_bind fun _ => ?_)
    fun _ => .last fun _ w => .sees_bind ?_
  · refine .when (fun _ => neat_bumpBalanced) fun _ => .sees_bind fun b => ?_
    dsimp only
    split
    · exact .bind neat_parameterClause fun _ => result
    · exact .bind names fun _ => result
  · have hparameters : ∀ u, Feeds false u (do
        if ← sees .lParen then parameterClause else closureNames
        effects
        optionalReturnClause
        require .kwIn .noClosureIn) := by
      refine fun u => .sees_bind ?_
      dsimp only
      split
      · exact .last fun _ => hfed
      · exact .last fun _ => hfed
    dsimp only
    split
    · exact .last fun _ => hparameters
    · exact hparameters w

theorem neat_closure : Neat closure := by
  refine .node rfl (.bind neat_bump fun _ => .view_bind fun w => ?_)
    fun _ => .last fun _ w => .view_bind ?_
  · refine .when (fun _ => neat_closureSignature) fun _ => ?_
    exact .bind neat_follow' fun _ => neat_require
  · dsimp only
    split
    · exact .closed rfl
    · exact .last fun _ _ => .require rfl

theorem neat_trailingClosures : Neat trailingClosures := by
  refine .repeating (.view_bind fun w => ?_)
  split
  · exact .bind neat_bump fun _ => .bind neat_bump fun _ => .bind neat_closure fun _ => .pure
  · exact .pure

end Grammar

end SwiftOutline
