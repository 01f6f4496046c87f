/-
  SwiftOutline.Proofs.Progress.Declaration

  Progress of declarations. What follows the attributes and modifiers may begin
  at the end of the text, where looking ahead saw more than was then consumed;
  it is steady there too, because only items may not be followed at once.
-/
import SwiftOutline.Grammar.Declaration
import SwiftOutline.Proofs.Progress.Expression

namespace SwiftOutline

namespace Grammar

open SwiftOutline.Parser

variable {v : View}

/-! ## Types and extensions -/

theorem steady_memberBlock : Steady k memberBlock := by
  refine fun v => .sees_bind ?_
  split
  · next h =>
    refine .node rfl ((bump_of_beq h rfl).then fun _ => ?_)
    exact .bind (steady_follow' rfl) fun _ => steady_require
  · exact steady_report v

/-- Inheritance, requirements and members, which end types and extensions. -/
theorem steady_nominalEnd : Steady 3 (do inheritance; whereRequirements; memberBlock) :=
  .bind steady_inheritance fun _ => .bind steady_whereRequirements fun _ =>
    steady_memberBlock

theorem steady_nominal {k : NodeKind} : Steady 3 (nominal k) := by
  refine .bind steady_bump fun _ => .bind steady_name fun _ => ?_
  refine .sees_bind fun b => ?_
  dsimp only
  split
  · split
    · exact .bind steady_primaryAssociatedTypes fun _ => steady_nominalEnd
    · exact .bind steady_genericParameterClause fun _ => steady_nominalEnd
  · exact steady_nominalEnd

theorem steady_extensionRest : Steady 3 extensionRest :=
  .bind steady_bump fun _ => .bind (steady_follow' rfl) fun _ => steady_nominalEnd

theorem steady_typeInitializer : Steady 3 typeInitializer :=
  .node rfl (.bind steady_bump fun _ => steady_follow' rfl)

theorem steady_typeAlias : Steady 3 typeAlias := by
  refine .bind steady_bump fun _ => .bind steady_name fun _ => ?_
  refine .bind steady_genericParameters fun _ => .sees_bind fun b => ?_
  dsimp only
  split
  · exact .bind steady_typeInitializer fun _ => steady_whereRequirements
  · exact .bind steady_report fun _ => steady_whereRequirements

theorem steady_associatedType : Steady 3 associatedType := by
  refine .bind steady_bump fun _ => .bind steady_name fun _ => ?_
  refine .bind steady_inheritance fun _ => .sees_bind fun _ => ?_
  exact .when (fun _ => steady_typeInitializer) fun _ => steady_whereRequirements

/-! ## Functions -/

theorem atEnd_of_isOperatorLike (h : v.kind.isOperatorLike = true) : v.atEnd = false := by
  cases hend : v.atEnd with
  | false => rfl
  | true =>
    rw [eq_of_beq hend] at h
    exact absurd h (by simp [TokenKind.isOperatorLike])

theorem advances_operatorPart {stops : TokenKind → Bool} :
    Advances k v (fun b => b = true) (operatorPart stops) := by
  refine .view_bind ?_
  split
  · next h =>
    simp only [Bool.and_eq_true, Bool.or_eq_true] at h
    refine (bump_of_not_atEnd ?_).then fun _ => .pure
    rcases h.1.2 with hk | hk
    · exact atEnd_of_isOperatorLike hk
    · exact View.atEnd_of_beq hk rfl
  · exact .pure (by simp)

theorem steady_operatorName {stops : TokenKind → Bool} : Steady k (operatorName stops) :=
  .node rfl (.bind steady_bump fun _ => .repeating fun _ => advances_operatorPart)

theorem steady_functionName : Steady k functionName := by
  refine .kind_bind fun c => ?_
  split
  · exact steady_name
  · split
    · exact steady_operatorName
    · exact steady_report

theorem steady_functionRest : Steady 3 functionRest := by
  refine .bind steady_genericParameters fun _ => .bind steady_functionSignature fun _ => ?_
  exact .bind steady_whereRequirements fun _ => steady_optionalCodeBlock

theorem steady_function : Steady 3 function :=
  .bind steady_bump fun _ => .bind steady_functionName fun _ => steady_functionRest

theorem steady_initializer : Steady 3 initializer :=
  .bind steady_bump fun _ => .view_bind fun _ => .when (fun _ => steady_bump) fun _ =>
    steady_functionRest

theorem steady_deinitializer : Steady 3 deinitializer :=
  .bind steady_bump fun _ => .bind steady_effects fun _ =>
    steady_optionalCodeBlock

theorem steady_subscript : Steady 3 subscript := by
  refine .bind steady_bump fun _ => .bind steady_genericParameters fun _ => ?_
  refine .bind steady_functionSignature fun _ => .bind steady_whereRequirements fun _ => ?_
  refine fun v => .sees_bind ?_
  split
  · next h => exact advances_accessorBlock (View.atEnd_of_beq h rfl)
  · exact .pure id

/-! ## Variables -/

theorem steady_bindingAccessors {initialized : Bool} :
    Steady k (bindingAccessors initialized) := by
  refine fun v => .view_bind ?_
  split
  · next h =>
    rw [Bool.and_eq_true] at h
    exact advances_accessorBlock (View.atEnd_of_beq h.1 rfl)
  · exact .pure id

theorem steady_patternBinding : Steady 3 patternBinding := by
  refine .node rfl (.bind steady_bindingPattern fun _ => ?_)
  refine .bind steady_optionalAscription fun _ => .sees_bind fun b => ?_
  exact .when (fun _ => steady_initializerClause) fun _ => steady_bindingAccessors

/-- The bindings of a variable are one at least. -/
theorem ends_bindings :
    Ends (fun _ t => Tree.Has .patternBinding t.built)
      (separated do
        patternBinding
        pure true) := by
  refine .separated (fun G s => ?_) fun _ => State.has_consume
  exact wlp_andThen (wlp_mono (fun _ _ h => h) (ends_node G s))

theorem steady_bindings : Steady 3 bindings := by
  refine .bind steady_bump fun _ v => .nodeWith ?_ ?_
  · exact Steady.separated (.bind steady_patternBinding fun _ => .pure) v
  · exact fun G s => wlp_mono (fun _ _ h => takes_of_has (by decide) rfl h) (ends_bindings G s)

/-! ## Imports, operators and precedence groups -/

theorem steady_importComponent {p : Problem} : Steady k (importComponent p) := by
  refine .kind_bind fun c => ?_
  split
  · exact .bind steady_bump fun _ => .pure
  · exact .bind steady_report fun _ => .pure

theorem advances_importMember : Advances k v (fun b => b = true) importMember := by
  refine .bind (advances_eat rfl) (fun b => ?_) fun b hb => ?_
  · split
    · exact steady_importComponent
    · exact .pure
  · rw [if_neg hb]
    exact .pure (by simp)

theorem steady_importRest : Steady k importRest := by
  refine .bind steady_bump fun _ => .view_bind fun v => .when (fun _ => steady_bump) fun _ => ?_
  refine .node rfl (.bind steady_importComponent fun _ => .repeating fun _ => ?_)
  exact advances_importMember

theorem advances_commaName : Advances k v (fun b => b = true) commaName := by
  refine .view_bind ?_
  split
  · next h =>
    rw [Bool.and_eq_true] at h
    exact (bump_of_beq h.1 rfl).then fun _ => .bind steady_bump fun _ => .pure
  · exact .pure (by simp)

theorem steady_operatorPrecedence : Steady k operatorPrecedence :=
  .node rfl (.bind steady_bump fun _ => .bind steady_require fun _ =>
    .repeating fun _ => advances_commaName)

theorem steady_operatorRest : Steady k operatorRest := by
  refine .kind_bind fun c => ?_
  split
  · exact steady_operatorPrecedence
  · exact steady_recover
  · exact .pure

theorem steady_operator : Steady k operator := by
  refine .bind steady_bump fun _ => .kind_bind fun c => ?_
  dsimp only
  split
  · exact .bind steady_operatorName fun _ => steady_operatorRest
  · exact .bind steady_report fun _ => steady_operatorRest

theorem advances_groupComma : Advances k v (fun b => b = true) groupComma := by
  refine .view_bind ?_
  split
  · next h =>
    rw [Bool.and_eq_true] at h
    exact (bump_of_beq h.1 rfl).then fun _ => .pure
  · exact .pure (by simp)

/-- A value may be missing, but the comma is consumed in every round but the last. -/
theorem steady_groupValues : Steady k groupValues := by
  have comma : Steady 4 groupComma := fun _ => advances_groupComma.forget
  refine .repeating fun w => .kind_bind ?_
  dsimp only
  split
  · exact (steady_bump w).bind (fun _ => comma) fun _ _ => advances_groupComma
  · exact (steady_bump w).bind (fun _ => comma) fun _ _ => advances_groupComma
  · exact (steady_bump w).bind (fun _ => comma) fun _ _ => advances_groupComma
  · exact advances_groupComma

theorem advances_groupAttribute {R : Unit → Prop} (h : v.atEnd = false) :
    Advances k v R groupAttribute := by
  refine .view_bind ?_
  split
  · refine .node rfl ((bump_of_not_atEnd h).then fun _ => ?_)
    exact .bind steady_bump fun _ => steady_groupValues
  · exact recover_of_not_atEnd h

theorem steady_precedenceGroup : Steady k precedenceGroup := by
  refine .bind steady_bump fun _ => .bind steady_name fun _ => .bind steady_expect fun b => ?_
  split
  · refine .bind (.repeating fun w => .view_bind ?_) fun _ => steady_require
    split
    · exact .pure (by simp)
    · next h =>
      simp only [Bool.or_eq_true, not_or, Bool.not_eq_true] at h
      exact (advances_groupAttribute h.2).then fun _ => .pure
  · exact .pure

/-! ## Cases of enumerations -/

theorem steady_associatedValues : Steady 3 associatedValues := by
  have value : Steady 3 (node .enumCaseParameter do labels; follow' .type; initialValue) :=
    .node rfl (.bind steady_labels fun _ => .bind (steady_follow' rfl) fun _ =>
      steady_initialValue)
  refine .node rfl (.bind steady_bump fun _ => ?_)
  exact .bind (.separatedUntil (.bind value fun _ => .pure)) fun _ => steady_require

theorem steady_enumCaseElements : Steady 3 (separated do
    node .enumCaseElement do
      name
      if ← sees .lParen then associatedValues
      initialValue
    pure true) := by
  have element : Steady 3 (node .enumCaseElement do
      name
      if ← sees .lParen then associatedValues
      initialValue) := by
    refine .node rfl (.bind steady_name fun _ => .sees_bind fun _ => ?_)
    exact .when (fun _ => steady_associatedValues) fun _ => steady_initialValue
  exact .separated (.bind element fun _ => .pure)

theorem advances_enumCases {R : Unit → Prop} (h : v.atEnd = false) :
    Advances 3 v R enumCases :=
  (bump_of_not_atEnd h).then fun _ => steady_enumCaseElements.later

theorem steady_enumCases : Steady 3 enumCases :=
  .bind steady_bump fun _ => steady_enumCaseElements

/-- The cases behind one `case` are one at least. -/
theorem ends_enumCases : Ends (fun _ t => Tree.Has .enumCaseElement t.built) enumCases := by
  refine .bind fun _ => .separated (fun G s => ?_) fun _ => State.has_consume
  exact wlp_andThen (wlp_mono (fun _ _ h => h) (ends_node G s))

/-! ## All declarations -/

theorem steady_declarationRest {k : NodeKind} : Steady 3 (declarationRest k) := by
  unfold declarationRest
  split
  · exact steady_nominal
  · exact steady_nominal
  · exact steady_nominal
  · exact steady_nominal
  · exact steady_nominal
  · exact steady_extensionRest
  · exact steady_function
  · exact steady_initializer
  · exact steady_deinitializer
  · exact steady_subscript
  · exact steady_bindings
  · exact steady_typeAlias
  · exact steady_associatedType
  · exact steady_importRest
  · exact steady_operator
  · exact steady_precedenceGroup
  · exact steady_enumCases
  · exact steady_report

/-- The kinds of declarations that there are can be made of what makes a declaration. -/
theorem ends_declaration {k : NodeKind}
    (hk : k.isPlain = true ∨ k = .variableDecl ∨ k = .enumCaseDecl) :
    Ends (fun _ t => k.Takes t.built)
      (do
        attributes
        modifiers
        declarationRest k) := by
  rcases hk with hk | rfl | rfl
  · exact ends_takes hk
  · -- the list of bindings comes last
    refine .bind fun _ => .bind fun _ => .bind fun _ G s => ?_
    exact wlp_mono (fun _ _ h => takes_of_has (by decide) rfl h) (ends_node G s)
  · refine .bind fun _ => .bind fun _ G s => ?_
    exact wlp_mono (fun _ _ h => takes_of_has (by decide) rfl h) (ends_enumCases G s)

theorem steady_declaration {k : NodeKind}
    (hk : k.isPlain = true ∨ k = .variableDecl ∨ k = .enumCaseDecl) :
    Steady 3 (declaration k) := by
  refine fun v => .nodeWith (Steady.bind steady_attributes (fun _ => ?_) v) (ends_declaration hk)
  exact .bind steady_modifiers fun _ => steady_declarationRest

/-- A `case` is consumed, whatever stands before it. -/
theorem advances_enumCaseDecl {R : Unit → Prop} (h : v.atEnd = false) :
    Advances 3 v R (declaration .enumCaseDecl) := by
  have rest : Steady 4 enumCases := steady_enumCases.later
  refine .nodeWith ((steady_attributes v).bind (fun _ => ?_) fun _ _ => ?_)
    (ends_declaration (.inr (.inr rfl)))
  · exact .bind steady_modifiers fun _ => rest
  · exact (steady_modifiers v).bind (fun _ => rest) fun _ _ => advances_enumCases h

theorem plain_of_declaration? {scope : Scope} {ls : List Lexeme} {k : NodeKind}
    (h : Lookahead.declaration? scope ls = some k) :
    k.isPlain = true ∨ k = .variableDecl ∨ k = .enumCaseDecl := by
  unfold Lookahead.declaration? at h
  dsimp only at h
  split at h <;> try split at h
  all_goals cases h <;>
    first | exact Or.inl rfl | exact Or.inr (Or.inl rfl) | exact Or.inr (Or.inr rfl)

end Grammar

end SwiftOutline
