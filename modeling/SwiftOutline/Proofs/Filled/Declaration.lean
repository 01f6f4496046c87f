/-
  SwiftOutline.Proofs.Filled.Declaration

  Nodes of declarations have tokens. A declaration itself has some in every text:
  it consumes its attributes or modifiers, or the word that introduces it.
-/
import SwiftOutline.Proofs.Filled.Expression
import SwiftOutline.Proofs.Progress.Declaration

namespace SwiftOutline

namespace Grammar

open SwiftOutline.Parser

variable {v : View}

/-! ## Types and extensions -/

/-- Inheritance, requirements and members, which end types and extensions. -/
theorem neat_nominalEnd : Neat (do inheritance; whereRequirements; memberBlock) := by
  refine .bind neat_inheritance fun _ => .bind neat_whereRequirements fun _ v => .sees_bind ?_
  split
  · exact Neat.enclosed rfl rfl v
  · exact neat_report v

theorem neat_nominal {k : NodeKind} : Neat (nominal k) := by
  refine .bind neat_bump fun _ => .bind neat_name fun _ => .sees_bind fun b => ?_
  dsimp only
  split
  · split
    · exact .bind neat_primaryAssociatedTypes fun _ => neat_nominalEnd
    · exact .bind neat_genericParameterClause fun _ => neat_nominalEnd
  · exact neat_nominalEnd

theorem neat_typeInitializer : Neat typeInitializer :=
  .introduced rfl rfl

theorem neat_typeAlias : Neat typeAlias := by
  refine .bind neat_bump fun _ => .bind neat_name fun _ => ?_
  refine .bind neat_genericParameters fun _ => .sees_bind fun b => ?_
  dsimp only
  split
  · exact .bind neat_typeInitializer fun _ => neat_whereRequirements
  · exact .bind neat_report fun _ => neat_whereRequirements

theorem neat_associatedType : Neat associatedType := by
  refine .bind neat_bump fun _ => .bind neat_name fun _ => ?_
  refine .bind neat_inheritance fun _ => .sees_bind fun _ => ?_
  exact .when (fun _ => neat_typeInitializer) fun _ => neat_whereRequirements

/-! ## Functions -/

theorem neatAt_operatorName {stops : TokenKind → Bool} (h : v.atEnd = false) :
    NeatAt v (operatorName stops) := by
  refine .opened rfl h fun _ => .repeating (.view_bind fun w => ?_)
  split
  · exact .bind neat_bump fun _ => .pure
  · exact .pure

/-- What an operator begins with is no end of the text. -/
theorem atEnd_of_beginsOperator
    (h : v.kind.isOperatorLike = true ∨ v.kind = .ident ∨ v.kind = .dot) : v.atEnd = false := by
  rcases h with h | h | h
  · exact atEnd_of_isOperatorLike h
  · exact View.atEnd_of_kind h rfl
  · exact View.atEnd_of_kind h rfl

theorem neat_functionRest : Neat functionRest := by
  refine .bind neat_genericParameters fun _ => .bind neat_functionSignature fun _ => ?_
  exact .bind neat_whereRequirements fun _ => neat_optionalCodeBlock

theorem neat_function : Neat function := by
  refine .bind neat_bump fun _ => .bind (fun v => .kind_bind ?_) fun _ => neat_functionRest
  split
  · exact neat_name v
  · split
    · next h =>
      rw [Bool.or_eq_true, beq_iff_eq] at h
      exact neatAt_operatorName (atEnd_of_beginsOperator (h.imp_right .inr))
    · exact neat_report v

theorem neat_initializer : Neat initializer :=
  .bind neat_bump fun _ => .view_bind fun _ => .when (fun _ => neat_bump) fun _ =>
    neat_functionRest

theorem neat_subscript : Neat subscript := by
  refine .bind neat_bump fun _ => .bind neat_genericParameters fun _ => ?_
  refine .bind neat_functionSignature fun _ => .bind neat_whereRequirements fun _ => ?_
  exact .ifSees fun v _ => neat_accessorBlock v

/-! ## Variables -/

theorem neat_patternBinding : Neat patternBinding := by
  refine .node rfl (.bind neat_bindingPattern fun _ => ?_) fun _ => .first feeds_bindingPattern
  refine .bind neat_optionalAscription fun _ => .sees_bind fun b => ?_
  refine .when (fun _ => neat_initializerClause) fun _ => .view_bind fun w => ?_
  split
  · exact neat_accessorBlock
  · exact .pure

theorem neat_bindings : Neat bindings := by
  refine .bind neat_bump fun _ => .node rfl (.separated (.bind neat_patternBinding fun _ => .pure))
    fun _ => .separated (.first (.node (.first feeds_bindingPattern)))

/-! ## Imports, operators and precedence groups -/

theorem feeds_importComponent {problem : Problem} : Feeds false v (importComponent problem) := by
  refine .kind_bind ?_
  split
  · next h =>
    rw [Bool.or_eq_true, beq_iff_eq] at h
    exact .first (.bump (atEnd_of_beginsOperator (h.symm.imp_right .inl)))
  · exact .first .report

theorem neat_importRest : Neat importRest := by
  have component : ∀ problem, Neat (importComponent problem) := by
    refine fun problem => .kind_bind fun c => ?_
    split
    · exact .bind neat_bump fun _ => .pure
    · exact .bind neat_report fun _ => .pure
  have member : Neat importMember := by
    refine .bind neat_eat fun b => ?_
    split
    · exact component .noImportComponent
    · exact .pure
  refine .bind neat_bump fun _ => .view_bind fun _ => .when (fun _ => neat_bump) fun _ => ?_
  refine .node rfl ?_ fun _ => .first feeds_importComponent
  exact .bind (component .noModuleName) fun _ => .repeating member

theorem neat_operatorPrecedence : Neat operatorPrecedence := by
  refine .node rfl (.bind neat_bump fun _ => .bind neat_require fun _ => ?_)
    fun _ => .last fun _ _ => .first (.require rfl)
  refine .repeating (.view_bind fun w => ?_)
  split
  · exact .bind neat_bump fun _ => .bind neat_bump fun _ => .pure
  · exact .pure

theorem neat_operator : Neat operator := by
  have rest : Neat operatorRest := by
    refine .kind_bind fun c => ?_
    split
    · exact neat_operatorPrecedence
    · exact neat_recover
    · exact .pure
  refine .bind neat_bump fun _ v => .kind_bind ?_
  dsimp only
  split
  · next h =>
    simp only [Bool.or_eq_true, beq_iff_eq, or_assoc] at h
    exact (neatAt_operatorName (atEnd_of_beginsOperator h)).bind fun _ => rest
  · exact Neat.bind neat_report (fun _ => rest) v

theorem neat_groupAttribute : Neat groupAttribute := by
  have comma : Neat groupComma := by
    refine .view_bind fun w => ?_
    split
    · exact .bind neat_bump fun _ => .pure
    · exact .pure
  have values : Neat groupValues := by
    refine .repeating (.kind_bind fun c => ?_)
    dsimp only
    split
    · exact .bind neat_bump fun _ => comma
    · exact .bind neat_bump fun _ => comma
    · exact .bind neat_bump fun _ => comma
    · exact comma
  refine fun v => .view_bind ?_
  split
  · next h =>
    rw [Bool.and_eq_true] at h
    exact .opened rfl (View.atEnd_of_beq h.1 rfl) fun _ => .bind neat_bump fun _ => values
  · exact neat_recover v

theorem neat_precedenceGroup : Neat precedenceGroup := by
  refine .bind neat_bump fun _ => .bind neat_name fun _ => .bind neat_expect fun b => ?_
  split
  · refine .bind (.repeating (.view_bind fun w => ?_)) fun _ => neat_require
    split
    · exact .pure
    · exact .bind neat_groupAttribute fun _ => .pure
  · exact .pure

/-! ## Cases of enumerations -/

theorem neat_associatedValues : Neat associatedValues := by
  have value : Neat (node .enumCaseParameter do labels; follow' .type; initialValue) := by
    refine .node rfl (.bind neat_labels fun _ => .bind neat_follow' fun _ => neat_initialValue)
      fun _ => .last fun _ _ => .first (.follow' rfl)
  exact .listed rfl rfl (.bind value fun _ => .pure)

theorem neat_enumCases : Neat enumCases := by
  refine .bind neat_bump fun _ => .separated (.bind (.node rfl ?_ fun _ => .first feeds_name)
    fun _ => .pure)
  refine .bind neat_name fun _ => .sees_bind fun _ => ?_
  exact .when (fun _ => neat_associatedValues) fun _ => neat_initialValue

/-! ## All declarations -/

theorem neat_declarationRest {k : NodeKind} : Neat (declarationRest k) := by
  unfold declarationRest
  split
  · exact neat_nominal
  · exact neat_nominal
  · exact neat_nominal
  · exact neat_nominal
  · exact neat_nominal
  · exact .bind neat_bump fun _ => .bind neat_follow' fun _ => neat_nominalEnd
  · exact neat_function
  · exact neat_initializer
  · exact .bind neat_bump fun _ => .bind neat_effects fun _ => neat_optionalCodeBlock
  · exact neat_subscript
  · exact neat_bindings
  · exact neat_typeAlias
  · exact neat_associatedType
  · exact neat_importRest
  · exact neat_operator
  · exact neat_precedenceGroup
  · exact neat_enumCases
  · exact neat_report

/-- Whether declarations of a kind begin with a word behind their attributes and modifiers. -/
def isWorded (k : NodeKind) : Bool :=
  match k with
  | .classDecl | .structDecl | .enumDecl | .actorDecl | .protocolDecl | .extensionDecl
  | .functionDecl | .initializerDecl | .deinitializerDecl | .subscriptDecl | .variableDecl
  | .typeAliasDecl | .associatedTypeDecl | .importDecl | .operatorDecl | .precedenceGroupDecl
  | .enumCaseDecl => true
  | _ => false

theorem feeds_declarationRest {k : NodeKind} (hk : isWorded k = true) (h : v.atEnd = false) :
    Feeds true v (declarationRest k) := by
  have hbump : ∀ {β : Type} (f : Unit → Parser β), Feeds true v (bump >>= f) :=
    fun _ => .first (.bump h)
  unfold isWorded at hk
  unfold declarationRest
  split at hk
  all_goals first | exact absurd hk Bool.false_ne_true | exact hbump _

/-- Before the end of the text a declaration has tokens: attributes and modifiers may take its word
    away, but then these are consumed. -/
theorem feeds_declarationBody {k : NodeKind} (hk : isWorded k = true) (h : v.atEnd = false) :
    Feeds true v (do
      attributes
      modifiers
      declarationRest k) :=
  .behind steady_attributes fun _ => .behind steady_modifiers fun _ => feeds_declarationRest hk h

theorem neatAt_declaration {k : NodeKind} (hk : isWorded k = true) (h : v.atEnd = false) :
    NeatAt v (declaration k) := by
  refine .nodeWith (.inl rfl) (Neat.bind neat_attributes (fun _ => ?_) v)
    (feeds_declarationBody hk h)
  exact .bind neat_modifiers fun _ => neat_declarationRest

/-- What is found to come next has a word. -/
theorem isWorded_of_declaration? {scope : Scope} {ls : List Lexeme} {k : NodeKind}
    (h : Lookahead.declaration? scope ls = some k) : isWorded k = true := by
  unfold Lookahead.declaration? at h
  dsimp only at h
  split at h <;> try split at h
  all_goals cases h <;> rfl

end Grammar

end SwiftOutline
