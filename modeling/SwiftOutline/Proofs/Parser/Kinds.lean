/-
  SwiftOutline.Proofs.Parser.Kinds

  Which kinds of nodes the programs of the grammar make. Types and the elements
  of tuple types are made by the rule for types and by nothing else, and member
  blocks where a body of members begins. All other kinds are ordinary, and all
  other programs make ordinary nodes only.
-/
import SwiftOutline.Grammar.Item
import SwiftOutline.Proofs.Parser.Makes

namespace SwiftOutline

namespace NodeKind

/-- Whether nodes of a kind are neither types, nor elements of tuple types, nor member blocks. -/
def isOrdinary (k : NodeKind) : Bool := !k.isType && k != .tupleTypeElement && k != .memberBlock

/-- Whether a kind is one of those that `S` tells. -/
def Among (S : NodeKind → Bool) (k : NodeKind) : Prop := S k = true

instance (S : NodeKind → Bool) (k : NodeKind) : Decidable (k.Among S) :=
  inferInstanceAs (Decidable (S k = true))

/-- All ordinary kinds are among those that `S` tells. -/
class HasOrdinary (S : NodeKind → Bool) : Prop where
  among : ∀ {k : NodeKind}, k.isOrdinary = true → k.Among S

attribute [simp] HasOrdinary.among

instance : HasOrdinary isOrdinary := ⟨id⟩

/-- Whether nodes of a kind are made where items begin: declarations, `switch` with its sections
    and conditional compilation with its branches. -/
def isItem : NodeKind → Bool
  | .classDecl | .structDecl | .enumDecl | .actorDecl | .protocolDecl | .extensionDecl
  | .functionDecl | .initializerDecl | .deinitializerDecl | .subscriptDecl | .variableDecl
  | .typeAliasDecl | .importDecl | .operatorDecl | .precedenceGroupDecl | .switchExpr
  | .switchCase | .ifConfigDecl | .ifConfigClause => true
  | _ => false

/-- Whether nodes of a kind are ordinary and made inside items, arguments of attributes, declared
    names and effect specifiers apart. -/
def isInner (k : NodeKind) : Bool :=
  k.isOrdinary && !k.isItem && k != .attributeArgument && k != .declaredName
    && k != .effectSpecifiers

end NodeKind

/-- What declared names are made of: an identifier, or an operator. -/
inductive Grammar.IsName : Parser Unit → Prop where
  | word : IsName Parser.bump
  | operator (stops : TokenKind → Bool) :
      IsName (do Parser.bump; Parser.repeating (operatorPart stops))

namespace Grammar

open SwiftOutline.Parser

/-- One effect specifier; tells whether there is one. -/
def effectRound : Parser Bool := do
  let ls := (← view).lexemes
  if Lookahead.atEffect ls then
    bump
    if Lookahead.atThrows ls then
      if ← seesJoined .lParen then
        bump
        follow' .type
        require .rParen .openThrownType
    pure true
  else
    pure false

theorem effectSpecifiers_eq : effectSpecifiers = node .effectSpecifiers (repeating effectRound) :=
  rfl

end Grammar

namespace Parser

/-! ## Forms that admit much -/

/-- What is needed inside items where neither runs of tokens nor patterns of `case` stand: ordinary
    nodes but expressions, arguments of attributes without any nodes inside, names, effect
    specifiers, and all rules but those for patterns and for the sections of a `switch`. -/
class HasPlain (F : Forms) : Prop where
  node : ∀ {α : Type} {adopt : Bool} {k : NodeKind} {p : Parser α}, k.isInner = true → k ≠ .expr →
    F.node adopt k p
  argument : ∀ {p : Parser Unit}, Makes .bare p (fun _ => True) →
    F.node false .attributeArgument (do let a ← p; pure (a, some NodeKind.attributeArgument))
  name : ∀ {p : Parser Unit}, Grammar.IsName p →
    F.node false .declaredName (do let a ← p; pure (a, some NodeKind.declaredName))
  specifiers : F.node false .effectSpecifiers
    (do let a ← repeating Grammar.effectRound; pure (a, some NodeKind.effectSpecifiers))
  rule : ∀ {r : Rule}, (∀ binding, r ≠ .pattern binding) → r ≠ .items .switchCases → F.rule r

/-- What is needed inside items: ordinary nodes, arguments of attributes without any nodes inside,
    names, effect specifiers, and all rules but that for the sections of a `switch`. -/
class HasInner (F : Forms) : Prop where
  node : ∀ {α : Type} {adopt : Bool} {k : NodeKind} {p : Parser α}, k.isInner = true →
    F.node adopt k p
  argument : ∀ {p : Parser Unit}, Makes .bare p (fun _ => True) →
    F.node false .attributeArgument (do let a ← p; pure (a, some NodeKind.attributeArgument))
  name : ∀ {p : Parser Unit}, Grammar.IsName p →
    F.node false .declaredName (do let a ← p; pure (a, some NodeKind.declaredName))
  specifiers : F.node false .effectSpecifiers
    (do let a ← repeating Grammar.effectRound; pure (a, some NodeKind.effectSpecifiers))
  rule : ∀ {r : Rule}, r ≠ .items .switchCases → F.rule r

instance {F : Forms} [HasInner F] : HasPlain F where
  node h _ := HasInner.node h
  argument := HasInner.argument
  name := HasInner.name
  specifiers := HasInner.specifiers
  rule _ := HasInner.rule

/-- What is needed for items: all ordinary nodes and all rules. -/
class HasItems (F : Forms) : Prop extends HasInner F where
  item : ∀ {α : Type} {adopt : Bool} {k : NodeKind} {p : Parser α}, k.isItem = true →
    F.node adopt k p
  cases : F.rule (.items .switchCases)

/-- What is needed for types. -/
class HasTypes (F : Forms) : Prop where
  type : ∀ {α : Type} {adopt : Bool} {k : NodeKind} {p : Parser α},
    (k.isType || k == .tupleTypeElement) = true → F.node adopt k p

/-- What is needed for the members of a type. -/
class HasBlocks (F : Forms) : Prop where
  block : ∀ {α : Type} {adopt : Bool} {p : Parser α}, F.node adopt .memberBlock p

attribute [simp ↓] HasPlain.node HasInner.node HasItems.item HasTypes.type HasBlocks.block

attribute [simp] HasPlain.rule HasInner.rule

@[simp] theorem HasItems.rules {F : Forms} [HasItems F] (r : Rule) : F.rule r := by
  by_cases h : r = .items .switchCases
  · exact h ▸ HasItems.cases
  · exact HasInner.rule h

instance {S : NodeKind → Bool} [NodeKind.HasOrdinary S] :
    HasItems (Forms.of (NodeKind.Among S)) where
  node h := by
    simp only [NodeKind.isInner, Bool.and_eq_true] at h
    exact NodeKind.HasOrdinary.among h.1.1.1.1
  argument _ := NodeKind.HasOrdinary.among rfl
  name _ := NodeKind.HasOrdinary.among rfl
  specifiers := NodeKind.HasOrdinary.among rfl
  rule _ := trivial
  item {_ _ k _} h := NodeKind.HasOrdinary.among (by cases k <;> first | rfl | exact h)
  cases := trivial

end Parser

namespace Grammar

open SwiftOutline.Parser

open NodeKind (Among HasOrdinary isOrdinary)

variable {F : Forms} {P : Unit → Prop}

section Plain

variable [HasPlain F]

/-! ## Attributes and modifiers -/

@[simp] theorem makes_genericArguments : Makes F genericArguments P ↔ P () :=
  makes_unit_iff (by simp +decide [genericArguments])

omit [HasPlain F] in
@[simp] theorem makes_attributeArgumentPart :
    Makes F attributeArgumentPart fun _ => True := by
  simp only [attributeArgumentPart, makes_bind, makes_kind]
  intro v
  split <;> simp

@[simp] theorem makes_attributeArgument : Makes F attributeArgument P ↔ P () := by
  refine makes_unit_iff ?_
  rw [attributeArgument, makes_node]
  refine ⟨?_, fun _ => trivial⟩
  exact Makes.mono (P := fun _ => True) (by simp) fun _ _ => HasPlain.argument (by simp)

@[simp] theorem makes_attributeArguments : Makes F attributeArguments P ↔ P () :=
  makes_unit_iff (by simp +decide [attributeArguments])

@[simp] theorem makes_attributeUse : Makes F attributeUse P ↔ P () :=
  makes_unit_iff (by simp +decide [attributeUse, attributeMember, joinedGenericArguments,
    joinedAttributeArguments])

@[simp] theorem makes_attributes : Makes F attributes P ↔ P () :=
  makes_unit_iff (by simp +decide [attributes, nextAttribute])

@[simp] theorem makes_modifier : Makes F modifier P ↔ P () :=
  makes_unit_iff (by simp +decide [modifier])

@[simp] theorem makes_modifiers : Makes F modifiers P ↔ P () :=
  makes_unit_iff (by simp +decide [modifiers, nextModifier])

/-! ## Signatures -/

@[simp] theorem makes_effectSpecifiers : Makes F effectSpecifiers P ↔ P () :=
  makes_unit_iff (by simpa [effectSpecifiers_eq, effectRound] using HasPlain.specifiers)

@[simp] theorem makes_effects : Makes F effects P ↔ P () :=
  makes_unit_iff (by simp +decide [effects])

@[simp] theorem makes_returnClause : Makes F returnClause P ↔ P () :=
  makes_unit_iff (by simp +decide [returnClause])

@[simp] theorem makes_optionalReturnClause : Makes F optionalReturnClause P ↔ P () :=
  makes_unit_iff (by simp +decide [optionalReturnClause])

omit [HasPlain F] in
@[simp] theorem makes_labels : Makes F labels P ↔ P () :=
  makes_unit_iff (by simp +decide [labels])

@[simp] theorem makes_optionalAscription : Makes F optionalAscription P ↔ P () :=
  makes_unit_iff (by simp +decide [optionalAscription, ascription])

@[simp] theorem makes_name : Makes F name P ↔ P () :=
  makes_unit_iff (by simp [name, HasPlain.name .word])

@[simp] theorem makes_initializerClause (place : Place) :
    Makes F (initializerClause place) P ↔ P () :=
  makes_unit_iff (by simp +decide [initializerClause])

@[simp] theorem makes_initialValue : Makes F initialValue P ↔ P () :=
  makes_unit_iff (by simp +decide [initialValue])

@[simp] theorem makes_requirement : Makes F requirement P ↔ P () :=
  makes_unit_iff (by simp +decide [requirement])

@[simp] theorem makes_whereRequirements : Makes F whereRequirements P ↔ P () :=
  makes_unit_iff (by simp +decide [whereRequirements])

@[simp] theorem makes_genericParameter : Makes F genericParameter P ↔ P () :=
  makes_unit_iff (by simp +decide [genericParameter])

@[simp] theorem makes_genericParameterClause : Makes F genericParameterClause P ↔ P () :=
  makes_unit_iff (by simp +decide [genericParameterClause])

@[simp] theorem makes_genericParameters : Makes F genericParameters P ↔ P () :=
  makes_unit_iff (by simp +decide [genericParameters])

@[simp] theorem makes_primaryAssociatedTypes : Makes F primaryAssociatedTypes P ↔ P () :=
  makes_unit_iff (by simp +decide [primaryAssociatedTypes])

@[simp] theorem makes_inheritedType : Makes F inheritedType P ↔ P () :=
  makes_unit_iff (by simp +decide [inheritedType])

@[simp] theorem makes_inheritance : Makes F inheritance P ↔ P () :=
  makes_unit_iff (by simp +decide [inheritance])

omit [HasPlain F] in
@[simp] theorem makes_parameterNames : Makes F parameterNames P ↔ P () :=
  makes_unit_iff (by simp +decide [parameterNames])

@[simp] theorem makes_parameter : Makes F parameter P ↔ P () := by
  refine makes_unit_iff ?_
  simp +decide [parameter]
  intro _ _ v
  split <;> simp

@[simp] theorem makes_parameterClause : Makes F parameterClause P ↔ P () :=
  makes_unit_iff (by simp +decide [parameterClause])

@[simp] theorem makes_functionSignature : Makes F functionSignature P ↔ P () :=
  makes_unit_iff (by simp +decide [functionSignature])

/-! ## Blocks and parts of patterns -/

@[simp] theorem makes_codeBlock : Makes F codeBlock P ↔ P () :=
  makes_unit_iff (by simp +decide [codeBlock])

@[simp] theorem makes_optionalCodeBlock : Makes F optionalCodeBlock P ↔ P () :=
  makes_unit_iff (by simp +decide [optionalCodeBlock])

@[simp] theorem makes_accessor : Makes F accessor P ↔ P () :=
  makes_unit_iff (by simp +decide [accessor, accessorParameter])

@[simp] theorem makes_accessorBlock : Makes F accessorBlock P ↔ P () :=
  makes_unit_iff (by simp +decide [accessorBlock])

omit [HasPlain F] in
@[simp] theorem makes_closureNames : Makes F closureNames P ↔ P () := by
  refine makes_unit_iff ?_
  simp only [closureNames, makes_repeating, makes_bind, makes_kind, and_true]
  intro v
  split <;> simp

@[simp] theorem makes_closureSignature : Makes F closureSignature P ↔ P () :=
  makes_unit_iff (by simp +decide [closureSignature])

@[simp] theorem makes_closure : Makes F closure P ↔ P () :=
  makes_unit_iff (by simp +decide [closure, closureRest])

@[simp] theorem makes_trailingClosures : Makes F trailingClosures P ↔ P () :=
  makes_unit_iff (by simp +decide [trailingClosures])

omit [HasPlain F] in
@[simp] theorem makes_patternLabel : Makes F patternLabel P ↔ P () :=
  makes_unit_iff (by simp +decide [patternLabel])

@[simp] theorem makes_patternToken (depth : Nat) :
    Makes F (patternToken depth) fun _ => True := by
  simp only [patternToken, makes_bind, makes_view]
  intro v
  split <;> simp

@[simp] theorem makes_optionalWhereClause : Makes F optionalWhereClause P ↔ P () :=
  makes_unit_iff (by simp +decide [optionalWhereClause, whereClause])

/-! ## Declarations -/

@[simp] theorem makes_bindingPattern : Makes F bindingPattern P ↔ P () := by
  refine makes_unit_iff ?_
  simp only [bindingPattern, makes_bind, makes_kind]
  intro v
  split <;> simp +decide

@[simp] theorem makes_typeInitializer : Makes F typeInitializer P ↔ P () :=
  makes_unit_iff (by simp +decide [typeInitializer])

@[simp] theorem makes_typeAlias : Makes F typeAlias P ↔ P () :=
  makes_unit_iff (by simp +decide [typeAlias])

@[simp] theorem makes_associatedType : Makes F associatedType P ↔ P () :=
  makes_unit_iff (by simp +decide [associatedType])

@[simp] theorem makes_operatorName (stops : TokenKind → Bool) :
    Makes F (operatorName stops) P ↔ P () :=
  makes_unit_iff (by simpa [operatorName, operatorPart] using HasPlain.name (.operator stops))

@[simp] theorem makes_functionName : Makes F functionName P ↔ P () :=
  makes_unit_iff (by simp +decide [functionName])

@[simp] theorem makes_functionRest : Makes F functionRest P ↔ P () :=
  makes_unit_iff (by simp +decide [functionRest])

@[simp] theorem makes_initializer : Makes F initializer P ↔ P () :=
  makes_unit_iff (by simp +decide [initializer])

@[simp] theorem makes_subscript : Makes F subscript P ↔ P () :=
  makes_unit_iff (by simp +decide [subscript])

@[simp] theorem makes_bindingAccessors (initialized : Bool) :
    Makes F (bindingAccessors initialized) P ↔ P () :=
  makes_unit_iff (by simp +decide [bindingAccessors])

@[simp] theorem makes_patternBinding : Makes F patternBinding P ↔ P () :=
  makes_unit_iff (by simp +decide [patternBinding])

@[simp] theorem makes_bindings : Makes F bindings P ↔ P () :=
  makes_unit_iff (by simp +decide [bindings])

@[simp] theorem makes_importRest : Makes F importRest P ↔ P () :=
  makes_unit_iff (by simp +decide [importRest, importMember, importComponent, atImportKind])

@[simp] theorem makes_operatorPrecedence : Makes F operatorPrecedence P ↔ P () :=
  makes_unit_iff (by simp +decide [operatorPrecedence, commaName])

@[simp] theorem makes_operatorRest : Makes F operatorRest P ↔ P () := by
  refine makes_unit_iff ?_
  simp only [operatorRest, makes_bind, makes_kind]
  intro v
  split <;> simp +decide

@[simp] theorem makes_operator : Makes F operator P ↔ P () :=
  makes_unit_iff (by simp +decide [operator])

omit [HasPlain F] in
@[simp] theorem makes_groupValues : Makes F groupValues P ↔ P () := by
  refine makes_unit_iff ?_
  simp only [groupValues, makes_repeating, makes_bind, makes_kind, and_true]
  intro v
  split <;> simp [groupComma]

@[simp] theorem makes_precedenceGroup : Makes F precedenceGroup P ↔ P () :=
  makes_unit_iff (by simp +decide [precedenceGroup, groupAttribute])

@[simp] theorem makes_associatedValues : Makes F associatedValues P ↔ P () :=
  makes_unit_iff (by simp +decide [associatedValues])

@[simp] theorem makes_enumCases : Makes F enumCases P ↔ P () :=
  makes_unit_iff (by simp +decide [enumCases])

/-- What holds of the nodes of all declarations holds of the one that is found ahead. -/
theorem holds_of_declaration? {scope : Scope} {ls : List Lexeme} {k : NodeKind}
    (h : Lookahead.declaration? scope ls = some k) {p : NodeKind → Bool}
    (hp : [NodeKind.classDecl, .structDecl, .enumDecl, .protocolDecl, .extensionDecl,
      .functionDecl, .initializerDecl, .deinitializerDecl, .subscriptDecl, .variableDecl,
      .typeAliasDecl, .associatedTypeDecl, .importDecl, .operatorDecl, .precedenceGroupDecl,
      .enumCaseDecl, .actorDecl].all p = true) : p k = true := by
  refine List.all_eq_true.mp hp k ?_
  simp only [Lookahead.declaration?] at h
  split at h
  case h_17 | h_18 =>
    -- `case` and `actor` are words of declarations in some places only
    split at h
    · cases h
      decide
    · cases h
  case h_19 => cases h
  all_goals
    cases h
    decide

theorem isOrdinary_of_declaration? {scope : Scope} {ls : List Lexeme} {k : NodeKind}
    (h : Lookahead.declaration? scope ls = some k) : k.isOrdinary = true :=
  holds_of_declaration? h (by decide)

@[simp] theorem makes_directiveCondition : Makes F directiveCondition P ↔ P () :=
  makes_unit_iff (by simp +decide [directiveCondition])

end Plain

/-! ## Patterns -/

section Inner

variable [HasInner F]

@[simp] theorem makes_tuplePattern (binding : Bool) :
    Makes F (tuplePattern binding) P ↔ P () :=
  makes_unit_iff (by simp +decide [tuplePattern])

@[simp] theorem makes_patternArguments (binding : Bool) :
    Makes F (patternArguments binding) P ↔ P () :=
  makes_unit_iff (by simp +decide [patternArguments])

@[simp] theorem makes_patternTokens : Makes F patternTokens P ↔ P () :=
  makes_unit_iff (by simp +decide [patternTokens, Makes])

section Adopting

variable [Adopts F]

@[simp] theorem makes_patternSuffixes (binding : Bool) :
    Makes F (patternSuffixes binding) P ↔ P () :=
  makes_unit_iff (by simp +decide [patternSuffixes])

@[simp] theorem makes_patternPrimary (binding : Bool) :
    Makes F (patternPrimary binding) fun _ => True := by
  simp +decide [patternPrimary]
  intro v _ _ _
  split <;> simp +decide

@[simp] theorem makes_expressionPattern (binding : Bool) :
    Makes F (expressionPattern binding) fun _ => True := by
  simp +decide [expressionPattern]

@[simp] theorem makes_primaryPattern (binding : Bool) :
    Makes F (primaryPattern binding) fun _ => True := by
  simp only [primaryPattern, makes_bind, makes_view]
  intro v
  split <;> simp +decide

@[simp] theorem makes_pattern (binding : Bool) :
    Makes F (pattern binding) fun _ => True := by
  simp +decide [pattern]

end Adopting

@[simp] theorem makes_conditions : Makes F conditions P ↔ P () := by
  refine makes_unit_iff ?_
  simp +decide [conditions, patternCondition, conditionValue]
  intro v
  split <;> simp

@[simp] theorem makes_ifBody : Makes F ifBody P ↔ P () :=
  makes_unit_iff (by simp +decide [ifBody, elseBranch])

@[simp] theorem makes_caseItems : Makes F caseItems P ↔ P () :=
  makes_unit_iff (by simp +decide [caseItems])

@[simp] theorem makes_doBody : Makes F doBody P ↔ P () :=
  makes_unit_iff (by simp +decide [doBody])

end Inner

/-! ## Items -/

section Items

variable [HasItems F]

@[simp] theorem makes_switchBody : Makes F switchBody P ↔ P () :=
  makes_unit_iff (by simp +decide [switchBody])

@[simp] theorem makes_exprStep (place : Place) (r : Run) :
    Makes F (exprStep place r) fun _ => True := by
  simp only [exprStep, plainLexeme, switchExpr, makes_bind, makes_view, makes_ite, makes_pure]
  intro v
  refine ⟨fun _ => trivial, fun _ => ?_⟩
  split <;> simp +decide

@[simp] theorem makes_expression (place : Place) :
    Makes F (expression place) fun _ => True := by
  simp +decide [expression, Makes]

@[simp] theorem makes_switchCase : Makes F switchCase P ↔ P () := by
  refine makes_unit_iff ?_
  simp +decide [switchCase]
  intro v
  split <;> simp +decide

theorem makes_statementBody {α : Type} {p : Parser α} :
    Makes F statementBody fun k? => ∀ k, k? = some k → F.node false k p := by
  simp only [statementBody, makes_bind, makes_kind]
  intro v
  split <;> simp +decide [guardBody, whileBody, repeatBody, forBody, returnBody, jumpBody]

@[simp] theorem makes_statement : Makes F statement P ↔ P () :=
  makes_unit_iff (by simp +decide [statement, makes_statementBody, declaration, declarationRest])

@[simp] theorem makes_directiveBranch (scope : Scope) :
    Makes F (directiveBranch scope) P ↔ P () :=
  makes_unit_iff (by simp +decide [directiveBranch])

@[simp] theorem makes_directiveBlock (scope : Scope) :
    Makes F (directiveBlock scope) P ↔ P () := by
  refine makes_unit_iff ?_
  simp +decide [directiveBlock]
  intro v
  split <;> simp

end Items

@[simp] theorem makes_file [HasPlain F] : Makes F file P ↔ P () :=
  makes_unit_iff (by simp +decide [file])

/-! ## Types and declarations -/

@[simp] theorem makes_primaryType [HasPlain F] [HasTypes F] :
    Makes F primaryType fun _ => True := by
  simp only [primaryType, makes_bind, makes_kind]
  intro k
  split <;> simp +decide [simpleType, joinedGenericArguments, collectionType, tupleType,
    tupleTypeElement]
  intro v
  split <;> exact HasTypes.type (by decide)

/-- A type is made of types and of what stands inside items. -/
@[simp] theorem makes_typeExpr [HasPlain F] [HasTypes F] [Adopts F] :
    Makes F typeExpr fun _ => True := by
  have suffix : Makes F typeSuffix fun _ => True := by
    simp only [typeSuffix, makes_bind, makes_view]
    intro v
    split <;> simp +decide
  have postfixed : Makes F postfixType fun _ => True := by
    simp +decide [postfixType, typeTail, suffix]
  have composition : Makes F compositionType fun _ => True := by
    simp +decide [compositionType, joinedType, postfixed]
  simp +decide [typeExpr, typeSpecifier, composition]

@[simp] theorem makes_declarationRest [HasPlain F] [HasBlocks F] (k : NodeKind) :
    Makes F (declarationRest k) P ↔ P () := by
  refine makes_unit_iff ?_
  unfold declarationRest
  split <;> simp [nominal, extensionRest, memberBlock, function, deinitializer]

/-- What a declaration is a node of, is made where items begin or inside of them. -/
theorem isItem_or_isInner_of_declaration? {scope : Scope} {ls : List Lexeme} {k : NodeKind}
    (h : Lookahead.declaration? scope ls = some k) : k.isItem = true ∨ k.isInner = true :=
  Bool.or_eq_true_iff.mp (holds_of_declaration? h (p := fun k => k.isItem || k.isInner) (by decide))

section All

variable [HasItems F] [HasBlocks F]

@[simp] theorem makes_declarationOrStatement (scope : Scope) :
    Makes F (declarationOrStatement scope) P ↔ P () := by
  refine makes_unit_iff ?_
  simp only [declarationOrStatement, makes_bind, makes_view]
  intro v
  split
  · next k hk =>
    rcases isItem_or_isInner_of_declaration? hk with hk | hk <;> simp [declaration, hk]
  · simp +decide

@[simp] theorem makes_item (scope : Scope) : Makes F (item scope) P ↔ P () := by
  refine makes_unit_iff ?_
  simp only [item, makes_bind, makes_kind]
  intro v
  split <;> simp +decide

/-- The rules do nothing but what `F` admits, if it admits all ordinary nodes, types and blocks of
    members. -/
theorem makes_body [HasTypes F] [Adopts F] (r : Rule) : Makes F (body r) fun _ => True := by
  cases r <;> simp +decide [body, items, ifStmt]

end All

/-! ## Lists of items -/

section ItemLists

variable {K : Kept} {call : Rule → State → Bool × State} {scope : Scope}
  (hrecover : ∀ p, K.By call (recover p))
  (hblock : ∀ s : State, s.view.kind = .poundIf → K.rel s ((directiveBlock scope).run call s).2)
  (hsection : scope = .switchCases → K.By call switchCase)
  (hdecl : scope ≠ .switchCases → K.By call (declarationOrStatement scope))

include hrecover hblock hsection hdecl

/-- An item is conditional compilation, a section where sections are listed, and a declaration or
    a statement elsewhere. -/
theorem by_item : K.By call (item scope) := by
  intro s
  simp only [item, run_kind_bind]
  split
  case h_1 => exact K.consume s
  case h_2 hk => exact hblock s hk
  case h_6 =>
    by_cases hscope : scope = .switchCases
    · rw [if_neg (by simp [hscope])]
      exact (hsection hscope).ite (hrecover _) s
    · rw [if_pos (by simpa using hscope)]
      exact hdecl hscope s
  all_goals exact hrecover _ s

theorem by_items : K.By call (items scope) := by
  have hview : K.By call view := K.refl
  refine .repeating (hview.bind fun _ => .ite .pure ?_)
  refine .bind (by_item hrecover hblock hsection hdecl) fun _ => hview.bind fun _ => ?_
  exact .ite (.bind (hrecover _) fun _ => .pure) .pure

end ItemLists

/-! ## Programs with member blocks in them -/

section MemberBlocks

variable {K : Kept} {call : Rule → State → Bool × State}
  (hfree : ∀ k : NodeKind, k.isOrdinary = true → K.free k)
  (hcall : ∀ r s, K.rel s (call r s).2)

include hfree hcall

/-- A program that makes ordinary nodes only keeps what allows for these. -/
theorem by_of_makes {α : Type} {p : Parser α} (h : Makes (Among isOrdinary) p fun _ => True) :
    K.By call p :=
  Makes.by hcall (h.kinds_mono hfree)

variable (hblock : K.By call memberBlock)

include hblock

theorem by_nominal (k : NodeKind) : K.By call (nominal k) := by
  have plain {α : Type} {p : Parser α} (h : Makes (Among isOrdinary) p fun _ => True) :
      K.By call p := by_of_makes hfree hcall h
  have rest : K.By call (do inheritance; whereRequirements; memberBlock) :=
    .bind (plain (by simp)) fun _ => .bind (plain (by simp)) fun _ => hblock
  refine .bind (plain (by simp)) fun _ => .bind (plain (by simp)) fun _ => ?_
  refine .bind (plain (by simp)) fun _ => .ite (.ite ?_ ?_) rest
  · exact .bind (plain (by simp)) fun _ => rest
  · exact .bind (plain (by simp)) fun _ => rest

theorem by_extensionRest : K.By call extensionRest := by
  have plain {α : Type} {p : Parser α} (h : Makes (Among isOrdinary) p fun _ => True) :
      K.By call p := by_of_makes hfree hcall h
  refine .bind (plain (by simp)) fun _ => .bind (plain (by simp)) fun _ => ?_
  exact .bind (plain (by simp)) fun _ => .bind (plain (by simp)) fun _ => hblock

theorem by_declarationRest (k : NodeKind) : K.By call (declarationRest k) := by
  unfold declarationRest
  split
  iterate 5 exact by_nominal hfree hcall hblock _
  · exact by_extensionRest hfree hcall hblock
  all_goals exact by_of_makes hfree hcall (by simp [function, deinitializer])

theorem by_declaration {k : NodeKind} (hk : k.isOrdinary = true) : K.By call (declaration k) := by
  refine .node (hfree k hk) (.bind ?_ fun _ => .bind ?_ fun _ => ?_)
  · exact by_of_makes hfree hcall (by simp)
  · exact by_of_makes hfree hcall (by simp)
  · exact by_declarationRest hfree hcall hblock k

theorem by_declarationOrStatement (scope : Scope) :
    K.By call (declarationOrStatement scope) := by
  refine .bind (by_of_makes hfree hcall (by simp)) fun v => ?_
  split
  · next k hk => exact by_declaration hfree hcall hblock (isOrdinary_of_declaration? hk)
  · exact by_of_makes hfree hcall (by simp +decide)

/-- No rule but that for types makes other than ordinary nodes, the member blocks apart. -/
theorem by_body {r : Rule} (h : r ≠ .type) : K.By call (body r) := by
  cases r with
  | type => exact absurd rfl h
  | items scope =>
    refine .bind (by_items (fun p => ?_) (fun s _ => ?_) (fun _ => ?_) fun _ => ?_) fun _ => .pure
    · exact by_of_makes hfree hcall (by simp +decide)
    · exact by_of_makes hfree hcall (by simp) s
    · exact by_of_makes hfree hcall (by simp)
    · exact by_declarationOrStatement hfree hcall hblock scope
  | ifStmt => exact by_of_makes hfree hcall (by simp +decide [body, ifStmt])
  | _ => exact by_of_makes hfree hcall (by simp [body])

omit hblock in
theorem by_file : K.By call file :=
  by_of_makes hfree hcall (by simp +decide [file])

end MemberBlocks

end Grammar

end SwiftOutline
