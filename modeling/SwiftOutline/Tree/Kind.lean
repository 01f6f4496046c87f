/-
  SwiftOutline.Tree.Kind

  The kinds of nodes of a syntax tree, their printed names, and the classes of
  kinds that questions about a tree refer to.
-/

namespace SwiftOutline

/-- Kinds of nodes. `unexpected` holds tokens that the grammar could not place; `ascription` is
    the `: Type` of a binding. -/
inductive NodeKind where
  -- Root and recovery
  | sourceFile | unexpected
  -- Declarations
  | classDecl | structDecl | enumDecl | protocolDecl | extensionDecl | actorDecl | functionDecl
  | initializerDecl | deinitializerDecl | subscriptDecl | variableDecl | typeAliasDecl
  | associatedTypeDecl | importDecl | operatorDecl | precedenceGroupDecl | enumCaseDecl
  | enumCaseElement | ifConfigDecl | ifConfigClause | ifConfigCondition
  -- Declaration parts
  | attributeList | attributeUse | attributeArguments | attributeArgument | modifierList | modifier
  | modifierDetail | declaredName | importPath | genericParameterClause | genericParameter
  | primaryAssociatedTypeClause | genericWhereClause | sameTypeRequirement
  | conformanceRequirement | layoutRequirement | inheritanceClause | inheritedType | memberBlock
  | codeBlock | functionSignature | parameterClause | parameter | effectSpecifiers | returnClause
  | ascription | initializerClause | typeInitializerClause | patternBindingList | patternBinding
  | accessorBlock | accessor | accessorParameter | enumCaseParameterClause | enumCaseParameter
  | precedenceGroupAttribute | operatorPrecedenceClause
  -- Types
  | simpleType | genericArgumentClause | genericArgument | optionalType
  | implicitlyUnwrappedOptionalType | arrayType | dictionaryType | tupleType | tupleTypeElement
  | functionType | attributedType | someOrAnyType | compositionType | metatypeType
  -- Statements
  | ifStmt | guardStmt | forStmt | whileStmt | repeatStmt | doStmt | catchClause | deferStmt
  | returnStmt | throwStmt | breakStmt | continueStmt | fallthroughStmt | exprStmt | condition
  | switchExpr | switchCase | switchCaseLabel | switchDefaultLabel | caseItem | whereClause
  -- Patterns
  | expressionPattern | identifierPattern | wildcardPattern | valueBindingPattern | isTypePattern
  | tuplePattern | tuplePatternElement | asPattern
  -- Expressions
  | expr | closureExpr | closureSignature | memberAccessExpr | declReferenceExpr
  | functionCallExpr | labeledExprList | labeledExpr | literalExpr
  deriving DecidableEq, Repr, Inhabited

namespace NodeKind

/-- Printed name of a kind. -/
def name : NodeKind → String
  | .sourceFile => "SourceFile"
  | .unexpected => "Unexpected"
  | .classDecl => "ClassDecl"
  | .structDecl => "StructDecl"
  | .enumDecl => "EnumDecl"
  | .protocolDecl => "ProtocolDecl"
  | .extensionDecl => "ExtensionDecl"
  | .actorDecl => "ActorDecl"
  | .functionDecl => "FunctionDecl"
  | .initializerDecl => "InitializerDecl"
  | .deinitializerDecl => "DeinitializerDecl"
  | .subscriptDecl => "SubscriptDecl"
  | .variableDecl => "VariableDecl"
  | .typeAliasDecl => "TypeAliasDecl"
  | .associatedTypeDecl => "AssociatedTypeDecl"
  | .importDecl => "ImportDecl"
  | .operatorDecl => "OperatorDecl"
  | .precedenceGroupDecl => "PrecedenceGroupDecl"
  | .enumCaseDecl => "EnumCaseDecl"
  | .enumCaseElement => "EnumCaseElement"
  | .ifConfigDecl => "IfConfigDecl"
  | .ifConfigClause => "IfConfigClause"
  | .ifConfigCondition => "IfConfigCondition"
  | .attributeList => "AttributeList"
  | .attributeUse => "Attribute"
  | .attributeArguments => "AttributeArguments"
  | .attributeArgument => "AttributeArgument"
  | .modifierList => "ModifierList"
  | .modifier => "Modifier"
  | .modifierDetail => "ModifierDetail"
  | .declaredName => "Name"
  | .importPath => "ImportPath"
  | .genericParameterClause => "GenericParameterClause"
  | .genericParameter => "GenericParameter"
  | .primaryAssociatedTypeClause => "PrimaryAssociatedTypeClause"
  | .genericWhereClause => "GenericWhereClause"
  | .sameTypeRequirement => "SameTypeRequirement"
  | .conformanceRequirement => "ConformanceRequirement"
  | .layoutRequirement => "LayoutRequirement"
  | .inheritanceClause => "InheritanceClause"
  | .inheritedType => "InheritedType"
  | .memberBlock => "MemberBlock"
  | .codeBlock => "CodeBlock"
  | .functionSignature => "FunctionSignature"
  | .parameterClause => "ParameterClause"
  | .parameter => "Parameter"
  | .effectSpecifiers => "EffectSpecifiers"
  | .returnClause => "ReturnClause"
  | .ascription => "TypeAnnotation"
  | .initializerClause => "InitializerClause"
  | .typeInitializerClause => "TypeInitializerClause"
  | .patternBindingList => "PatternBindingList"
  | .patternBinding => "PatternBinding"
  | .accessorBlock => "AccessorBlock"
  | .accessor => "Accessor"
  | .accessorParameter => "AccessorParameter"
  | .enumCaseParameterClause => "EnumCaseParameterClause"
  | .enumCaseParameter => "EnumCaseParameter"
  | .precedenceGroupAttribute => "PrecedenceGroupAttribute"
  | .operatorPrecedenceClause => "OperatorPrecedenceClause"
  | .simpleType => "SimpleType"
  | .genericArgumentClause => "GenericArgumentClause"
  | .genericArgument => "GenericArgument"
  | .optionalType => "OptionalType"
  | .implicitlyUnwrappedOptionalType => "ImplicitlyUnwrappedOptionalType"
  | .arrayType => "ArrayType"
  | .dictionaryType => "DictionaryType"
  | .tupleType => "TupleType"
  | .tupleTypeElement => "TupleTypeElement"
  | .functionType => "FunctionType"
  | .attributedType => "AttributedType"
  | .someOrAnyType => "SomeOrAnyType"
  | .compositionType => "CompositionType"
  | .metatypeType => "MetatypeType"
  | .ifStmt => "IfStmt"
  | .guardStmt => "GuardStmt"
  | .forStmt => "ForStmt"
  | .whileStmt => "WhileStmt"
  | .repeatStmt => "RepeatStmt"
  | .doStmt => "DoStmt"
  | .catchClause => "CatchClause"
  | .deferStmt => "DeferStmt"
  | .returnStmt => "ReturnStmt"
  | .throwStmt => "ThrowStmt"
  | .breakStmt => "BreakStmt"
  | .continueStmt => "ContinueStmt"
  | .fallthroughStmt => "FallthroughStmt"
  | .exprStmt => "ExprStmt"
  | .condition => "Condition"
  | .switchExpr => "SwitchExpr"
  | .switchCase => "SwitchCase"
  | .switchCaseLabel => "SwitchCaseLabel"
  | .switchDefaultLabel => "SwitchDefaultLabel"
  | .caseItem => "CaseItem"
  | .whereClause => "WhereClause"
  | .expressionPattern => "ExpressionPattern"
  | .identifierPattern => "IdentifierPattern"
  | .wildcardPattern => "WildcardPattern"
  | .valueBindingPattern => "ValueBindingPattern"
  | .isTypePattern => "IsTypePattern"
  | .tuplePattern => "TuplePattern"
  | .tuplePatternElement => "TuplePatternElement"
  | .asPattern => "AsPattern"
  | .expr => "Expr"
  | .closureExpr => "ClosureExpr"
  | .closureSignature => "ClosureSignature"
  | .memberAccessExpr => "MemberAccessExpr"
  | .declReferenceExpr => "DeclReferenceExpr"
  | .functionCallExpr => "FunctionCallExpr"
  | .labeledExprList => "LabeledExprList"
  | .labeledExpr => "LabeledExpr"
  | .literalExpr => "LiteralExpr"

/-- Type expressions. -/
def isType : NodeKind → Bool
  | simpleType | optionalType | implicitlyUnwrappedOptionalType | arrayType | dictionaryType
  | tupleType | functionType | attributedType | someOrAnyType | compositionType
  | metatypeType => true
  | _ => false

/-- Patterns. -/
def isPattern : NodeKind → Bool
  | expressionPattern | identifierPattern | wildcardPattern | valueBindingPattern
  | isTypePattern | tuplePattern | tuplePatternElement | asPattern => true
  | _ => false

/-- Declarations, the elements of an enum case and conditional compilation included. -/
def isDeclaration : NodeKind → Bool
  | classDecl | structDecl | enumDecl | protocolDecl | extensionDecl | actorDecl | functionDecl
  | initializerDecl | deinitializerDecl | subscriptDecl | variableDecl | typeAliasDecl
  | associatedTypeDecl | importDecl | operatorDecl | precedenceGroupDecl | enumCaseDecl
  | enumCaseElement | ifConfigDecl => true
  | _ => false

end NodeKind

end SwiftOutline
