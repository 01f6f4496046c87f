/-
  SwiftOutline.Grammar.Problem

  What can be wrong with a source text, as causes, and the wording of each.
-/

namespace SwiftOutline

/-- Faults that the grammar reports. -/
inductive Problem where
  -- Items
  | topLevelToken | strayToken | strayDirective | strayCloser | strayCase
  | noDeclaration | noStatement | noSwitchCase | noCaseLabel
  -- Declarations
  | unsupportedDeclaration | noName | noFunctionName | noVariableName | noOperatorName | noModuleName | noImportComponent
  | noTypealiasValue | noPrecedenceGroup | operatorBody
  | noMemberBlock | openMemberBlock | noGroupBody | openGroupBody | noGroupAttribute
  | openAssociatedValues | noDirectiveCondition | noEndif
  -- Attributes, generics and types
  | noAttributeName | openAttributeArguments | openGenericParameters | openPrimaryTypes
  | noRequirementRelation | noType | openGenericArguments | openCollectionType | openTupleType
  -- Functions and accessors
  | noParameterList | openParameterList | noParameterType | openThrownType
  | noBlock | openBlock | conditionalAccessor | noAccessor | openAccessorBlock
  | noAccessorParameter | openAccessorParameter
  -- Patterns, expressions and statements
  | noPattern | openTuplePattern | openPatternArguments
  | noExpression | openBracket | openClosure | noClosureIn
  | noGuardElse | noRepeatWhile | noForIn | noCaseValue | noSwitchBody | openSwitch
  | noCaseColon | noDefaultColon
  deriving DecidableEq, Repr, Inhabited

namespace Problem

/-- The wording of a fault. -/
def message : Problem → String
  | topLevelToken => "unexpected token at top level"
  | strayToken => "unexpected token"
  | strayDirective => "unexpected conditional compilation directive"
  | strayCloser => "unexpected closing delimiter"
  | strayCase => "enum 'case' is only allowed inside an enum"
  | noDeclaration => "expected declaration"
  | noStatement => "expected statement"
  | noSwitchCase => "expected 'case' or 'default' in switch"
  | noCaseLabel => "expected 'case' or 'default'"
  | unsupportedDeclaration => "unsupported declaration"
  | noName => "expected name"
  | noFunctionName => "expected function name"
  | noVariableName => "expected variable name"
  | noOperatorName => "expected operator name"
  | noModuleName => "expected module name"
  | noImportComponent => "expected name after '.'"
  | noTypealiasValue => "expected '=' in typealias"
  | noPrecedenceGroup => "expected precedence group name"
  | operatorBody => "operator bodies are not supported"
  | noMemberBlock => "expected '\x7b' to start member block"
  | openMemberBlock => "expected '\x7d' to close member block"
  | noGroupBody => "expected '\x7b' in precedence group"
  | openGroupBody => "expected '\x7d' to close precedence group"
  | noGroupAttribute => "expected precedence group attribute"
  | openAssociatedValues => "expected ')' to close associated values"
  | noDirectiveCondition => "expected condition after directive"
  | noEndif => "expected '#endif'"
  | noAttributeName => "expected attribute name"
  | openAttributeArguments => "expected ')' to close attribute arguments"
  | openGenericParameters => "expected '>' to close generic parameters"
  | openPrimaryTypes => "expected '>' to close primary associated types"
  | noRequirementRelation => "expected ':' or '==' in generic requirement"
  | noType => "expected type"
  | openGenericArguments => "expected '>' to close generic arguments"
  | openCollectionType => "expected ']' to close collection type"
  | openTupleType => "expected ')' to close tuple type"
  | noParameterList => "expected '(' to start parameter list"
  | openParameterList => "expected ')' to close parameter list"
  | noParameterType => "expected ':' and parameter type"
  | openThrownType => "expected ')' after thrown type"
  | noBlock => "expected '\x7b'"
  | openBlock => "expected '\x7d' to close block"
  | conditionalAccessor => "conditional accessors are not supported"
  | noAccessor => "expected accessor"
  | openAccessorBlock => "expected '\x7d' to close accessor block"
  | noAccessorParameter => "expected accessor parameter name"
  | openAccessorParameter => "expected ')' after accessor parameter"
  | noPattern => "expected pattern"
  | openTuplePattern => "expected ')' to close tuple pattern"
  | openPatternArguments => "expected ')' to close pattern arguments"
  | noExpression => "expected expression"
  | openBracket => "expected closing bracket in expression"
  | openClosure => "expected '\x7d' to close closure"
  | noClosureIn => "expected 'in' after closure signature"
  | noGuardElse => "expected 'else' after guard condition"
  | noRepeatWhile => "expected 'while' after repeat body"
  | noForIn => "expected 'in' after for-in pattern"
  | noCaseValue => "expected '=' in case condition"
  | noSwitchBody => "expected '\x7b' after switch subject"
  | openSwitch => "expected '\x7d' to close switch"
  | noCaseColon => "expected ':' after case items"
  | noDefaultColon => "expected ':' after 'default'"

end Problem

end SwiftOutline
