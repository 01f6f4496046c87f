/-
  SwiftOutline.CasePattern.Basic

  The shapes of the patterns that a `case` compares with.
-/
import SwiftOutline.TypeShape.Basic

namespace SwiftOutline

/-- The shape of a pattern. Member names are without a leading point. -/
inductive CasePattern where
  /-- A literal: `case 1`. -/
  | literal (text : String)
  /-- A member: `case .ready`. -/
  | member (name : String)
  /-- A type test: `case is String`. -/
  | isType (type : TypeShape)
  /-- Names bound behind a member: `case let .loaded(data, _)`. -/
  | memberBinding (keyword name : String) (elements : List String)
  /-- Names bound inside the arguments of a member, each with its keyword:
      `case .loaded(let data, var count)`. -/
  | innerBinding (name : String) (elements : List (String × String))
  /-- Bound names: `case let x`, `case let (a, b)`. -/
  | binding (keyword : String) (elements : List String)
  /-- A tuple, with the texts of its elements: `case (1, 2)`. -/
  | tuple (elements : List String)
  /-- Every other pattern, as it is written. -/
  | unsupported (text : String)
  deriving Repr, Inhabited

namespace CasePattern

/-- Whether the pattern has none of the known shapes. -/
def isUnsupported : CasePattern → Bool
  | unsupported _ => true
  | _ => false

/-- Whether two shapes are equal. -/
def same : CasePattern → CasePattern → Bool
  | literal a, literal b => a == b
  | member a, member b => a == b
  | isType a, isType b => a == b
  | memberBinding k n es, memberBinding k' n' es' => k == k' && n == n' && es == es'
  | innerBinding n es, innerBinding n' es' => n == n' && es == es'
  | binding k es, binding k' es' => k == k' && es == es'
  | tuple es, tuple es' => es == es'
  | unsupported a, unsupported b => a == b
  | _, _ => false

instance : BEq CasePattern := ⟨same⟩

end CasePattern

/-- A pattern of a `case` label with the condition behind it. -/
structure MatchedCase where
  pattern : CasePattern
  condition : Option String
  deriving Repr, Inhabited, BEq

/-- One section of a `switch`. -/
structure SwitchCase where
  /-- The patterns of the label; none for `default`. -/
  label : Option (List MatchedCase)
  /-- The text of the section. -/
  text : String
  deriving Repr, Inhabited, BEq

end SwiftOutline
