import TypeProbe.Inference.Values

/-!
# Operations

The type of an operation on values. Numbers of the known classes, texts and lists have rules of
their own; any other value is asked for the member that carries out the operation.
-/

namespace TypeProbe.Operations

open Evaluation

section Rules

variable (p : Program)

/-- The type of an operation on one operand. -/
def unary (op : Operator) (operand : TypeId) : Evaluation TypeId := do
  let b := p.builtins
  if op = .not then return ← onStore (·.instanceOf b.bool)
  let viaMember : Evaluation TypeId :=
    match Values.signMember? op with
    | some name => callMemberD operand name []
    | none => return .unknown
  match (← store).instance? operand with
  | none => viaMember
  | some (detail, literal) =>
    if detail = b.int then
      match op, literal with
      | .subtract, some (.int n) => onStore (·.literal b.int (.int (Values.turned n)))
      | .add, some (.int _) => return operand
      | _, _ => onStore (·.instanceOf b.int)
    else if (detail = b.float ∨ detail = b.complex) ∧ (op = .add ∨ op = .subtract) then
      onStore (·.instanceOf detail)
    else viaMember

/-- The type of an operation between values of known classes, if there is a rule for it. -/
def known? (op : Operator) (left right : TypeId) : Evaluation (Option TypeId) := do
  let b := p.builtins
  let s ← store
  match s.instance? left, s.instance? right with
  | some (l, leftLiteral), some (r, rightLiteral) =>
    match Values.rank? b l, Values.rank? b r with
    | some m, some n =>
      return some (← onStore (Values.arithmetic b op (max m n) leftLiteral rightLiteral))
    | _, _ =>
      let isText : Bool := match op with
        | .add => l == b.text && r == b.text
        | .multiply => (l == b.text && r == b.int) || (l == b.int && r == b.text)
        | .mod => l == b.text
        | _ => false
      if isText then return some (← onStore (·.instanceOf b.text))
      else if op = .add ∧ l = b.list ∧ r = l then return some (← onStore (TypeStore.widen left))
      else return none
  | _, _ => return none

/-- The type of an operation between two values. -/
def binary (op : Operator) (left right : TypeId) : Evaluation TypeId := do
  if op = .and ∨ op = .or then onStore (·.unionOf [left, right])
  else if op.isComparison then onStore (·.instanceOf p.builtins.bool)
  else
    match ← known? p op left right with
    | some type => return type
    | none =>
      match Values.operatorMember? op with
      | some name => callMemberD left name [right]
      | none => return .unknown

end Rules

end TypeProbe.Operations
