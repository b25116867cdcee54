import TypeProbe.Inference.Evaluation

/-!
# What values are made of

Rules on the types of values alone: what comes out of a value that is gone through item by item
(`Values.iterated`), unpacked, awaited or caught, and the arithmetic of the known classes
(`Values.arithmetic`), which is exact on literal whole numbers as long as the result is below
`2 ^ 63`.
-/

namespace TypeProbe.Values

variable (b : Builtins)

/-- The union of types, of which nothing is known if there are none. -/
def unionOrUnknown (types : List TypeId) : StateM TypeStore TypeId :=
  if types.isEmpty then return .unknown else fun s => s.unionOf types

/-- The type of the items of a value that is no union. -/
def itemsOf (id : TypeId) : StateM TypeStore TypeId := do
  let s ← get
  let arguments := (s.argumentsOf? id).getD []
  match s.instanceClass? id with
  | none => return .unknown
  | some detail =>
    if detail = b.text then fun s => s.instanceOf b.text
    else if detail = b.bytes ∨ detail = b.range then fun s => s.instanceOf b.int
    else if detail = b.tuple then unionOrUnknown arguments
    else if detail = b.list ∨ detail = b.set ∨ detail = b.dictionary ∨ detail = b.generator then
      return arguments.headD .unknown
    else return .unknown

/-- The type of the items of a value, at most `fuel` unions deep. -/
def iteratedAt : (fuel : Nat) → TypeId → StateM TypeStore TypeId
  | 0, _ => return .unknown
  | fuel + 1, id => do
    match (← get).shape? id with
    | some (.union members) =>
      let types ← members.mapM (iteratedAt fuel)
      fun s => s.unionOf types
    | _ => itemsOf b id

/-- The type of the items of a value. -/
def iterated (id : TypeId) : StateM TypeStore TypeId := iteratedAt b (id.index + 1) id

/-- The type of what stands at a place when a value is unpacked. -/
def unpacked (id : TypeId) (place : Nat) : StateM TypeStore TypeId := do
  match (← get).shape? id with
  | some (.nominal detail arguments _) =>
    if detail = b.tuple then return ((arguments.getD [])[place]?).getD .unknown else iterated b id
  | _ => return .unknown

/-- The type of what comes out of a value that is awaited. -/
def awaited (s : TypeStore) (id : TypeId) : TypeId :=
  if s.instanceClass? id = some b.coroutine then
    (((s.argumentsOf? id).getD [])[2]?).getD .unknown
  else .unknown

/-- The type of what is caught by the type of a class or of a tuple of classes, at most `fuel`
tuples deep. -/
def caughtAt : (fuel : Nat) → TypeId → StateM TypeStore TypeId
  | 0, _ => return .unknown
  | fuel + 1, id => do
    let s ← get
    match s.get? id with
    | none => return .unknown
    | some t =>
      match if t.isInstantiable then t.class? else none with
      | some detail => fun s => s.instanceOf detail
      | none =>
        if s.instanceClass? id = some b.tuple then
          let types ← ((s.argumentsOf? id).getD []).mapM (caughtAt fuel)
          fun s => s.unionOf types
        else return .unknown

/-- The type of what is caught. -/
def caught (id : TypeId) : StateM TypeStore TypeId := caughtAt b (id.index + 1) id

/-- The type of a number as it is written. -/
def number (n : NumberLiteral) : StateM TypeStore TypeId := fun s =>
  if n.isImaginary then s.instanceOf b.complex
  else
    match n.value with
    | .int value => s.literal b.int (.int value)
    | .float _ => s.instanceOf b.float

/-- The type of a keyword that is a value. -/
def constant (keyword : Keyword) : StateM TypeStore TypeId := fun s =>
  match keyword with
  | .true => s.literal b.bool (.bool true)
  | .false => s.literal b.bool (.bool false)
  | .none => (.noneValue, s)
  | .debug => s.instanceOf b.bool
  | _ => (.unknown, s)

/-- Literal types have values from the negative of this number up to, not including, this number,
`2 ^ 63`. -/
def literalLimit : Int := 0x8000000000000000

/-- Whether a whole number can be the value of a literal type. -/
def isLiteralRange (n : Int) : Bool := -literalLimit ≤ n && n < literalLimit

/-- The value of a literal with its sign turned; the least value stays as it is. -/
def turned (n : Int) : Int := if isLiteralRange (-n) then -n else n

/-- The operations on literal whole numbers that have a literal result. -/
def fold? (op : Operator) (m n : Int) : Option Int :=
  (match op with
    | .add => some (m + n)
    | .subtract => some (m - n)
    | .multiply => some (m * n)
    | _ => none).filter isLiteralRange

/-- The kinds of numbers, each of which holds those before it. -/
def rank? (detail : ClassId) : Option Nat :=
  if detail = b.int ∨ detail = b.bool then some 0
  else if detail = b.float then some 1
  else if detail = b.complex then some 2
  else none

/-- Operators that work on bits. -/
def isBitwise (op : Operator) : Bool :=
  op == .bitwiseAnd || op == .bitwiseOr || op == .bitwiseXor || op == .leftShift ||
    op == .rightShift

/-- The type of an operation on numbers of the given kinds. -/
def arithmetic (op : Operator) (rank : Nat) (left right : Option LiteralValue) :
    StateM TypeStore TypeId := fun s =>
  if rank = 0 then
    let folded := match left, right with
      | some (.int m), some (.int n) => fold? op m n
      | _, _ => none
    match folded with
    | some value => s.literal b.int (.int value)
    | none => s.instanceOf (if op = .divide then b.float else b.int)
  else if isBitwise op then (.unknown, s)
  else s.instanceOf (if rank = 1 then b.float else b.complex)

/-- The member that a value has for an operator with one operand. -/
def signMember? : Operator → Option String
  | .subtract => some "__neg__"
  | .add => some "__pos__"
  | .bitwiseInvert => some "__invert__"
  | _ => none

/-- The member that the left operand has for an operator with two operands. -/
def operatorMember? : Operator → Option String
  | .add => some "__add__"
  | .subtract => some "__sub__"
  | .multiply => some "__mul__"
  | .matrixMultiply => some "__matmul__"
  | .divide => some "__truediv__"
  | .floorDivide => some "__floordiv__"
  | .mod => some "__mod__"
  | .power => some "__pow__"
  | .bitwiseAnd => some "__and__"
  | .bitwiseOr => some "__or__"
  | .bitwiseXor => some "__xor__"
  | .leftShift => some "__lshift__"
  | .rightShift => some "__rshift__"
  | _ => none

/-- The operator whose result an assigning operator assigns. -/
def assignedOperator? : Operator → Option Operator
  | .addEqual => some .add
  | .subtractEqual => some .subtract
  | .multiplyEqual => some .multiply
  | .matrixMultiplyEqual => some .matrixMultiply
  | .divideEqual => some .divide
  | .floorDivideEqual => some .floorDivide
  | .modEqual => some .mod
  | .powerEqual => some .power
  | .bitwiseAndEqual => some .bitwiseAnd
  | .bitwiseOrEqual => some .bitwiseOr
  | .bitwiseXorEqual => some .bitwiseXor
  | .leftShiftEqual => some .leftShift
  | .rightShiftEqual => some .rightShift
  | _ => none

end TypeProbe.Values
