/-
  Values and places, and the operations on them.

  A value is an operand that holds a result, with its type.  Results live in fresh variables, so an
  operand can be used again later without being read anew.  A place is something that can be assigned
  to: named storage, read and written by `mov`, or memory at a computed address, read by `load` and
  written by `store`.

  Nothing here looks at expressions.
-/
import Cof.Lowering.State
import Cof.Lowering.Typing

namespace Cof.Lowering

/-- A result and its type. -/
structure Value where
  operand : Operand
  type : CType
deriving DecidableEq, Repr

/-- Something that can be assigned to. -/
inductive Place where
  /-- Named storage. -/
  | storage (operand : Operand) (type : CType)
  /-- Memory at an address. -/
  | memory (address : Operand) (type : CType)
deriving DecidableEq, Repr

def Place.type : Place → CType
  | storage _ type | memory _ type => type

def Value.void : Value := ⟨.imm .void 0, .void⟩

def intConstant (n : UInt64) : Operand := .imm .i32 n

/-! ## Checks -/

def requireScalar (v : Value) (operator : String) (loc : Location) : Lower Unit :=
  if v.type.isScalar then return () else invalid operator (.one v.type) loc

def requireModifiable (p : Place) (loc : Location) : Lower Unit :=
  if p.type.isArray || p.type.isFunction then fail .notAssignable loc else return ()

def invalidPair {α : Type} (op : BinOp) (left right : Value) (loc : Location) : Lower α :=
  invalid op.symbol (.two left.type right.type) loc

/-! ## Making values -/

def compute (opcode : Opcode) (qualifier : Qualifier) (type : CType) (operands : List Operand) :
    Lower Value := do
  let target ← temporary type
  emit opcode qualifier (target :: operands)
  return ⟨target, type⟩

def constant (type : CType) (bits : UInt64) : Lower Value :=
  compute .mov .none type [.imm type.encoding bits]

/-- The address of a string, which goes out as data under a label. -/
def stringConstant (bytes : Bytes) : Lower Value := do
  let label ← freshLabel
  emit .data .none [.label label, .symbol .array (bytes ++ [0])]
  compute .lea .none (.pointer .char) [.label label]

/-- Convert a value.  An instruction is needed only where the encoding changes. -/
def convert (v : Value) (target : CType) : Lower Value :=
  if v.type = target then return v
  else if v.type.encoding = target.encoding then return ⟨v.operand, target⟩
  else compute .cvt (.signedness v.type.isUnsigned) target [v.operand]

/-- Whether a value of one type can be assigned to an object of another: both are scalar, and not one
a pointer and the other floating. -/
def assignable (target source : CType) : Bool :=
  target.isScalar && source.isScalar
    && !((target.isPointer || source.isPointer) && (target.isFloating || source.isFloating))

def convertAssigned (v : Value) (target : CType) (loc : Location) : Lower Value :=
  if assignable target v.type then convert v target else invalid "=" (.two target v.type) loc

def convertExtra (v : Value) : Lower Value :=
  convert v (if v.type.isFloating then .double else v.type.promote)

/-! ## Places -/

def storageOperand (s : Symbol) : Operand :=
  match s.storage with
  | .slot id => .var s.type.encoding id
  | .global name => .symbol s.type.encoding.tag name

/-- The value at a place.  An array or a function gives its address. -/
def readPlace (p : Place) : Lower Value :=
  let decays := p.type.isArray || p.type.isFunction
  match p with
  | .storage operand type =>
    if decays then compute .lea .none type.decay [operand] else compute .mov .none type [operand]
  | .memory address type =>
    if decays then return ⟨address, type.decay⟩ else compute .load .none type [address]

def writePlace (p : Place) (value : Operand) : Lower Unit :=
  match p with
  | .storage operand _ => emit .mov .none [operand, value]
  | .memory address _ => emit .store .none [address, value]

def addressOf (p : Place) : Lower Value :=
  match p with
  | .storage operand type => compute .lea .none (.pointer type) [operand]
  | .memory address type => return ⟨address, .pointer type⟩

/-! ## Pointers -/

/-- How far a pointer moves by one.  A target without a size counts as four bytes. -/
def stride (pointer : CType) : UInt64 :=
  match pointer.pointee? with
  | some target => if target.size = 0 then 4 else target.size
  | none => 4

def offsetPointer (pointer index : Value) (opcode : Opcode) : Lower Value := do
  let index ← convert index .long
  let scaled ← compute .mul .signed .long [index.operand, .imm .i64 (stride pointer.type)]
  compute opcode .unsigned pointer.type [pointer.operand, scaled.operand]

def pointerDifference (left right : Value) : Lower Value := do
  let bytes ← compute .sub .signed .long [left.operand, right.operand]
  compute .div .signed .long [bytes.operand, .imm .i64 (stride left.type)]

/-! ## Operators -/

def opcode? : BinOp → Option Opcode
  | .add => some .add
  | .sub => some .sub
  | .mul => some .mul
  | .div => some .div
  | .rem => some .mod
  | .bitAnd => some .and
  | .bitOr => some .or
  | .bitXor => some .xor
  | .shl => some .shl
  | .shr => some .shr
  | _ => none

/-- Convert the right operand of an operation on numbers.  A shift takes it as it is. -/
def convertRight (op : BinOp) (right : Value) (type : CType) : Lower Value :=
  if isShift op then return right else convert right type

def numeric (op : BinOp) (left right : Value) (loc : Location) : Lower Value := do
  match resultType? op left.type right.type with
  | none => invalidPair op left right loc
  | some type =>
    let left ← convert left type
    let right ← convertRight op right type
    match opcode? op with
    | some opcode =>
      compute opcode (.signedness type.isUnsigned) type [left.operand, right.operand]
    | none => invalidPair op left right loc

def arithmetic (op : BinOp) (left right : Value) (loc : Location) : Lower Value :=
  if op = .add && left.type.isPointer && right.type.isIntegral then offsetPointer left right .add
  else if op = .add && left.type.isIntegral && right.type.isPointer then
    offsetPointer right left .add
  else if op = .sub && left.type.isPointer && right.type.isIntegral then offsetPointer left right .sub
  else if op = .sub && left.type.isPointer && right.type.isPointer then pointerDifference left right
  else if left.type.isPointer || right.type.isPointer then invalidPair op left right loc
  else numeric op left right loc

/-- Compare two operands, and give 1 if a condition holds and 0 if it does not. -/
def truthOf (left right : Operand) (signedness condition : Qualifier) : Lower Value := do
  let onFalse ← freshLabel
  let done ← freshLabel
  emit .cmp signedness [left, right]
  branch condition.inverted onFalse
  let target ← temporary .int
  emit .mov .none [target, intConstant 1]
  jump done
  defineLabel onFalse
  emit .mov .none [target, intConstant 0]
  defineLabel done
  return ⟨target, .int⟩

def condition : BinOp → Qualifier
  | .eq => .eq
  | .ne => .ne
  | .lt => .lt
  | .le => .le
  | .gt => .gt
  | _ => .ge

def comparable (op : BinOp) (left right : Value) (loc : Location) : Lower (Value × Value) := do
  if left.type.isArithmetic && right.type.isArithmetic then
    let type := left.type.common right.type
    let left ← convert left type
    let right ← convert right type
    return (left, right)
  else if left.type.isPointer && right.type.isPointer then return (left, right)
  else if left.type.isPointer && right.type.isIntegral then return (left, ← convert right left.type)
  else if left.type.isIntegral && right.type.isPointer then return (← convert left right.type, right)
  else invalidPair op left right loc

def comparison (op : BinOp) (left right : Value) (loc : Location) : Lower Value := do
  let (left, right) ← comparable op left right loc
  truthOf left.operand right.operand (.signedness left.type.isUnsigned) (condition op)

def zeroLike (v : Value) : Operand := .imm v.type.encoding 0

def compareZero (v : Value) : Lower Unit :=
  emit .cmp (.signedness v.type.isUnsigned) [v.operand, zeroLike v]

def isZero (v : Value) : Lower Value :=
  truthOf v.operand (zeroLike v) (.signedness v.type.isUnsigned) .eq

def unarySymbol : UnOp → String
  | .plus => "+"
  | .neg => "-"
  | .bitNot => "~"
  | .not => "!"
  | .addrOf => "&"
  | .deref => "*"

def signed (op : UnOp) (v : Value) (loc : Location) : Lower Value := do
  if !(if op = .bitNot then v.type.isIntegral else v.type.isArithmetic) then
    invalid (unarySymbol op) (.one v.type) loc
  else
    let type := v.type.promote
    let v ← convert v type
    if op = .plus then return v
    else
      compute (if op = .neg then .neg else .not) (.signedness type.isUnsigned) type [v.operand]

def stepSymbol : Step → String
  | .inc => "++"
  | .dec => "--"

def stepOp : Step → BinOp
  | .inc => .add
  | .dec => .sub

def one (type : CType) : Value :=
  if type.isPointer then ⟨.imm .i64 1, .long⟩ else ⟨intConstant 1, .int⟩

def stepPlace (s : Step) (fixity : Fixity) (p : Place) (loc : Location) : Lower Value := do
  requireModifiable p loc
  let old ← readPlace p
  requireScalar old (stepSymbol s) loc
  let new ← arithmetic (stepOp s) old (one p.type) loc
  let new ← convert new p.type
  writePlace p new.operand
  match fixity with
  | .pre => return new
  | .post => return old

def castValue (v : Value) (target : CType) (loc : Location) : Lower Value :=
  if target.isVoid then return .void
  else if target.isScalar && v.type.isScalar then convert v target
  else invalid "cast" (.cast v.type target) loc

end Cof.Lowering
