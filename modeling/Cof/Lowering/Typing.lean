/-
  The type of an expression, found without making code for it.

  The operand of `sizeof` is typed and never evaluated, and the type of `c ? x : y` has to be known
  before code for either branch.  Arrays and functions keep their types here; `decay` is applied where
  an operand is used as a value.
-/
import Cof.Lowering.Error
import Cof.Scopes

namespace Cof.Lowering

def integersOnly : BinOp → Bool
  | .rem | .bitAnd | .bitOr | .bitXor | .shl | .shr => true
  | _ => false

def isShift : BinOp → Bool
  | .shl | .shr => true
  | _ => false

/-- The type of an operation on numbers, if the operator takes them. -/
def resultType? (op : BinOp) (left right : CType) : Option CType :=
  let allowed :=
    if integersOnly op then left.isIntegral && right.isIntegral
    else left.isArithmetic && right.isArithmetic
  if !allowed then none
  else if isShift op then some left.promote
  else some (left.common right)

/-- The type of a string literal as an array, with the zero byte at its end. -/
def stringType (bytes : Bytes) : CType := .array .char (.fixed (UInt64.ofNat (bytes.length + 1)))

def calleeType : CType → CType
  | .pointer target => target
  | t => t

def binaryType (op : BinOp) (left right : CType) (loc : Location) : Except LowerError CType :=
  if op = .sub && left.isPointer && right.isPointer then .ok .long
  else if (op = .add || op = .sub) && left.isPointer then .ok left
  else if op = .add && right.isPointer then .ok right
  else if isShift op then .ok left.promote
  else
    match resultType? op left right with
    | some type => .ok type
    | none => .error (.fault (.invalidOperand op.symbol (.two left right)) loc)

/-- The type of an operator in front of an operand, from the operand's type. -/
def unaryType (op : UnOp) (type : CType) (loc : Location) : Except LowerError CType :=
  match op with
  | .not => .ok .int
  | .addrOf => .ok (.pointer type)
  | .deref =>
    match type.decay.pointee? with
    | some target => .ok target
    | none => .error (.fault (.invalidOperand "*" (.one type.decay)) loc)
  | .plus | .neg | .bitNot => .ok type.decay.promote

def indexType (base index : CType) (loc : Location) : Except LowerError CType :=
  match base.pointee? <|> index.pointee? with
  | some type => .ok type
  | none => .error (.fault (.invalidOperand "[]" (.two base index)) loc)

def typeOf (scopes : Scopes) : Expr → Except LowerError CType
  | .int _ value => .ok (.ofLiteral value)
  | .float .. => .ok .double
  | .char .. => .ok .char
  | .string _ bytes => .ok (stringType bytes)
  | .ident loc name =>
    match scopes.lookup name with
    | some symbol => .ok symbol.type
    | none => .error (.fault (.undefinedVariable name) loc)
  | .binary loc op left right =>
    if op.isComparison || op.isLogical then .ok .int
    else do
      let left ← typeOf scopes left
      let right ← typeOf scopes right
      binaryType op left.decay right.decay loc
  | .unary loc op operand => do unaryType op (← typeOf scopes operand) loc
  | .step _ _ _ operand => typeOf scopes operand
  | .assign _ target _ _ => typeOf scopes target
  | .call loc callee _ => do
    match (calleeType (← typeOf scopes callee)).result? with
    | some result => .ok result
    | none => .error (.fault (.unsupported .callOfNonFunction) loc)
  | .index loc base index => do
    let base ← typeOf scopes base
    let index ← typeOf scopes index
    indexType base.decay index.decay loc
  | .member loc _ _ name => .error (.fault (.unsupported (.memberAccess name)) loc)
  | .conditional _ _ yes no => do
    let yes ← typeOf scopes yes
    let no ← typeOf scopes no
    return yes.conditional no
  | .cast _ type _ => .ok type
  | .sizeofType .. | .sizeofExpr .. => .ok .unsignedLong

end Cof.Lowering
