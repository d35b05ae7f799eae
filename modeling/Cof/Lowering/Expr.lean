/-
  Code for expressions.

  `value` makes code for an expression and gives its result; `place` makes code that finds what an
  expression denotes, without reading it.  Both note the types they find.  Names, dereferences and
  indexing are places, and as values they are read.

  `&&` and `||` leave the right operand alone when the left one decides, by a branch around it.  The
  type of `c ? x : y` is found first, since both branches put their value into one variable.
-/
import Cof.Lowering.Value

namespace Cof.Lowering

/-! ## Places from parts -/

def notePlace (loc : Location) (p : Place) : Lower Place := do
  noteType loc p.type
  return p

def namedPlace (loc : Location) (name : Name) : Lower Place := do
  match ← lookup name with
  | some s => notePlace loc (.storage (storageOperand s) s.type)
  | none => fail (.undefinedVariable name) loc

def pointedPlace (loc : Location) (pointer : Value) : Lower Place :=
  match pointer.type.pointee? with
  | some type =>
    if type.isVoid then invalid "*" (.one pointer.type) loc
    else notePlace loc (.memory pointer.operand type)
  | none => invalid "*" (.one pointer.type) loc

/-- The place of an element.  The pointer may also be the index, and the index the base. -/
def elementPlace (loc : Location) (base index : Value) : Lower Place := do
  let (base, index) :=
    if !base.type.isPointer && index.type.isPointer then (index, base) else (base, index)
  match base.type.pointee? with
  | some type =>
    if index.type.isIntegral then
      let address ← offsetPointer base index .add
      notePlace loc (.memory address.operand type)
    else invalidPair .add base index loc
  | none => invalidPair .add base index loc

/-! ## Calls -/

/-- A function as it is called: its name and its type. -/
structure Callee where
  name : Name
  result : CType
  params : List CType
  variadic : Bool

def resolveCallee (callee : Expr) (loc : Location) : Lower Callee := do
  match callee with
  | .ident nameLoc name =>
    match ← lookup name with
    | none => fail (.undefinedFunction name) nameLoc
    | some s =>
      match s.type with
      | .function result params variadic =>
        noteType nameLoc s.type
        return ⟨name, result, params, variadic⟩
      | _ => unsupported (.callThrough name) loc
  | _ => unsupported .indirectCall loc

def requireCount (f : Callee) (count : Nat) (loc : Location) : Lower Unit :=
  if count = f.params.length || (f.variadic && f.params.length < count) then return ()
  else fail (.argumentCount f.name f.params.length count) loc

/-- Convert an argument for the parameter it matches, or for none. -/
def convertArgument (v : Value) (param : Option CType) (loc : Location) : Lower Value := do
  match param with
  | some type => convertAssigned v type loc
  | none =>
    requireScalar v "..." loc
    convertExtra v

def passArguments : Nat → List Operand → Lower Unit
  | _, [] => return ()
  | index, arg :: args => do
    emit .param .none [.size (UInt64.ofNat index), arg]
    passArguments (index + 1) args

def callWith (f : Callee) (args : List Operand) : Lower Value := do
  passArguments 0 args
  emit .call .none [.symbol Encoding.ptr.tag f.name]
  if f.result.isVoid then return .void
  else compute .result .none f.result []

/-! ## Conditions -/

/-- What decides a logical operator: on which condition the right operand is left alone, and the
results then and otherwise. -/
def shortCircuit (op : BinOp) : Qualifier × UInt64 × UInt64 :=
  if op = .and then (.eq, 0, 1) else (.ne, 1, 0)

def leaveIf (exit : Qualifier) (v : Value) (label : Int32) : Lower Unit := do
  compareZero v
  branch exit label

/-- The result of a logical operator, once the code for its operands is there. -/
def logicalResult (short full : UInt64) (shortLabel endLabel : Int32) : Lower Value := do
  let target ← temporary .int
  emit .mov .none [target, intConstant full]
  jump endLabel
  defineLabel shortLabel
  emit .mov .none [target, intConstant short]
  defineLabel endLabel
  return ⟨target, .int⟩

def branchTarget (type : CType) : Lower (Option Operand) := do
  if type.isVoid then return none else return some (← temporary type)

/-- Put the value of a branch where the value of the whole is expected, if it is. -/
def deliver (target : Option Operand) (v : Value) (type : CType) (loc : Location) : Lower Unit := do
  match target with
  | some target =>
    let v ← convertAssigned v type loc
    emit .mov .none [target, v.operand]
  | none => return ()

def inferred (e : Expr) : Lower CType := do
  match typeOf (← get).scopes e with
  | .ok type => return type
  | .error err => throw err

def hasAddress : Expr → Bool
  | .ident .. | .index .. | .unary _ .deref _ => true
  | _ => false

def noted (loc : Location) (v : Value) : Lower Value := do
  noteType loc v.type
  return v

/-- The value of `c ? x : y`, once the code for both branches is there. -/
def branchResult (loc : Location) (target : Option Operand) (type : CType) : Lower Value :=
  match target with
  | some target => noted loc ⟨target, type⟩
  | none => noted loc .void

/-- Store a value at a place.  The value as it was stored is the value of the assignment. -/
def storeResult (loc : Location) (p : Place) (v : Value) : Lower Value := do
  let result ← convertAssigned v p.type loc
  writePlace p result.operand
  noted loc ⟨result.operand, p.type⟩

/-! ## Expressions -/

mutual

def value : Expr → Lower Value
  | .int loc n => do noted loc (← constant (.ofLiteral n) n)
  | .char loc c => do noted loc (← constant .char c.toUInt64)
  | .float loc x => do noted loc (← constant .double x.bits)
  | .string loc bytes => do noted loc (← stringConstant bytes)
  | .ident loc name => do
    let p ← namedPlace loc name
    noted loc (← readPlace p)
  | .index loc base index => do
    let base ← value base
    let index ← value index
    let p ← elementPlace loc base index
    noted loc (← readPlace p)
  | .binary loc op left right =>
    if op.isLogical then do
      let (exit, short, full) := shortCircuit op
      let l ← value left
      requireScalar l op.symbol left.loc
      let shortLabel ← freshLabel
      leaveIf exit l shortLabel
      let r ← value right
      requireScalar r op.symbol right.loc
      let endLabel ← freshLabel
      leaveIf exit r shortLabel
      noted loc (← logicalResult short full shortLabel endLabel)
    else do
      let l ← value left
      let r ← value right
      if op.isComparison then noted loc (← comparison op l r loc)
      else noted loc (← arithmetic op l r loc)
  | .unary loc op operand =>
    match op with
    | .not => do
      let v ← value operand
      requireScalar v "!" loc
      noted loc (← isZero v)
    | .addrOf =>
      if hasAddress operand then do
        let p ← place operand
        noted loc (← addressOf p)
      else invalid "&" .notPlace loc
    | .deref => do
      let pointer ← value operand
      let p ← pointedPlace loc pointer
      noted loc (← readPlace p)
    | .plus | .neg | .bitNot => do
      let v ← value operand
      noted loc (← signed op v loc)
  | .step loc s fixity operand => do
    let p ← place operand
    noted loc (← stepPlace s fixity p loc)
  | .assign loc target op source => do
    let p ← place target
    requireModifiable p loc
    match op with
    | none =>
      let v ← value source
      storeResult loc p v
    | some op =>
      let current ← readPlace p
      let operand ← value source
      let v ← arithmetic op current operand loc
      storeResult loc p v
  | .call loc callee args => do
    let f ← resolveCallee callee loc
    requireCount f args.length loc
    let operands ← arguments f.params args
    noted loc (← callWith f operands)
  | .member loc _ _ name => unsupported (.memberAccess name) loc
  | .conditional loc cond yes no => do
    let yesType ← inferred yes
    let noType ← inferred no
    let type := yesType.conditional noType
    let c ← value cond
    requireScalar c "condition" cond.loc
    let elseLabel ← freshLabel
    let endLabel ← freshLabel
    compareZero c
    branch .eq elseLabel
    let target ← branchTarget type
    let y ← value yes
    deliver target y type yes.loc
    jump endLabel
    defineLabel elseLabel
    let n ← value no
    deliver target n type no.loc
    defineLabel endLabel
    branchResult loc target type
  | .cast loc type operand => do
    let v ← value operand
    noted loc (← castValue v type loc)
  | .sizeofType loc type => do noted loc (← constant .unsignedLong type.size)
  | .sizeofExpr loc operand => do
    let type ← inferred operand
    noted loc (← constant .unsignedLong type.size)

def place : Expr → Lower Place
  | .ident loc name => namedPlace loc name
  | .unary loc .deref operand => do
    let pointer ← value operand
    pointedPlace loc pointer
  | .index loc base index => do
    let base ← value base
    let index ← value index
    elementPlace loc base index
  | e => fail .notAssignable e.loc

/-- Make code for arguments, each converted for its parameter before the next. -/
def arguments (params : List CType) : List Expr → Lower (List Operand)
  | [] => return []
  | arg :: args => do
    let v ← value arg
    let v ← convertArgument v params.head? arg.loc
    let rest ← arguments params.tail args
    return v.operand :: rest

end

def conditionValue (e : Expr) : Lower Value := do
  let v ← value e
  requireScalar v "condition" e.loc
  return v

end Cof.Lowering
