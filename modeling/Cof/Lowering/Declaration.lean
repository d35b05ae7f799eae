/-
  Code for declarations.

  A name with linkage may be declared many times, with one type, and defined once.  A variable of static
  storage is defined by a directive that carries its size and its value, which has to be a literal,
  perhaps negated.  A block-scope static has a name of its own in the module, made from the function's
  name, its own and a number.  Other variables of a block are created where they are declared.
-/
import Cof.Lowering.Expr

namespace Cof.Lowering

/-! ## Functions -/

/-- Take note of a function with linkage, for the first time or again. -/
def recordFunction (f : FunctionDecl) (isDefinition : Bool) : Lower Unit := do
  let conflict (why : Conflict) : Lower Unit := fail (.conflictingDeclaration f.name why) f.loc
  match ← global? f.name with
  | some g =>
    if !g.isFunction then conflict .wasVariable
    else if g.type ≠ f.type then conflict (.typeDiffers f.type g.type)
    else if g.defined && isDefinition then conflict .alreadyDefined
    else refineGlobal f.name isDefinition (f.linkage = .static)
  | none =>
    addGlobal { name := f.name, type := f.type, isFunction := true, defined := isDefinition,
                isStatic := f.linkage = .static }

/-- Bind a name with linkage in the current scope, unless it is bound there already. -/
def bindGlobal (name : Name) (type : CType) (loc : Location) : Lower Unit := do
  if ((← get).scopes.lookupCurrent name).isNone then bindName name type (.global name) loc

def declareFunction (f : FunctionDecl) (isDefinition : Bool) : Lower Unit := do
  recordFunction f isDefinition
  bindGlobal f.name f.type f.loc

/-! ## Constants -/

/-- The literal that a constant is made of, and whether it is negated. -/
def literalOf : Expr → Expr × Bool
  | .unary _ .neg operand => (operand, true)
  | e => (e, false)

def floatingLiteral? : Expr → Option Binary64
  | .int _ n => some (.ofNat n.toNat)
  | .char _ c => some (.ofNat c.toNat)
  | .float _ x => some x
  | _ => none

/-- The integer value of a literal, in 64 bits.  A floating literal loses its fraction. -/
def integerLiteral? : Expr → Option UInt64
  | .int _ n => some n
  | .char _ c => some c.toUInt64
  | .float _ x => some (Int64.ofInt x.truncate).toUInt64
  | _ => none

def constantBits? (type : CType) (init : Expr) : Option UInt64 :=
  let (literal, negated) := literalOf init
  match type with
  | .floating width =>
    (floatingLiteral? literal).map fun x =>
      let x := if negated then x.neg else x
      match width with
      | .f32 => x.toBinary32.toUInt64
      | .f64 => x.bits
  | _ => (integerLiteral? literal).map fun n => if negated then 0 - n else n

/-- The operand that gives a variable of static storage its value. -/
def constantOperand (v : VarDecl) (init : Expr) : Lower Operand :=
  if !v.type.isScalar then unsupported (.initializer v.name v.type) init.loc
  else
    match constantBits? v.type init with
    | some bits => return .imm v.type.encoding bits
    | none => unsupported (.nonConstantInitializer v.name) init.loc

/-! ## Variables of static storage -/

/-- The value that a variable of static storage starts with, if one is given. -/
def initialValue (v : VarDecl) : Lower (List Operand) := do
  match v.init with
  | some init => return [← constantOperand v init]
  | none => return []

def defineObject (name : Name) (v : VarDecl) (isStatic : Bool) : Lower Unit := do
  let value ← initialValue v
  let start ← offset
  emit .sym (if isStatic then .static else .global)
    (.symbol v.type.encoding.tag name :: .size v.type.size :: value)
  listSymbol {
    name := name, value := start, size := CType.clampWord32 v.type.size, kind := .object,
    binding := if isStatic then .internal else .global }

def announceExternal (v : VarDecl) : Lower Unit :=
  emit .sym .external [.symbol v.type.encoding.tag v.name]

/-- Whether an earlier declaration of the name disagrees with this one of a variable. -/
def disagrees (g : Global) (v : VarDecl) : Bool := g.isFunction || g.type ≠ v.type

/-- Take note of a variable at file scope, for the first time or again, and bind it. -/
def recordVariable (v : VarDecl) (isDefinition isStatic : Bool) : Lower Unit := do
  match ← global? v.name with
  | some g =>
    if disagrees g v then fail (.conflictingDeclaration v.name (.redeclared v.type)) v.loc
    else if g.defined && isDefinition then fail (.duplicateSymbol v.name) v.loc
    else
      refineGlobal v.name isDefinition isStatic
      bindGlobal v.name v.type v.loc
  | none =>
    addGlobal { name := v.name, type := v.type, isFunction := false, defined := isDefinition, isStatic }
    bindName v.name v.type (.global v.name) v.loc

/-- Declare a variable at file scope.  `extern` without a value does not define it. -/
def globalVariable (v : VarDecl) : Lower Unit := do
  let isDefinition := v.linkage ≠ .external || v.init.isSome
  let isStatic := v.linkage = .static
  recordVariable v isDefinition isStatic
  if isDefinition then defineObject v.name v isStatic else announceExternal v

/-! ## Variables of blocks -/

def staticName (function name : Name) (number : Nat) : Name :=
  function ++ ascii "." ++ name ++ ascii "." ++ decimal number

def localExternal (v : VarDecl) : Lower Unit := do
  if v.init.isSome then unsupported (.externalInitializer v.name) v.loc
  else
    match ← global? v.name with
    | some g =>
      if disagrees g v then fail (.conflictingDeclaration v.name (.redeclared v.type)) v.loc
      else
        bindName v.name v.type (.global v.name) v.loc
        announceExternal v
    | none =>
      bindName v.name v.type (.global v.name) v.loc
      addGlobal { name := v.name, type := v.type, isFunction := false, defined := false,
                  isStatic := false }
      announceExternal v

def localStatic (v : VarDecl) : Lower Unit := do
  let s ← get
  let name := staticName (s.currentFunction.getD []) v.name s.statics
  set { s with statics := s.statics + 1 }
  bindName v.name v.type (.global name) v.loc
  defineObject name v true

def localAutomatic (v : VarDecl) : Lower Unit := do
  if v.type.size = 0 then unsupported (.incompleteVariable v.name v.type) v.loc
  else
    let id ← freshVariable
    bindName v.name v.type (.slot id) v.loc
    let target ← createVariable id v.type
    match v.init with
    | none => return ()
    | some init =>
      if v.type.isArray then unsupported (.arrayInitializer v.name) init.loc
      else
        let given ← value init
        let given ← convertAssigned given v.type init.loc
        emit .mov .none [target, given.operand]

def localDeclaration : Declaration → Lower Unit
  | .proto f => declareFunction f false
  | .var v =>
    match v.linkage with
    | .external => localExternal v
    | .static => localStatic v
    | .plain => localAutomatic v

def localDeclarations (ds : List Declaration) : Lower Unit := ds.forM localDeclaration

end Cof.Lowering
