/-
  What is known while code is made, and the steps that change it.

  A `Lower` step reads and changes a `State` and may fail.  A step that fails keeps the changes made up
  to there, since more declarations may be lowered after an error.

  Code goes out as it is made.  `emit` is the one way to add to it: the instruction is written to the module, and
  refused if it has no encoding.  What was written is remembered too, newest first.  Variables and labels are
  numbered through the whole program and a number is never given out twice.
-/
import Cof.Lowering.Error
import Cof.Program
import Cof.Scopes

namespace Cof.Lowering

/-! ## State -/

/-- Where `break` and `continue` go. -/
structure LoopLabels where
  onContinue : Int32
  onBreak : Int32
deriving DecidableEq, Repr

/-- What is known about a name that is not local to one function. -/
structure Global where
  name : Name
  type : CType
  isFunction : Bool
  defined : Bool
  isStatic : Bool
deriving DecidableEq, Repr

/-- A symbol that the module will list. -/
structure Listed where
  name : Name
  value : UInt32
  size : UInt32
  kind : Module.SymbolKind
  binding : Module.Binding
deriving DecidableEq, Repr

/-- Everything that is known while code is made. -/
structure State where
  /-- The module, as far as it is written. -/
  out : Module.Output := .start
  /-- The instructions that were written, newest first. -/
  code : List Instr := []
  scopes : Scopes := .empty
  /-- How many variables were numbered. -/
  variableCount : Nat := 0
  /-- How many labels were numbered. -/
  labelCount : Nat := 0
  /-- The enclosing loops, innermost first. -/
  loops : List LoopLabels := []
  returnType : Option CType := none
  currentFunction : Option Name := none
  /-- Names with linkage, in the order of their first declarations, newest first. -/
  globals : List Global := []
  /-- How many block-scope statics were named. -/
  statics : Nat := 0
  /-- The types found for expressions, by their positions, newest first. -/
  types : List (Location × CType) := []
  /-- The symbols that were listed in the module, newest first. -/
  symbols : List Listed := []

/-- The length of the code so far. -/
def State.size (s : State) : Nat := s.out.codeSize

abbrev Lower := EStateM LowerError State

/-! ## Failing -/

def fail {α : Type} (cause : Fault) (loc : Location) : Lower α := throw (.fault cause loc)

def unsupported {α : Type} (what : Unsupported) (loc : Location) : Lower α :=
  fail (.unsupported what) loc

def invalid {α : Type} (operator : String) (operands : Operands) (loc : Location) : Lower α :=
  fail (.invalidOperand operator operands) loc

/-! ## Emitting -/

def emit (opcode : Opcode) (qualifier : Qualifier) (operands : List Operand) : Lower Unit := fun s =>
  let instr : Instr := ⟨opcode, qualifier, operands⟩
  match s.out.writeInstr instr with
  | .ok _ out => .ok () { s with out, code := instr :: s.code }
  | .error e out => .error (.write e) { s with out }

def offset : Lower UInt32 := do
  match (← get).out.offset with
  | .ok n => return n
  | .error e => throw (.write e)

def freshVariable : Lower UInt32 :=
  modifyGet fun s => (UInt32.ofNat s.variableCount, { s with variableCount := s.variableCount + 1 })

def freshLabel : Lower Int32 :=
  modifyGet fun s => (Int32.ofNat s.labelCount, { s with labelCount := s.labelCount + 1 })

def temporary (type : CType) : Lower Operand := return .var type.encoding (← freshVariable)

def defineLabel (label : Int32) : Lower Unit :=
  let i := Instr.label label
  emit i.opcode i.qualifier i.operands

def jump (label : Int32) : Lower Unit := emit .jmp .none [.label label]

def branch (condition : Qualifier) (label : Int32) : Lower Unit := emit .br condition [.label label]

def createVariable (id : UInt32) (type : CType) : Lower Operand := do
  let var : Operand := .var type.encoding id
  emit .var .none [var, .size type.size]
  return var

/-! ## Names -/

def bindName (name : Name) (type : CType) (storage : Storage) (loc : Location) : Lower Unit := do
  let s ← get
  let (result, scopes) := s.scopes.add name type storage
  set { s with scopes }
  match result with
  | .ok _ => return ()
  | .error (.duplicate name) => fail (.duplicateSymbol name) loc

def enterScope : Lower Unit := modify fun s => { s with scopes := s.scopes.enter }

def exitScope : Lower Unit := modify fun s => { s with scopes := s.scopes.exit }

def lookup (name : Name) : Lower (Option Symbol) := return (← get).scopes.lookup name

def noteType (loc : Location) (type : CType) : Lower Unit :=
  modify fun s => { s with types := (loc, type) :: s.types }

def State.list (s : State) (symbol : Listed) : State :=
  { s with
    out := s.out.addSymbol symbol.name symbol.value symbol.size symbol.kind symbol.binding
    symbols := symbol :: s.symbols }

def listSymbol (symbol : Listed) : Lower Unit := modify (·.list symbol)

def global? (name : Name) : Lower (Option Global) :=
  return (← get).globals.find? (·.name == name)

def addGlobal (g : Global) : Lower Unit := modify fun s => { s with globals := g :: s.globals }

/-- A name with linkage is declared again: it may be defined now, or made static. -/
def refineGlobal (name : Name) (defined isStatic : Bool) : Lower Unit :=
  modify fun s => { s with
    globals := s.globals.map fun g =>
      if g.name == name then
        { g with defined := g.defined || defined, isStatic := g.isStatic || isStatic }
      else g }

/-! ## Loops -/

/-- Do something inside a loop.  The loop is left whether that succeeds or fails. -/
def inLoop {α : Type} (labels : LoopLabels) (body : Lower α) : Lower α := fun s =>
  match body { s with loops := labels :: s.loops } with
  | .ok a s => .ok a { s with loops := s.loops.tail }
  | .error e s => .error e { s with loops := s.loops.tail }

end Cof.Lowering
