/-
  From source text to a module.

  Compiling reads the program, makes its code, and writes the module: headers, code, string table,
  symbol table.  A program that defines the entry function is executable, and its entry point is the
  start of the code.  The first error ends it.
-/
import Cof.Grammar.Program
import Cof.Lowering.Program

namespace Cof

/-- Why a source does not compile. -/
inductive CompileError where
  | lex (e : LexError)
  | form (fault : Grammar.Fault) (loc : Location)
  | lower (fault : Lowering.Fault) (loc : Location)
  | write (e : Module.WriteError)
deriving DecidableEq, Repr

namespace CompileError

def ofParse : ParseError → CompileError
  | .lex e => lex e
  | .form fault loc => form fault loc

def ofLower : LowerError → CompileError
  | .fault cause loc => lower cause loc
  | .write cause => write cause

def loc? : CompileError → Option Location
  | lex e => some e.loc
  | form _ loc => some loc
  | lower _ loc => some loc
  | write _ => none

def text : CompileError → String
  | lex e => e.message
  | form fault loc => (ParseError.form fault loc).message
  | lower fault loc => fault.message loc
  | write e => e.message

def message (e : CompileError) (unit : String) : String := unit ++ ": " ++ e.text

end CompileError

/-- The whole module, once all code is in it. -/
def Lowering.State.module (s : Lowering.State) (entryPoint : UInt32) : Except Module.WriteError Bytes := do
  let codeSize ← s.out.offset
  let tape ← s.out.finish entryPoint codeSize
  return tape.bytes.toList

def Program.entryPoint (p : Program) : UInt32 :=
  if p.start?.isSome then Module.codeOffset else 0

def compile (source : Bytes) : Except CompileError Bytes :=
  match Program.parse source with
  | .error e => .error (.ofParse e)
  | .ok p =>
    match Lowering.program p {} with
    | .error e _ => .error (.ofLower e)
    | .ok _ s => (s.module p.entryPoint).mapError .write

end Cof
