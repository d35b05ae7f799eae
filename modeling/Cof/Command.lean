/-
  The command: read the arguments, read the source, compile it, write the module.

  All contact with the outside goes through a `Console`, so the same command runs on real files and a terminal and, as
  a function, on files that are only listed.
-/
import Cof.Arguments
import Cof.Diagnostic
import Cof.Module.View

namespace Cof

/-- Why a file can not be read or written: what the system says, and its number for it. -/
structure FileError where
  text : String
  number : Nat
deriving DecidableEq, Repr

def FileError.message (e : FileError) : String := s!"{e.text} (os error {e.number})"

/-- What the command needs from outside. -/
structure Console (m : Type → Type) where
  read : String → m (Except FileError Bytes)
  write : String → Bytes → m (Except FileError Unit)
  /-- Print on standard output. -/
  out : String → m Unit
  /-- Print on standard error. -/
  err : String → m Unit

namespace Command

def versionText : String := "cofcc 0.1.0\n"

def helpText : String :=
  "Compile a C subset to a COF object module\n\n"
    ++ "Usage: cofcc [OPTIONS] <INPUT>\n\n"
    ++ "Arguments:\n"
    ++ "  <INPUT>  C source file\n\n"
    ++ "Options:\n"
    ++ "  -o, --output <OUTPUT>        Output path (defaults to the input with a .cof extension)\n"
    ++ "      --unit-name <UNIT_NAME>  Unit name shown in diagnostics (defaults to the input path)\n"
    ++ "  -v, --verbose                Report each stage on stderr\n"
    ++ "  -h, --help                   Print help\n"
    ++ "  -V, --version                Print version\n"

/-- How a run of the command ends. -/
inductive Exit where
  | success | failure
  /-- The arguments make no sense. -/
  | usage
deriving DecidableEq, Repr

def Exit.code : Exit → UInt32
  | success => 0
  | failure => 1
  | usage => 2

variable {m : Type → Type} [Monad m]

def report (c : Console m) (o : Options) (line : String) : m Unit :=
  if o.verbose then c.err (line ++ "\n") else pure ()

def summary (v : Module.View) : String :=
  let entry := if v.header.isExecutable then ", entry point main" else ""
  s!"Generated {v.codeSection.size} bytes of code, {v.symbols.length} symbol(s)" ++ entry

def save (c : Console m) (o : Options) (bytes : Bytes) : m Exit := do
  match Module.View.parse bytes with
  | .ok v => report c o (summary v)
  | .error _ => pure ()
  match ← c.write o.outputPath bytes with
  | .error e =>
    c.err s!"Error: cannot write '{o.outputPath}': {e.message}\n"
    return .failure
  | .ok _ =>
    report c o s!"Wrote {o.outputPath} ({bytes.length} bytes)"
    return .success

def compileFile (c : Console m) (o : Options) : m Exit := do
  match ← c.read o.input with
  | .error e =>
    c.err s!"Error: cannot read '{o.input}': {e.message}\n"
    return .failure
  | .ok source =>
    report c o s!"Compiling {o.unit} ({source.length} bytes)..."
    match compile source with
    | .error e =>
      c.err (e.render o.unit source)
      return .failure
    | .ok bytes => save c o bytes

def run (c : Console m) (args : List String) : m Exit := do
  match Arguments.read args with
  | .ok o => compileFile c o
  | .error .version =>
    c.out versionText
    return .success
  | .error .help =>
    c.out helpText
    return .success
  | .error (.usage e) =>
    c.err (e.message ++ "\n")
    return .usage

end Command

end Cof
