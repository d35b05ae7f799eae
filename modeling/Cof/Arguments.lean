/-
  The arguments of the command line.

      cofcc [-o FILE] [--unit-name NAME] [-v] FILE

  Arguments are read one after the other.  An option's value is attached to it, or is the next argument
  unless that looks like an option.  After `--` everything is an input.  Reading stops at the first
  argument that is wrong, or that asks for the version or for help.
-/

namespace Cof

/-- What to compile, and how. -/
structure Options where
  input : String
  output : Option String
  unitName : Option String
  verbose : Bool
deriving DecidableEq, Repr

/-- The options that take a value. -/
inductive Valued where
  | output | unitName
deriving DecidableEq, Repr

def Valued.spelling : Valued → String
  | output => "--output"
  | unitName => "--unit-name"

/-- Why arguments make no sense. -/
inductive UsageError where
  | unexpected (arg : String)
  | missingValue (option : Valued)
  | emptyValue
  | unneededValue (option : String)
  | repeated (option : String)
  | missingInput
deriving DecidableEq, Repr

def UsageError.message : UsageError → String
  | unexpected arg => s!"error: unexpected argument '{arg}' found"
  | missingValue option => s!"error: a value is required for '{option.spelling}'"
  | emptyValue => "error: a path must not be empty"
  | unneededValue option => s!"error: '{option}' takes no value"
  | repeated option => s!"error: the argument '{option}' cannot be used multiple times"
  | missingInput => "error: an input file is required"

/-- Why reading the arguments stops early. -/
inductive Halt where
  | usage (e : UsageError)
  | version
  | help
deriving DecidableEq, Repr

namespace Arguments

/-- The arguments read so far. -/
structure Given where
  input : Option String := none
  output : Option String := none
  unitName : Option String := none
  verbose : Bool := false
  /-- The option whose value comes next. -/
  pending : Option Valued := none
  /-- Whether only inputs may follow. -/
  inputsOnly : Bool := false

def refuse {α : Type} (e : UsageError) : Except Halt α := .error (.usage e)

def Given.takeInput (g : Given) (arg : String) : Except Halt Given :=
  if g.input.isSome then refuse (.unexpected arg)
  else if arg.isEmpty then refuse .emptyValue
  else .ok { g with input := some arg }

def Given.takeValue (g : Given) (option : Valued) (v : String) : Except Halt Given :=
  match option with
  | .output =>
    if g.output.isSome then refuse (.repeated option.spelling)
    else if v.isEmpty then refuse .emptyValue
    else .ok { g with output := some v, pending := none }
  | .unitName =>
    if g.unitName.isSome then refuse (.repeated option.spelling)
    else .ok { g with unitName := some v, pending := none }

/-- Take the option that reports each stage, which may be given once. -/
def Given.takeVerbose (g : Given) : Except Halt Given :=
  if g.verbose then refuse (.repeated "--verbose") else .ok { g with verbose := true }

def Given.takeValued (g : Given) (option : Valued) : Option String → Except Halt Given
  | some v => g.takeValue option v
  | none => .ok { g with pending := some option }

def Given.takeFlag (g : Given) (name : String) (v : Option String) : Except Halt Given :=
  if v.isSome then refuse (.unneededValue s!"--{name}")
  else
    match name with
    | "version" => .error .version
    | "help" => .error .help
    | _ => g.takeVerbose

def attached (text : List Char) : Option String :=
  match text.dropWhile (· ≠ '=') with
  | [] => none
  | _ :: v => some (String.ofList v)

def Given.long (g : Given) (text : List Char) : Except Halt Given :=
  let name := String.ofList (text.takeWhile (· ≠ '='))
  match name with
  | "output" => g.takeValued .output (attached text)
  | "unit-name" => g.takeValued .unitName (attached text)
  | "verbose" | "version" | "help" => g.takeFlag name (attached text)
  | _ => refuse (.unexpected ("--" ++ name))

/-- Read short options that are written together, without the dash.  The one that takes a value takes
all the rest. -/
def Given.short (g : Given) : List Char → Except Halt Given
  | [] => .ok g
  | 'v' :: rest => do (← g.takeVerbose).short rest
  | 'V' :: _ => .error .version
  | 'h' :: _ => .error .help
  | ['o'] => g.takeValued .output none
  | 'o' :: '=' :: v => g.takeValue .output (String.ofList v)
  | 'o' :: v => g.takeValue .output (String.ofList v)
  | c :: _ => refuse (.unexpected s!"-{c}")

/-- Read an argument that looks like an option, which is never the value of another. -/
def Given.option (g : Given) (taken : Except Halt Given) : Except Halt Given :=
  match g.pending with
  | some option => refuse (.missingValue option)
  | none => taken

def Given.take (g : Given) (arg : String) : Except Halt Given :=
  if g.inputsOnly then g.takeInput arg
  else
    match arg.toList with
    | ['-', '-'] => g.option (.ok { g with inputsOnly := true })
    | '-' :: '-' :: text => g.option (g.long text)
    | '-' :: c :: text => g.option (g.short (c :: text))
    | _ =>
      match g.pending with
      | some option => g.takeValue option arg
      | none => g.takeInput arg

def Given.finish (g : Given) : Except Halt Options :=
  match g.pending, g.input with
  | some option, _ => refuse (.missingValue option)
  | none, none => refuse .missingInput
  | none, some input =>
    .ok { input, output := g.output, unitName := g.unitName, verbose := g.verbose }

def read (args : List String) : Except Halt Options := do
  (← args.foldlM Given.take {}).finish

end Arguments

/-! ## Defaults -/

/-- A file name without its extension.  A dot at its front starts none. -/
def stem (file : List Char) : List Char :=
  match file.reverse.dropWhile (· ≠ '.') with
  | [] | [_] => file
  | _ :: before => before.reverse

/-- The file name of a module beside a file.  Cutting the extension off after its dot may leave the name
of the directory above, and that is left as it is. -/
def moduleName (file : List Char) : List Char :=
  if stem file = ['.'] then file.take 2 else stem file ++ ".cof".toList

/-- Where the module goes unless the arguments say otherwise: beside the input, with the extension of
modules. -/
def defaultOutput (input : String) : String :=
  let path := input.toList
  let file := (path.reverse.takeWhile (· ≠ '/')).reverse
  String.ofList (path.take (path.length - file.length) ++ moduleName file)

namespace Options

def outputPath (o : Options) : String := o.output.getD (defaultOutput o.input)

def unit (o : Options) : String := o.unitName.getD o.input

end Options

end Cof
