/-
  Errors with the source line they are about.

      error[syntax error]: expected ';' after return, found end of file
        --> main.c:3:14
         |
      3 |     return x
         |              ^

  The margin is as wide as the line number.  The caret counts columns in bytes.
-/
import Cof.Compile

namespace Cof

namespace Diagnostic

def kind : CompileError → String
  | .lex _ => "lexical error"
  | .form .. => "syntax error"
  | .lower .. => "codegen error"
  | .write _ => "io error"

/-- The text of an error, without a position where the source line shows it. -/
def headline : CompileError → String
  | .lex e => e.fault.message
  | .form fault _ => fault.message
  | .lower fault loc => fault.message loc
  | .write e => e.message

def lines (source : Bytes) : List Bytes := source.splitOn '\n'.toUInt8

/-- Drop the bytes at the end of a line that are part of its end. -/
def trimEnd (line : Bytes) : Bytes := (line.reverse.dropWhile (· == '\r'.toUInt8)).reverse

/-- A line of a source as text; the first has number 1.  There is no text past the end. -/
def lineText (source : Bytes) (number : Nat) : String :=
  Utf8.lossy (trimEnd (((lines source)[number - 1]?).getD []))

def context (source : Bytes) (unit : String) (loc : Location) : String :=
  let number := toString loc.line
  let margin := repeated ' ' number.length
  margin ++ s!" --> {unit}:{loc.line}:{loc.column}\n"
    ++ margin ++ "  |\n"
    ++ number ++ " | " ++ lineText source loc.line ++ "\n"
    ++ margin ++ "  | " ++ repeated ' ' (loc.column - 1) ++ "^\n"

end Diagnostic

def CompileError.render (e : CompileError) (unit : String) (source : Bytes) : String :=
  s!"error[{Diagnostic.kind e}]: {Diagnostic.headline e}\n"
    ++ match e.loc? with
      | some loc => Diagnostic.context source unit loc
      | none => ""

end Cof
