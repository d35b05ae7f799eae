/-
  The command on the real files and terminal.
-/
import Cof.Command

namespace Cof.Command

def fileError : IO.Error → FileError
  | .alreadyExists _ n text | .invalidArgument _ n text | .permissionDenied _ n text
  | .resourceExhausted _ n text | .inappropriateType _ n text | .noSuchThing _ n text =>
    ⟨text, n.toNat⟩
  | .interrupted _ n text | .noFileOrDirectory _ n text => ⟨text, n.toNat⟩
  | .otherError n text | .resourceBusy n text | .resourceVanished n text
  | .unsupportedOperation n text | .hardwareFault n text | .unsatisfiedConstraints n text
  | .illegalOperation n text | .protocolError n text | .timeExpired n text => ⟨text, n.toNat⟩
  | .unexpectedEof => ⟨"unexpected end of file", 0⟩
  | .userError text => ⟨text, 0⟩

def systemConsole : Console IO where
  read path := do
    try
      let file ← IO.FS.Handle.mk path .read
      return .ok (← file.readBinToEnd).toList
    catch e => return .error (fileError e)
  write path bytes := do
    try
      IO.FS.writeBinFile path ⟨bytes.toArray⟩
      return .ok ()
    catch e => return .error (fileError e)
  out text := IO.print text
  err text := IO.eprint text

end Cof.Command

def main (args : List String) : IO UInt32 :=
  return (← Cof.Command.run Cof.Command.systemConsole args).code
