/-
  Writing a module as a session.

  A session reserves room for the two headers, streams instructions behind them, collects symbols,
  and at the end appends the string table and the symbol table and goes back to fill in the header
  fields that were unknown before.  Nothing forces a caller to follow that order; each step only does
  what it says to the tape, and the result of any order is defined.

  An instruction goes out whole or not at all: it is encoded into a scratch buffer first, and only a complete
  encoding reaches the tape.  What an encoding that stops has produced stays in the buffer, so a session can go on
  after a refused instruction.

  An `Output` is a session past its headers.  What it writes is code, and the position tells how much there is.
-/
import Cof.Instr.Codec
import Cof.Module.StringTable
import Cof.Module.Tape

namespace Cof.Module

/-- Why a step of a session fails. -/
inductive WriteError where
  /-- The instruction has no encoding. -/
  | encode (cause : EncodeError)
  /-- A quantity does not fit in 32 bits. -/
  | tooLarge (what : String)
deriving DecidableEq, Repr

def WriteError.message : WriteError → String
  | .encode cause => cause.message
  | .tooLarge what => s!"{what} exceeds the 4 GiB module limit"

def fitWord32 (n : Nat) (what : String) : Except WriteError UInt32 :=
  if n < 2 ^ 32 then .ok (UInt32.ofNat n) else .error (.tooLarge what)

/-- A session. -/
structure Writer where
  tape : Tape
  /-- Position of the first code byte. -/
  codeStart : Nat
  codeSection : SectionHeader
  strings : StringTable
  /-- Newest first. -/
  records : List SymbolRecord
  /-- The encoding of the last instruction, as far as it went. -/
  scratch : Bytes := []
deriving DecidableEq, Repr

namespace Writer

def codeSectionName : Name := ascii ".text"

def start : Writer :=
  let (nameOffset, strings) := StringTable.empty.insert codeSectionName
  { tape := .empty
    codeStart := codeOffset.toNat
    codeSection := .code nameOffset
    strings := strings
    records := [] }

/-- Write both headers at the front, with zeros for what is not known yet. -/
def writeHeaders (w : Writer) : Writer :=
  let tape := ((w.tape.seek 0).write ({} : Header).toBytes).write w.codeSection.toBytes
  { w with tape := tape, codeStart := tape.position }

def write (w : Writer) (bytes : Bytes) : Writer := { w with scratch := bytes, tape := w.tape.write bytes }

def refuse (w : Writer) (bytes : Bytes) : Writer := { w with scratch := bytes }

def writeInstr (i : Instr) : EStateM WriteError Writer Unit := fun w =>
  match i.encode with
  | .ok bytes => .ok () (w.write bytes)
  | .error f => .error (.encode f.cause) (w.refuse f.written)

/-- How far the position is behind the start of the code. -/
def codeSize (w : Writer) : Nat := w.tape.position - w.codeStart

def offset (w : Writer) : Except WriteError UInt32 := fitWord32 w.codeSize "code section"

def addSymbol (w : Writer) (name : Name) (value size : UInt32) (kind : SymbolKind)
    (binding : Binding) : Writer :=
  let (nameOffset, strings) := w.strings.insert name
  let sectionIndex := if binding = .external then undefinedSection else 0
  { w with
    strings := strings
    records := ⟨nameOffset, value, size, kind, binding, sectionIndex⟩ :: w.records }

/-- Finish the module: tables after `codeSize` bytes of code, then the header fields.  A nonzero entry
point marks the module executable. -/
def finish (w : Writer) (entryPoint codeSize : UInt32) : Except WriteError Tape := do
  let strings := w.strings.toBytes
  let stringsAt := w.codeStart + codeSize.toNat
  let tape := (w.tape.seek stringsAt).write strings
  let symbolsAt := tape.position
  let tape := tape.write (w.records.reverse.flatMap SymbolRecord.toBytes)
  let flags := if entryPoint ≠ 0 then flagLinkable ||| flagExecutable else flagLinkable
  let header : Header := {
    flags := flags
    entryPoint := entryPoint
    stringTableOffset := ← fitWord32 stringsAt "string table offset"
    stringTableSize := ← fitWord32 strings.length "string table"
    symbolTableOffset := ← fitWord32 symbolsAt "symbol table offset"
    symbolTableSize := ← fitWord32 (w.records.length * symbolRecordSize) "symbol table" }
  let tape := (tape.seek 7).write [header.flags]
  let tape := (tape.seek 12).write header.layoutBytes
  let tape := (tape.seek (headerSize + 16)).write (word32 codeSize)
  return tape.seekEnd

end Writer

/-- A session that is past its headers. -/
structure Output extends Writer where
  behind : codeStart ≤ tape.position

namespace Output

def start : Output := ⟨Writer.start.writeHeaders, Nat.le_refl _⟩

def write (o : Output) (bytes : Bytes) : Output where
  toWriter := o.toWriter.write bytes
  behind := by
    refine Nat.le_trans o.behind ?_
    rw [Writer.write, Tape.position_write]
    exact Nat.le_add_right _ _

def refuse (o : Output) (bytes : Bytes) : Output := ⟨o.toWriter.refuse bytes, o.behind⟩

/-- Write an instruction, in the way a session does that may be anywhere. -/
def writeInstr (i : Instr) : EStateM WriteError Output Unit := fun o =>
  match i.encode with
  | .ok bytes => .ok () (o.write bytes)
  | .error f => .error (.encode f.cause) (o.refuse f.written)

def addSymbol (o : Output) (name : Name) (value size : UInt32) (kind : SymbolKind) (binding : Binding) : Output :=
  ⟨o.toWriter.addSymbol name value size kind binding, o.behind⟩

end Output

end Cof.Module
