/-
  Instructions as bytes.

      instruction  ::=  operation(1)  qualifier(1)  count(1)  operand*
      operand      ::=  kind(1)  tag(1)  payload
      payload      ::=  width(1) value(min width 8)     for a constant
                     |  width(1) id(4)                  for a variable
                     |  id(4)                           for a label
                     |  length(2) bytes                 for a symbol

  All numbers are little-endian.  A width above 255 is written as 255, and a constant keeps only the
  bytes that its width admits, so decoding gives back a *normal form* of what was encoded.  Two
  things cannot be written at all: more than 255 operands and a symbol above 65535 bytes.  A failed
  encoding still says which bytes went out before it stopped, since a caller may have seen them.

  Decoding walks a `Reader`, the bytes ahead and the offset of the first of them, so that every error
  names the offset it happened at.
-/
import Cof.Instr

namespace Cof

/-! ## Encoding -/

/-- Why an instruction has no encoding. -/
inductive EncodeError where
  | tooManyOperands (count : Nat)
  | symbolTooLong (length : Nat)
deriving DecidableEq, Repr

def EncodeError.message : EncodeError → String
  | .tooManyOperands n => s!"{n} operands exceed the encodable maximum"
  | .symbolTooLong n => s!"symbol operand of {n} bytes exceeds 65535"

/-- A failed encoding: the cause and the bytes that were already out. -/
structure EncodeFailure where
  cause : EncodeError
  written : Bytes
deriving DecidableEq, Repr

def EncodeFailure.after (f : EncodeFailure) (earlier : Bytes) : EncodeFailure :=
  { f with written := earlier ++ f.written }

def widthByte (width : UInt32) : UInt8 := UInt8.ofNat (min width.toNat 255)

def immediateLength (width : UInt8) : Nat := min width.toNat 8

namespace Operand

def opening (o : Operand) : Bytes := [o.kind.toByte, o.encoding.tag.toByte]

def encode (o : Operand) : Except EncodeFailure Bytes :=
  match o with
  | .imm enc value =>
    let width := widthByte enc.width
    .ok (o.opening ++ width :: littleEndian (immediateLength width) value.toNat)
  | .var enc id => .ok (o.opening ++ widthByte enc.width :: littleEndian 4 id.toNat)
  | .label id => .ok (o.opening ++ littleEndian 4 id.toUInt32.toNat)
  | .symbol _ name =>
    let length := name.length
    if length ≤ 65535 then .ok (o.opening ++ littleEndian 2 length ++ name)
    else .error ⟨.symbolTooLong length, o.opening⟩

def encodeAll : List Operand → Except EncodeFailure Bytes
  | [] => .ok []
  | o :: os =>
    match o.encode with
    | .error f => .error f
    | .ok first =>
      match encodeAll os with
      | .error f => .error (f.after first)
      | .ok rest => .ok (first ++ rest)

/-- What decoding gives back: widths stop at 255 and constants lose the bytes that are not written. -/
def normal : Operand → Operand
  | .imm enc value =>
    let width := widthByte enc.width
    .imm ⟨enc.tag, width.toUInt32⟩
      (UInt64.ofNat (value.toNat % 256 ^ immediateLength width))
  | .var enc id => .var ⟨enc.tag, (widthByte enc.width).toUInt32⟩ id
  | o => o

end Operand

namespace Instr

def encode (i : Instr) : Except EncodeFailure Bytes :=
  let count := i.operands.length
  if count ≤ 255 then
    let opening := [i.opcode.toByte, i.qualifier.toByte, UInt8.ofNat count]
    match Operand.encodeAll i.operands with
    | .error f => .error (f.after opening)
    | .ok rest => .ok (opening ++ rest)
  else .error ⟨.tooManyOperands count, []⟩

def normal (i : Instr) : Instr := { i with operands := i.operands.map Operand.normal }

end Instr

/-! ## Decoding -/

/-- Why bytes are no instructions, and where. -/
inductive DecodeError where
  | unexpectedEnd (offset : Nat)
  | unknownOpcode (byte : UInt8) (offset : Nat)
  | unknownQualifier (byte : UInt8) (offset : Nat)
  | unknownOperandKind (byte : UInt8) (offset : Nat)
  | unknownTypeTag (byte : UInt8) (offset : Nat)
deriving DecidableEq, Repr

namespace DecodeError

def message : DecodeError → String
  | .unexpectedEnd offset => s!"unexpected end of instruction stream at offset {offset}"
  | .unknownOpcode b offset => s!"unknown opcode 0x{hexText 2 b.toNat} at offset {offset}"
  | .unknownQualifier b offset => s!"unknown qualifier 0x{hexText 2 b.toNat} at offset {offset}"
  | .unknownOperandKind b offset => s!"unknown operand kind 0x{hexText 2 b.toNat} at offset {offset}"
  | .unknownTypeTag b offset => s!"unknown type tag 0x{hexText 2 b.toNat} at offset {offset}"

def offset : DecodeError → Nat
  | .unexpectedEnd n => n
  | .unknownOpcode _ n => n
  | .unknownQualifier _ n => n
  | .unknownOperandKind _ n => n
  | .unknownTypeTag _ n => n

end DecodeError

/-- Bytes still to be read, and the offset of the first of them. -/
structure Reader where
  offset : Nat
  ahead : Bytes
deriving DecidableEq, Repr

abbrev Decoder := StateT Reader (Except DecodeError)

namespace Decoder

def take (n : Nat) : Decoder Bytes := fun r =>
  let taken := r.ahead.take n
  if taken.length = n then .ok (taken, ⟨r.offset + n, r.ahead.drop n⟩)
  else .error (.unexpectedEnd r.offset)

def byte : Decoder UInt8 := fun r =>
  match r.ahead with
  | [] => .error (.unexpectedEnd r.offset)
  | b :: rest => .ok (b, ⟨r.offset + 1, rest⟩)

/-- The next byte, read by a table; `unknown` is the error for a byte outside it. -/
def entry {α : Type} (table : UInt8 → Option α) (unknown : UInt8 → Nat → DecodeError) :
    Decoder α := do
  let here := (← get).offset
  let b ← byte
  match table b with
  | some a => return a
  | none => throw (unknown b here)

def number (n : Nat) : Decoder Nat := return ofLittleEndian (← take n)

def operand : Decoder Operand := do
  let kind ← entry OperandKind.ofByte? .unknownOperandKind
  let tag ← entry TypeTag.ofByte? .unknownTypeTag
  match kind with
  | .imm =>
    let width ← byte
    let value ← number (immediateLength width)
    return .imm ⟨tag, width.toUInt32⟩ (UInt64.ofNat value)
  | .var =>
    let width ← byte
    let id ← number 4
    return .var ⟨tag, width.toUInt32⟩ (UInt32.ofNat id)
  | .label => return .label (UInt32.ofNat (← number 4)).toInt32
  | .symbol =>
    let length ← number 2
    return .symbol tag (← take length)

def operands : Nat → Decoder (List Operand)
  | 0 => return []
  | n + 1 => do
    let first ← operand
    let rest ← operands n
    return first :: rest

def instr : Decoder Instr := do
  let opcode ← entry Opcode.ofByte? .unknownOpcode
  let qualifier ← entry Qualifier.ofByte? .unknownQualifier
  let count ← byte
  let args ← operands count.toNat
  return ⟨opcode, qualifier, args⟩

/-- Instructions until the bytes end, onto those already read (newest first).  An instruction takes at
least three bytes, so `limit` never stops a stream that is no longer than it. -/
def stream (read : List Instr) : Nat → Reader → Except DecodeError (List Instr)
  | 0, _ => .ok read.reverse
  | limit + 1, r =>
    match r.ahead with
    | [] => .ok read.reverse
    | _ :: _ =>
      match instr r with
      | .error e => .error e
      | .ok (i, r') => stream (i :: read) limit r'

end Decoder

/-- The instruction at the start of some bytes, and how many bytes it takes. -/
def Instr.decode (bytes : Bytes) : Except DecodeError (Instr × Nat) :=
  match Decoder.instr ⟨0, bytes⟩ with
  | .error e => .error e
  | .ok (i, r) => .ok (i, r.offset)

def Instr.decodeStream (bytes : Bytes) : Except DecodeError (List Instr) :=
  Decoder.stream [] bytes.length ⟨0, bytes⟩

/-- The bytes of instructions one after another, as far as they have encodings. -/
def Instr.encodeStream (code : List Instr) : Bytes :=
  code.flatMap fun i =>
    match i.encode with
    | .ok bytes => bytes
    | .error _ => []

end Cof
