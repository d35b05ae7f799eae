/-
  The instruction set: three-address code over virtual variables, labels and symbols.

  An instruction has an operation, a qualifier and operands.  The qualifier says what a branch tests,
  how an operation reads its operands (signed or unsigned), or what a `sym` directive introduces.
  Both are numbered sparsely; `toByte` and `ofByte?` are the two readings of each table, and every
  table comes with the pair of lemmas that make them inverse to each other.

  A label is defined by a directive that spells its number: `sym/label` naming `.L7`.  `Instr.label`
  writes that directive and `Instr.definedLabel?` reads it.
-/
import Cof.Digits
import Cof.Encoding

namespace Cof

/-! ## Operations -/

/-- What an instruction does. -/
inductive Opcode where
  | nop | mov | load | store | lea | cvt
  | add | sub | mul | div | mod | neg
  | and | or | xor | not | shl | shr
  | cmp | jmp | br
  | call | ret | param | result | setret | bindparam
  | var | scopeBegin | scopeEnd | prologue | epilogue
  | sym | data
deriving DecidableEq, Repr

namespace Opcode

def all : List Opcode :=
  [nop, mov, load, store, lea, cvt, add, sub, mul, div, mod, neg, and, or, xor, not, shl, shr,
   cmp, jmp, br, call, ret, param, result, setret, bindparam,
   var, scopeBegin, scopeEnd, prologue, epilogue, sym, data]

def toByte : Opcode → UInt8
  | nop => 0x00 | mov => 0x01 | load => 0x02 | store => 0x03 | lea => 0x04 | cvt => 0x05
  | add => 0x10 | sub => 0x11 | mul => 0x12 | div => 0x13 | mod => 0x14 | neg => 0x15
  | and => 0x18 | or => 0x19 | xor => 0x1A | not => 0x1B | shl => 0x1C | shr => 0x1D
  | cmp => 0x20 | jmp => 0x21 | br => 0x22
  | call => 0x30 | ret => 0x31 | param => 0x32 | result => 0x33 | setret => 0x34
  | bindparam => 0x35
  | var => 0x40 | scopeBegin => 0x41 | scopeEnd => 0x42 | prologue => 0x43 | epilogue => 0x44
  | sym => 0x50 | data => 0x51

def ofByte? (b : UInt8) : Option Opcode := all.find? (·.toByte == b)

def mnemonic : Opcode → String
  | nop => "nop" | mov => "mov" | load => "load" | store => "store" | lea => "lea" | cvt => "cvt"
  | add => "add" | sub => "sub" | mul => "mul" | div => "div" | mod => "mod" | neg => "neg"
  | and => "and" | or => "or" | xor => "xor" | not => "not" | shl => "shl" | shr => "shr"
  | cmp => "cmp" | jmp => "jmp" | br => "br"
  | call => "call" | ret => "ret" | param => "param" | result => "result" | setret => "setret"
  | bindparam => "bindparam"
  | var => "var" | scopeBegin => "scope.begin" | scopeEnd => "scope.end"
  | prologue => "prologue" | epilogue => "epilogue"
  | sym => "sym" | data => "data"

@[simp] theorem ofByte?_toByte (o : Opcode) : ofByte? o.toByte = some o := by
  cases o <;> rfl

theorem toByte_of_ofByte? {b : UInt8} {o : Opcode} (h : ofByte? b = some o) : o.toByte = b := by
  simpa using List.find?_some h

end Opcode

/-! ## Qualifiers -/

/-- The second byte of an instruction: a condition, a signedness, or the kind of a `sym` directive. -/
inductive Qualifier where
  | none | eq | ne | lt | le | gt | ge
  | signed | unsigned
  | label | function | global | external | static
deriving DecidableEq, Repr

namespace Qualifier

def all : List Qualifier :=
  [none, eq, ne, lt, le, gt, ge, signed, unsigned, label, function, global, external, static]

def toByte : Qualifier → UInt8
  | none => 0x00 | eq => 0x01 | ne => 0x02 | lt => 0x03 | le => 0x04 | gt => 0x05 | ge => 0x06
  | signed => 0x10 | unsigned => 0x11
  | label => 0x20 | function => 0x21 | global => 0x22 | external => 0x23 | static => 0x24

def ofByte? (b : UInt8) : Option Qualifier := all.find? (·.toByte == b)

def mnemonic : Qualifier → String
  | none => "" | eq => "eq" | ne => "ne" | lt => "lt" | le => "le" | gt => "gt" | ge => "ge"
  | signed => "s" | unsigned => "u"
  | label => "label" | function => "function" | global => "global" | external => "extern"
  | static => "static"

/-- The condition that holds exactly when this one does not.  Other qualifiers are left alone. -/
def inverted : Qualifier → Qualifier
  | eq => ne | ne => eq | lt => ge | ge => lt | gt => le | le => gt
  | q => q

/-- The qualifier of an operation on signed or unsigned operands. -/
def signedness (isUnsigned : Bool) : Qualifier := if isUnsigned then unsigned else signed

@[simp] theorem ofByte?_toByte (q : Qualifier) : ofByte? q.toByte = some q := by
  cases q <;> rfl

theorem toByte_of_ofByte? {b : UInt8} {q : Qualifier} (h : ofByte? b = some q) :
    q.toByte = b := by
  simpa using List.find?_some h

end Qualifier

/-! ## Operands -/

/-- The first byte of an operand. -/
inductive OperandKind where
  | imm | var | label | symbol
deriving DecidableEq, Repr

namespace OperandKind

def all : List OperandKind := [imm, var, label, symbol]

def toByte : OperandKind → UInt8
  | imm => 0x01 | var => 0x02 | label => 0x03 | symbol => 0x04

def ofByte? (b : UInt8) : Option OperandKind := all.find? (·.toByte == b)

def mnemonic : OperandKind → String
  | imm => "imm" | var => "var" | label => "label" | symbol => "sym"

@[simp] theorem ofByte?_toByte (k : OperandKind) : ofByte? k.toByte = some k := by
  cases k <;> rfl

theorem toByte_of_ofByte? {b : UInt8} {k : OperandKind} (h : ofByte? b = some k) :
    k.toByte = b := by
  simpa using List.find?_some h

end OperandKind

/-- What an instruction works on. -/
inductive Operand where
  /-- A constant. -/
  | imm (enc : Encoding) (value : UInt64)
  /-- A virtual variable. -/
  | var (enc : Encoding) (id : UInt32)
  /-- A place in the code. -/
  | label (id : Int32)
  /-- A named object or function, or raw data.  Its width is not encoded. -/
  | symbol (tag : TypeTag) (name : Bytes)
deriving DecidableEq, Repr

namespace Operand

def size (value : UInt64) : Operand := .imm .u64 value

def kind : Operand → OperandKind
  | .imm .. => .imm
  | .var .. => .var
  | .label .. => .label
  | .symbol .. => .symbol

/-- The annotation of an operand.  Labels have none and symbols only a tag. -/
def encoding : Operand → Encoding
  | .imm enc _ => enc
  | .var enc _ => enc
  | .label _ => .void
  | .symbol tag _ => ⟨tag, 0⟩

end Operand

/-! ## Instructions -/

/-- One instruction. -/
structure Instr where
  opcode : Opcode
  qualifier : Qualifier := .none
  operands : List Operand := []
deriving DecidableEq, Repr

def decimal (n : Nat) : Bytes := (Nat.toDigits 10 n).map Char.toUInt8

/-- The decimal digits of an integer, after a minus sign if it is negative. -/
def decimalInt (i : Int) : Bytes :=
  if i < 0 then '-'.toUInt8 :: decimal (-i).toNat else decimal i.toNat

/-- Read an integer: an optional sign, then decimal digits and nothing else. -/
def integer? (s : Bytes) : Option Int :=
  let digits (t : Bytes) : Option Int :=
    if !t.isEmpty && t.all isDigit then some (Int.ofNat (numeral 10 t)) else none
  match s with
  | [] => none
  | b :: t =>
    if b = '-'.toUInt8 then (digits t).map (- ·)
    else if b = '+'.toUInt8 then digits t
    else digits s

def labelName (id : Int32) : Name := ascii ".L" ++ decimalInt id.toInt

namespace Instr

def label (id : Int32) : Instr :=
  { opcode := .sym, qualifier := .label, operands := [.symbol .void (labelName id)] }

/-- The label that a directive defines, if it is such a directive: the symbol after `.L` is an
integer of 32 bits, in any spelling. -/
def definedLabel? (i : Instr) : Option Int32 :=
  match i with
  | ⟨.sym, .label, .symbol _ (dot :: ell :: digits) :: _⟩ =>
    if dot = '.'.toUInt8 ∧ ell = 'L'.toUInt8 then
      (integer? digits).bind fun n =>
        if -(2 ^ 31) ≤ n ∧ n < 2 ^ 31 then some (Int32.ofInt n) else none
    else none
  | _ => none

end Instr

end Cof
