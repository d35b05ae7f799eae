/-
  How operands are annotated with types.

  Code carries only a trace of the source types: a one-byte tag and a width in bytes.  Two source
  types with the same pair need no conversion between them.
-/
import Cof.Bytes

namespace Cof

/-- The type tag of an operand. -/
inductive TypeTag where
  | void | i8 | i16 | i32 | i64 | u8 | u16 | u32 | u64 | f32 | f64 | ptr | array
deriving DecidableEq, Repr

namespace TypeTag

def all : List TypeTag :=
  [void, i8, i16, i32, i64, u8, u16, u32, u64, f32, f64, ptr, array]

def toByte : TypeTag → UInt8
  | void => 0x00 | i8 => 0x01 | i16 => 0x02 | i32 => 0x03 | i64 => 0x04
  | u8 => 0x05 | u16 => 0x06 | u32 => 0x07 | u64 => 0x08
  | f32 => 0x09 | f64 => 0x0A | ptr => 0x0B | array => 0x0C

def ofByte? (b : UInt8) : Option TypeTag := all.find? (·.toByte == b)

@[simp] theorem ofByte?_toByte (t : TypeTag) : ofByte? t.toByte = some t := by
  cases t <;> rfl

theorem toByte_of_ofByte? {b : UInt8} {t : TypeTag} (h : ofByte? b = some t) : t.toByte = b := by
  simpa using List.find?_some h

end TypeTag

/-- A tag with a width in bytes. -/
structure Encoding where
  tag : TypeTag
  width : UInt32
deriving DecidableEq, Repr

namespace Encoding

def void : Encoding := ⟨.void, 0⟩
def i32 : Encoding := ⟨.i32, 4⟩
def i64 : Encoding := ⟨.i64, 8⟩
def u64 : Encoding := ⟨.u64, 8⟩
def ptr : Encoding := ⟨.ptr, 8⟩

end Encoding

end Cof
