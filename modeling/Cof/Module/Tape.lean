/-
  A growing byte store with a position, in the way a file in memory behaves.

  Writing replaces what stands at the position and runs on past the end; a position beyond the end
  is first reached by filling up with zeros.  Seeking only moves the position.

  Bytes are put one at a time, which keeps the store a plain array updated in place.
-/
import Cof.Bytes

namespace Cof

/-- Stored bytes and the position of the next write. -/
structure Tape where
  bytes : Array UInt8
  position : Nat
deriving DecidableEq, Repr

namespace Tape

def empty : Tape := ⟨#[], 0⟩

def pad (bytes : Array UInt8) : Nat → Array UInt8
  | 0 => bytes
  | n + 1 => pad (bytes.push 0) n

/-- Put one byte.  Where the position goes does not depend on what is stored. -/
def put (t : Tape) (b : UInt8) : Tape where
  bytes :=
    if h : t.position < t.bytes.size then t.bytes.set t.position b
    else (pad t.bytes (t.position - t.bytes.size)).push b
  position := t.position + 1

def write (t : Tape) (bs : Bytes) : Tape := bs.foldl put t

def seek (t : Tape) (position : Nat) : Tape := { t with position := position }

def seekEnd (t : Tape) : Tape := { t with position := t.bytes.size }

@[simp] theorem position_write (t : Tape) (bs : Bytes) : (t.write bs).position = t.position + bs.length := by
  induction bs generalizing t with
  | nil => rfl
  | cons b bs ih =>
    rw [List.length_cons, ← Nat.add_assoc, Nat.add_right_comm]
    exact ih (t.put b)

/-- A write beyond the end leaves zeros in the gap. -/
example : (((empty.write [1, 2]).seek 4).write [9]).bytes = #[1, 2, 0, 0, 9] := by decide

/-- A write inside replaces and runs on. -/
example : (((empty.write [1, 2, 3]).seek 2).write [8, 9]).bytes = #[1, 2, 8, 9] := by decide

end Tape

end Cof
