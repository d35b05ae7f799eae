/-
  The string table of a module: names one after another, each closed by a NUL.

  Offset 0 is the empty name and equal names share one entry.  A table under construction remembers
  the offset of every name it holds; a finished table is just its bytes, and a name is read back by
  walking from its offset to the next NUL.
-/
import Cof.Module.Records
import Cof.Utf8

namespace Cof.Module

/-- A string table under construction. -/
structure StringTable where
  /-- Every name with its offset, newest first. -/
  entries : List (Name × UInt32)
  /-- The bytes of the table, in chunks, newest first. -/
  chunks : List Bytes
  /-- How many bytes the chunks have. -/
  size : Nat
deriving DecidableEq, Repr

namespace StringTable

def empty : StringTable := ⟨[([], 0)], [[0]], 1⟩

def find? (t : StringTable) (name : Name) : Option UInt32 := t.entries.lookup name

def insert (t : StringTable) (name : Name) : UInt32 × StringTable :=
  match t.find? name with
  | some offset => (offset, t)
  | none =>
    let offset := UInt32.ofNat t.size
    let chunk := name ++ [0]
    (offset, ⟨(name, offset) :: t.entries, chunk :: t.chunks, t.size + chunk.length⟩)

def toBytes (t : StringTable) : Bytes := t.chunks.reverse.flatten

/-- The name at an offset of a finished table: the bytes up to the next NUL, which must be there and
must be well-formed UTF-8. -/
def lookup (table : Bytes) (offset : UInt32) : Except FormatError Name :=
  let start := offset.toNat
  if table.length < start then .error (.badStringOffset offset)
  else
    let name := (table.drop start).takeWhile (· != 0)
    match (table.drop start).drop name.length with
    | [] => .error (.badStringOffset offset)
    | _ :: _ =>
      match Utf8.decode? name with
      | some _ => .ok name
      | none => .error (.badStringOffset offset)

end StringTable

end Cof.Module
