/-
  Reading bytes as UTF-8.

  Two readers are needed.  Messages and lexemes show any bytes at all, so `lossy` replaces each
  maximal ill-formed part by U+FFFD.  Names in a string table must be well formed, so `decode?`
  refuses a string with any such part.

  Both read the same `pieces`: one entry per well-formed character and `none` per ill-formed part.
  The pieces come from a machine that takes one byte at a time.  Between characters it holds nothing;
  inside one it holds a `Pending`: how many continuation bytes are owed, the range the next one must
  lie in, and the value so far.  The range is what rules out overlong forms, surrogates and values
  above U+10FFFF at the earliest byte, and it is also what makes the replaced part maximal: a byte
  outside the range ends the part before it and starts afresh.
-/
import Cof.Bytes

namespace Cof.Utf8

/-- A character that is still owed bytes. -/
structure Pending where
  /-- Continuation bytes still owed, at least one. -/
  owed : Nat
  /-- Least value of the next byte. -/
  lo : UInt8
  /-- Greatest value of the next byte. -/
  hi : UInt8
  /-- The bits read so far. -/
  value : Nat
deriving DecidableEq

/-- What a byte between characters does. -/
inductive Lead where
  /-- It is a whole character. -/
  | whole (c : Char)
  /-- It opens a longer one. -/
  | opens (p : Pending)
  /-- It belongs to no character. -/
  | bad

def lead (b : UInt8) : Lead :=
  let n := b.toNat
  if n < 0x80 then .whole (Char.ofNat n)
  else if n < 0xC2 then .bad
  else if n < 0xE0 then .opens ⟨1, 0x80, 0xBF, n - 0xC0⟩
  else if n = 0xE0 then .opens ⟨2, 0xA0, 0xBF, 0⟩
  else if n = 0xED then .opens ⟨2, 0x80, 0x9F, 0xD⟩
  else if n < 0xF0 then .opens ⟨2, 0x80, 0xBF, n - 0xE0⟩
  else if n = 0xF0 then .opens ⟨3, 0x90, 0xBF, 0⟩
  else if n < 0xF4 then .opens ⟨3, 0x80, 0xBF, n - 0xF0⟩
  else if n = 0xF4 then .opens ⟨3, 0x80, 0x8F, 4⟩
  else .bad

/-- The pieces of a byte string, onto those already read (newest first). -/
def piecesFrom (read : List (Option Char)) : Option Pending → Bytes → List (Option Char)
  | none, [] => read.reverse
  | some _, [] => (none :: read).reverse
  | none, b :: bs =>
    match lead b with
    | .whole c => piecesFrom (some c :: read) none bs
    | .opens p => piecesFrom read (some p) bs
    | .bad => piecesFrom (none :: read) none bs
  | some p, b :: bs =>
    if p.lo ≤ b ∧ b ≤ p.hi then
      let value := p.value * 64 + (b.toNat - 0x80)
      if p.owed ≤ 1 then piecesFrom (some (Char.ofNat value) :: read) none bs
      else piecesFrom read (some ⟨p.owed - 1, 0x80, 0xBF, value⟩) bs
    else
      match lead b with
      | .whole c => piecesFrom (some c :: none :: read) none bs
      | .opens q => piecesFrom (none :: read) (some q) bs
      | .bad => piecesFrom (none :: none :: read) none bs

/-- One entry per character, `none` for each maximal ill-formed part. -/
def pieces (bs : Bytes) : List (Option Char) := piecesFrom [] none bs

def lossy (bs : Bytes) : String :=
  String.ofList ((pieces bs).map (·.getD '�'))

def decode? (bs : Bytes) : Option String :=
  if (pieces bs).all Option.isSome then some (lossy bs) else none

def encode (s : String) : Bytes := s.toUTF8.toList

end Cof.Utf8
