/-
  Byte strings, and the few facts about single bytes that the rest of the library needs.

  Source text, identifiers, string literals, encoded instructions and whole object modules are all
  byte strings, so they share one type: `Bytes`, a plain list.  A list costs a little memory and buys
  the whole theory of `List` for every statement about offsets, slices and concatenation.

  Numbers enter byte strings little-endian and in a fixed width.  `littleEndian w n` is the one
  encoder and `ofLittleEndian` the one decoder; every field of every record goes through them.
-/

namespace Cof

/-! ## Powers

Mathlib has a power of its own for all monoids, and wherever it is imported `2 ^ 32` would mean that one.
Powers of numbers are pinned to the core library here, so that a definition is the same with it and
without it. -/

@[default_instance 20000]
instance (priority := high) powNat : Pow Nat Nat := instPowNat

@[default_instance 20000]
instance (priority := high) powInt : Pow Int Nat := instPowNat

/-! ## Byte strings -/

abbrev Bytes := List UInt8

/-- Names are byte strings: identifiers are ASCII, and the object format stores bytes. -/
abbrev Name := Bytes

def ascii (s : String) : Bytes := s.toList.map Char.toUInt8

/-! ## Classes of bytes

All of them are ASCII classes: bytes from `0x80` up belong to none. -/

def isDigit (b : UInt8) : Bool := '0'.toUInt8 ≤ b && b ≤ '9'.toUInt8

def isLetter (b : UInt8) : Bool :=
  ('a'.toUInt8 ≤ b && b ≤ 'z'.toUInt8) || ('A'.toUInt8 ≤ b && b ≤ 'Z'.toUInt8)

def isWordStart (b : UInt8) : Bool := isLetter b || b == '_'.toUInt8

def isWordByte (b : UInt8) : Bool := isWordStart b || isDigit b

/-- A visible ASCII character: everything printable but the space. -/
def isGraphic (b : UInt8) : Bool := 0x21 ≤ b && b ≤ 0x7e

def hexValue? (b : UInt8) : Option Nat :=
  if isDigit b then some (b.toNat - '0'.toNat)
  else if 'a'.toUInt8 ≤ b && b ≤ 'f'.toUInt8 then some (b.toNat - 'a'.toNat + 10)
  else if 'A'.toUInt8 ≤ b && b ≤ 'F'.toUInt8 then some (b.toNat - 'A'.toNat + 10)
  else none

def isHexDigit (b : UInt8) : Bool := (hexValue? b).isSome

/-! ## Numbers as bytes -/

def littleEndian : Nat → Nat → Bytes
  | 0, _ => []
  | width + 1, n => UInt8.ofNat (n % 256) :: littleEndian width (n / 256)

def ofLittleEndian : Bytes → Nat
  | [] => 0
  | b :: bs => b.toNat + 256 * ofLittleEndian bs

@[simp] theorem length_littleEndian (width n : Nat) : (littleEndian width n).length = width := by
  induction width generalizing n with
  | zero => rfl
  | succ width ih => simp [littleEndian, ih]

theorem ofLittleEndian_littleEndian (width n : Nat) :
    ofLittleEndian (littleEndian width n) = n % 256 ^ width := by
  induction width generalizing n with
  | zero => simp [littleEndian, ofLittleEndian, Nat.mod_one]
  | succ width ih =>
    have hlow : (UInt8.ofNat (n % 256)).toNat = n % 256 := by
      simp
    rw [littleEndian, ofLittleEndian, ih, hlow, Nat.pow_succ, Nat.mul_comm (256 ^ width) 256,
      Nat.mod_mul]

theorem littleEndian_ofLittleEndian (bs : Bytes) :
    littleEndian bs.length (ofLittleEndian bs) = bs := by
  induction bs with
  | nil => rfl
  | cons b bs ih =>
    have hb : b.toNat < 256 := b.toNat_lt
    have hlow : (b.toNat + 256 * ofLittleEndian bs) % 256 = b.toNat := by omega
    have hhigh : (b.toNat + 256 * ofLittleEndian bs) / 256 = ofLittleEndian bs := by omega
    rw [List.length_cons, littleEndian, ofLittleEndian, hlow, hhigh, ih, UInt8.ofNat_toNat]

theorem ofLittleEndian_lt (bs : Bytes) : ofLittleEndian bs < 256 ^ bs.length := by
  induction bs with
  | nil => simp [ofLittleEndian]
  | cons b bs ih =>
    have hb : b.toNat < 256 := b.toNat_lt
    rw [ofLittleEndian, List.length_cons, Nat.pow_succ]
    omega

/-! ## Numbers as text -/

/-- `n` in lower-case hexadecimal, padded with zeros to at least `width` digits. -/
def hexText (width n : Nat) : String :=
  let digits := Nat.toDigits 16 n
  String.ofList (List.replicate (width - digits.length) '0' ++ digits)

def byteChar (b : UInt8) : Char := Char.ofNat b.toNat

def repeated (c : Char) (n : Nat) : String := String.ofList (List.replicate n c)

end Cof
