/-
  Floating numbers, as the bit patterns that code carries.

  The compiler never computes with floating numbers; it reads them from decimal text, rounds them to
  the width of a variable, and writes their bits.  So a number is its 64 bits, and everything here is
  exact arithmetic on naturals.

  The heart is `Format.round`: the bits of the number nearest to a ratio, a tie going to the even
  neighbour.  It scales the ratio so that its integer part has just the bits of the format, rounds that
  to an integer, and reads exponent and fraction off in one sum: consecutive bit patterns are
  consecutive numbers, so a carry out of the fraction moves into the exponent by itself, and a number
  beyond the last finite one meets the pattern of infinity.
-/
import Cof.Bytes

namespace Cof

def roundDiv (num den : Nat) : Nat :=
  let quotient := num / den
  let double := 2 * (num % den)
  if double < den then quotient
  else if den < double then quotient + 1
  else quotient + quotient % 2

/-- A binary floating format. -/
structure Format where
  /-- Stored bits of the fraction. -/
  fraction : Nat
  /-- The least positive number is two to this power. -/
  least : Int
  /-- The bit pattern of infinity. -/
  infinity : Nat

namespace Format

def binary64 : Format := ⟨52, -1074, 0x7FF0000000000000⟩

def binary32 : Format := ⟨23, -149, 0x7F800000⟩

/-- The bits of the number nearest to `num / den`, where `den` is positive. -/
def round (f : Format) (num den : Nat) : Nat :=
  if num = 0 then 0
  else
    -- the ratio is `scaled e` times two to the power `e`
    let scaled (e : Int) : Nat × Nat := (num * 2 ^ (-e).toNat, den * 2 ^ e.toNat)
    let guess : Int := (Nat.log2 num : Int) - (Nat.log2 den : Int) - (f.fraction : Int)
    let atGuess := scaled guess
    let normal := if atGuess.1 / atGuess.2 < 2 ^ f.fraction then guess - 1 else guess
    let exponent := max normal f.least
    let ratio := scaled exponent
    min ((exponent - f.least).toNat * 2 ^ f.fraction + roundDiv ratio.1 ratio.2) f.infinity

end Format

/-- A 64-bit floating number. -/
structure Binary64 where
  bits : UInt64
deriving DecidableEq, Repr

namespace Binary64

def ofRatio (num den : Nat) : Binary64 := ⟨UInt64.ofNat (Format.binary64.round num den)⟩

def ofNat (n : Nat) : Binary64 := ofRatio n 1

def infinity : Binary64 := ⟨UInt64.ofNat Format.binary64.infinity⟩

/-- The number nearest to `digits` times ten to the power `exponent`.  Ten is above two to the third, so
a positive exponent counts for at least three bits and a negative one takes away at least three.  When
that alone leads past the largest number or below half of the least one, the answer is known, and so the
exponent may be any size. -/
def ofDecimal (digits : Nat) (exponent : Int) : Binary64 :=
  let bits : Int := Nat.log2 digits + 3 * exponent
  if digits = 0 then ⟨0⟩
  else if 0 ≤ exponent ∧ 1024 < bits then infinity
  else if exponent < 0 ∧ bits < -1076 then ⟨0⟩
  else ofRatio (digits * 10 ^ exponent.toNat) (10 ^ (-exponent).toNat)

/-! ## Reading the bits -/

def isNegative (x : Binary64) : Bool := 2 ^ 63 ≤ x.bits.toNat

def magnitude (x : Binary64) : Nat := x.bits.toNat % 2 ^ 63

def isInfinite (x : Binary64) : Bool := x.magnitude == Format.binary64.infinity

/-- The significand of a finite number: its size is this times two to the power `scale`. -/
def significand (x : Binary64) : Nat :=
  if x.magnitude < 2 ^ 52 then x.magnitude else 2 ^ 52 + x.magnitude % 2 ^ 52

def scale (x : Binary64) : Int :=
  if x.magnitude < 2 ^ 52 then -1074 else ((x.magnitude / 2 ^ 52 : Nat) : Int) - 1075

/-! ## Conversions -/

def neg (x : Binary64) : Binary64 := ⟨x.bits ^^^ 0x8000000000000000⟩

def toBinary32 (x : Binary64) : UInt32 :=
  let size :=
    if x.isInfinite then Format.binary32.infinity
    else Format.binary32.round (x.significand * 2 ^ x.scale.toNat) (2 ^ (-x.scale).toNat)
  UInt32.ofNat (if x.isNegative then 2 ^ 31 + size else size)

def truncate (x : Binary64) : Int :=
  let size :=
    if x.isInfinite then 2 ^ 64
    else x.significand * 2 ^ x.scale.toNat / 2 ^ (-x.scale).toNat
  if x.isNegative then -(min size (2 ^ 63) : Nat) else (min size (2 ^ 63 - 1) : Nat)

end Binary64

end Cof
