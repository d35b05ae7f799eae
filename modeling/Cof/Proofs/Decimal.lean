/-
  Numbers that are written and read back.

  A label is defined by a directive that spells its number, so the number has to survive being spelled:
  `integer?` reads what `decimalInt` writes, and `definedLabel?` finds the label that `Instr.label`
  defines.
-/
import Cof.Instr

namespace Cof

/-! ## Decimal digits -/

theorem decimal_eq (n : Nat) :
    decimal n = if n < 10 then [n.digitChar.toUInt8] else decimal (n / 10) ++ [(n % 10).digitChar.toUInt8] := by
  unfold decimal
  rw [Nat.toDigits_eq_if (by decide)]
  split <;> simp

variable {d : Nat}

theorem digitValue_digitChar (h : d < 10) : digitValue d.digitChar.toUInt8 = d := by
  have all : ∀ d < 10, digitValue (Nat.digitChar d).toUInt8 = d := by decide
  exact all d h

theorem isDigit_digitChar (h : d < 10) : isDigit d.digitChar.toUInt8 = true := by
  have all : ∀ d < 10, isDigit (Nat.digitChar d).toUInt8 = true := by decide
  exact all d h

theorem isDigit_of_mem_decimal {n : Nat} {b : UInt8} (h : b ∈ decimal n) : isDigit b = true := by
  induction n using Nat.strongRecOn with
  | _ n ih =>
    rw [decimal_eq] at h
    split at h
    · rename_i small
      obtain rfl : b = n.digitChar.toUInt8 := by simpa using h
      exact isDigit_digitChar small
    · rename_i large
      rcases List.mem_append.1 h with h | h
      · exact ih (n / 10) (by omega) h
      · obtain rfl : b = (n % 10).digitChar.toUInt8 := by simpa using h
        exact isDigit_digitChar (by omega)

theorem decimal_ne_nil (n : Nat) : decimal n ≠ [] := by
  rw [decimal_eq]
  split <;> simp

theorem numeral_decimal (n : Nat) : numeral 10 (decimal n) = n := by
  induction n using Nat.strongRecOn with
  | _ n ih =>
    rw [decimal_eq]
    split
    · rename_i small
      have one := numeral_concat 10 [] n.digitChar.toUInt8
      simpa [numeral_nil, digitValue_digitChar small] using one
    · rename_i large
      rw [numeral_concat, ih (n / 10) (by omega), digitValue_digitChar (by omega)]
      omega

/-! ## Integers -/

theorem integer?_digits {digits : Bytes} (nonempty : digits ≠ []) (all : ∀ b ∈ digits, isDigit b = true) :
    integer? digits = some (Int.ofNat (numeral 10 digits)) := by
  cases digits with
  | nil => exact absurd rfl nonempty
  | cons b rest =>
    have notSign : b ≠ '-'.toUInt8 ∧ b ≠ '+'.toUInt8 := by
      have digit := all b (by simp)
      constructor <;> rintro rfl <;> revert digit <;> decide
    simp only [integer?, notSign.1, notSign.2, if_false]
    rw [if_pos]
    simpa using all

theorem integer?_decimalInt (i : Int) : integer? (decimalInt i) = some i := by
  have digits : ∀ n, integer? (decimal n) = some (Int.ofNat n) := by
    intro n
    rw [integer?_digits (decimal_ne_nil n) fun b hb => isDigit_of_mem_decimal hb, numeral_decimal]
  unfold decimalInt
  split
  · rename_i negative
    have all : (decimal (-i).toNat).all isDigit = true := List.all_eq_true.2 fun b hb => isDigit_of_mem_decimal hb
    have nonempty : (decimal (-i).toNat).isEmpty = false := by
      simp [decimal_ne_nil]
    simp only [integer?, if_true, all, nonempty, Bool.not_false, Bool.and_self, numeral_decimal,
      Option.map_some, Option.some.injEq, Int.ofNat_eq_natCast]
    omega
  · rw [digits]
    simp only [Option.some.injEq, Int.ofNat_eq_natCast]
    omega

/-! ## Labels -/

@[simp] theorem Instr.definedLabel?_label (l : Int32) : (Instr.label l).definedLabel? = some l := by
  have range : -(2 ^ 31) ≤ l.toInt ∧ l.toInt < 2 ^ 31 := ⟨l.le_toInt, l.toInt_lt⟩
  have name : labelName l = '.'.toUInt8 :: 'L'.toUInt8 :: decimalInt l.toInt := rfl
  simp only [label, name, definedLabel?, and_self, if_true, integer?_decimalInt, Option.bind_some]
  rw [if_pos range, Int32.ofInt_toInt]

end Cof
