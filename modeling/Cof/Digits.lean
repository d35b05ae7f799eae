/-
  Numbers spelled in digits.

  A numeral of the source may have any number of digits, so its value is found by halving: two
  neighbouring digits make one digit of the squared radix, and half as many digits are left.  That is a
  few multiplications of large numbers instead of one for every digit.

  `numeral_concat` says that this is the usual value: one more digit is the radix times what was there,
  plus the digit.
-/
import Cof.Bytes

namespace Cof

/-! ## Digits from the right -/

/-- The number with the given digits, least significant first, each by the value of its place. -/
def placeValue (radix : Nat) (digits : List Nat) : Nat := digits.foldr (fun d n => d + radix * n) 0

theorem placeValue_cons (radix digit : Nat) (digits : List Nat) :
    placeValue radix (digit :: digits) = digit + radix * placeValue radix digits := rfl

/-- Two digits at a time as one digit of the squared radix, least significant first, after the digits
already made (newest first). -/
def joinPairs (radix : Nat) (made : List Nat) : List Nat → List Nat
  | [] => made.reverse
  | [digit] => (digit :: made).reverse
  | low :: high :: rest => joinPairs radix ((low + radix * high) :: made) rest

/-- The number with the given digits, least significant first, in at most `rounds` halvings. -/
def joinDigits : Nat → Nat → List Nat → Nat
  | _, _, [] => 0
  | _, _, [digit] => digit
  | 0, _, _ => 0
  | rounds + 1, radix, low :: high :: rest =>
    joinDigits rounds (radix * radix) (joinPairs radix [low + radix * high] rest)

/-- The number with the given digits, least significant first.  A halving leaves fewer digits, so one
for each digit is enough. -/
def ofDigits (radix : Nat) (digits : List Nat) : Nat := joinDigits digits.length radix digits

theorem length_joinPairs (radix : Nat) (made digits : List Nat) :
    (joinPairs radix made digits).length = made.length + (digits.length + 1) / 2 := by
  fun_induction joinPairs radix made digits with
  | case1 made => simp
  | case2 made digit => simp
  | case3 made low high rest ih => simp only [ih, List.length_cons]; omega

/-- Joining pairs keeps the number: what was made stands before it, in the squared radix. -/
theorem placeValue_joinPairs (radix : Nat) (made digits : List Nat) :
    placeValue (radix * radix) (joinPairs radix made digits)
      = made.reverse.foldr (fun d n => d + radix * radix * n) (placeValue radix digits) := by
  fun_induction joinPairs radix made digits with
  | case1 made => rfl
  | case2 made digit => simp [placeValue]
  | case3 made low high rest ih =>
    rw [ih]
    simp [placeValue_cons, Nat.mul_add, Nat.add_assoc, Nat.mul_assoc]

theorem joinDigits_eq_placeValue (rounds radix : Nat) (digits : List Nat)
    (h : digits.length ≤ rounds) : joinDigits rounds radix digits = placeValue radix digits := by
  fun_induction joinDigits rounds radix digits with
  | case1 => rfl
  | case2 => simp [placeValue]
  | case3 radix digits hnil hone =>
    match digits with
    | [] => exact absurd rfl hnil
    | _ :: _ => simp at h
  | case4 radix rounds low high rest ih =>
    rw [ih (by rw [length_joinPairs]; simp only [List.length_cons, List.length_nil] at h ⊢; omega),
      placeValue_joinPairs]
    simp [placeValue_cons, Nat.mul_add, Nat.add_assoc, Nat.mul_assoc]

theorem ofDigits_eq_placeValue (radix : Nat) (digits : List Nat) :
    ofDigits radix digits = placeValue radix digits :=
  joinDigits_eq_placeValue _ _ _ (Nat.le_refl _)

/-! ## Written digits -/

def digitValue (b : UInt8) : Nat := (hexValue? b).getD 0

def numeral (radix : Nat) (digits : Bytes) : Nat := ofDigits radix (digits.reverse.map digitValue)

theorem numeral_nil (radix : Nat) : numeral radix [] = 0 := rfl

theorem numeral_concat (radix : Nat) (digits : Bytes) (d : UInt8) :
    numeral radix (digits ++ [d]) = numeral radix digits * radix + digitValue d := by
  simp [numeral, ofDigits_eq_placeValue, placeValue, Nat.mul_comm, Nat.add_comm]

end Cof
