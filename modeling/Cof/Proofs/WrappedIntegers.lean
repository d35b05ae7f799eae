/-
  Integers of every width.

  A value of an integer type is a number that the type can hold.  Any other number is *wrapped*: it is
  replaced by the value that agrees with it in as many low bits as the type has.  Conversions between integer
  types wrap, and so does negation.

  Code knows bits and no types.  A variable holds bits, and an operand reads as many of them as its annotation
  is wide.  `mov` copies bits, `neg` negates them, and `cvt` extends the bits of its source, by copies of the
  highest one or by zeros, before it takes as many as the target has room for.  Nothing jumps in the code that is
  looked at here, so it is run from its first instruction to its last.  `Loads` says that some code leaves the bits
  of a number in an operand, whatever the variables held before.  If the number is a value of the operand's type
  then extending gives it back, so `cvt` does what a conversion is meant to do.
-/
import Cof.CType
import Cof.Instr
import Mathlib.Data.Int.ModEq
import Mathlib.Logic.Function.Basic

namespace Cof

/-! ## Values of types -/

def patterns (bytes : Nat) : Nat := 2 ^ (8 * bytes)

theorem patterns_one : patterns 1 = 256 := rfl
theorem patterns_four : patterns 4 = 4294967296 := rfl
theorem patterns_eight : patterns 8 = 18446744073709551616 := rfl

/-- The value of an integer type that has the same low bits as a number. -/
def CType.wrap : CType → Int → Int
  | .integral width true, x => x.bmod (patterns width.bytes)
  | .integral width false, x => x % patterns width.bytes
  | _, x => x

def CType.Fits (type : CType) (x : Int) : Prop := type.wrap x = x

instance (type : CType) (x : Int) : Decidable (type.Fits x) := inferInstanceAs (Decidable (_ = _))

section Wrap

variable {width : IntWidth} {isSigned : Bool}

theorem CType.wrap_emod (x : Int) :
    (CType.integral width isSigned).wrap x % patterns width.bytes = x % patterns width.bytes := by
  cases isSigned with
  | true => exact Int.bmod_emod
  | false => exact Int.emod_emod ..

theorem CType.fits_wrap (type : CType) (x : Int) : type.Fits (type.wrap x) := by
  cases type with
  | integral width isSigned =>
    cases isSigned with
    | true => exact Int.bmod_bmod
    | false => exact Int.emod_emod ..
  | void | floating | pointer | array | function => rfl

variable {x : Int}

theorem CType.fits_signed (low : -patterns width.bytes ≤ x * 2) (high : x * 2 < patterns width.bytes) :
    (CType.integral width true).Fits x := Int.bmod_eq_of_le_mul_two low high

theorem CType.fits_unsigned (low : 0 ≤ x) (high : x < patterns width.bytes) :
    (CType.integral width false).Fits x := Int.emod_eq_of_lt low high

end Wrap

/-! ## Bits in variables -/

abbrev Registers := UInt32 → Int

def Encoding.low (enc : Encoding) (x : Int) : Int := x % patterns enc.width.toNat

def Qualifier.extend (q : Qualifier) (enc : Encoding) (bits : Int) : Int :=
  if q = .signed then bits.bmod (patterns enc.width.toNat) else bits

theorem Encoding.low_low (enc : Encoding) (x : Int) : enc.low (enc.low x) = enc.low x := Int.emod_emod ..

theorem Encoding.low_neg (enc : Encoding) (x : Int) : enc.low (-enc.low x) = enc.low (-x) := (Int.mod_modEq x _).neg

theorem CType.width_encoding (width : IntWidth) (isSigned : Bool) :
    (CType.integral width isSigned).encoding.width.toNat = width.bytes := by
  cases width <;> rfl

theorem CType.low_wrap {type : CType} (integral : type.isIntegral = true) (x : Int) :
    type.encoding.low (type.wrap x) = type.encoding.low x := by
  cases type with
  | integral width isSigned =>
    rw [Encoding.low, Encoding.low, CType.width_encoding, CType.wrap_emod]
  | void | floating | pointer | array | function => cases integral

theorem CType.extend_low {type : CType} {x : Int} (integral : type.isIntegral = true) (fits : type.Fits x) :
    (Qualifier.signedness type.isUnsigned).extend type.encoding (type.encoding.low x) = x := by
  cases type with
  | integral width isSigned =>
    unfold Qualifier.extend Encoding.low
    rw [CType.width_encoding]
    cases isSigned with
    | true => exact (if_pos rfl).trans ((Int.emod_bmod ..).trans fits)
    | false => exact (if_neg Qualifier.noConfusion).trans fits
  | void | floating | pointer | array | function => cases integral

namespace Registers

def read (σ : Registers) : Operand → Int
  | .imm enc n => enc.low n.toNat
  | .var enc id => enc.low (σ id)
  | .label _ | .symbol .. => 0

/-- Act on an instruction that has to do with one operand only.  Creating a variable changes nothing, since every
variable has its place. -/
def act (i : Instr) (σ : Registers) : Option Registers :=
  match i.opcode, i.operands with
  | .var, _ => some σ
  | .mov, [.var enc id, o] => some (Function.update σ id (enc.low (σ.read o)))
  | .neg, [.var enc id, o] => some (Function.update σ id (enc.low (-σ.read o)))
  | .cvt, [.var enc id, o] =>
    some (Function.update σ id (enc.low (i.qualifier.extend o.encoding (σ.read o))))
  | _, _ => none

def run : List Instr → Registers → Option Registers
  | [], σ => some σ
  | i :: rest, σ => (act i σ).bind (run rest)

theorem run_append (part more : List Instr) (σ : Registers) : run (part ++ more) σ = (run part σ).bind (run more) := by
  induction part generalizing σ with
  | nil => rfl
  | cons i part ih =>
    show (act i σ).bind (run (part ++ more)) = ((act i σ).bind (run part)).bind (run more)
    cases act i σ with
    | none => rfl
    | some τ => exact ih τ

end Registers

/-- Code that leaves the low bits of a number in an operand. -/
def Loads (part : List Instr) (o : Operand) (x : Int) : Prop :=
  ∀ σ : Registers, ∃ τ, Registers.run part σ = some τ ∧ τ.read o = o.encoding.low x

section Loads

variable {part : List Instr} {o : Operand} {x : Int} {enc : Encoding} {id : UInt32} {q : Qualifier}

theorem loads_imm (enc : Encoding) (n : UInt64) : Loads [] (.imm enc n) n.toNat := fun σ => ⟨σ, rfl, rfl⟩

variable {y : Int}

section

variable (h : Loads part o x)
include h

theorem Loads.write {i : Instr} (acts : ∀ σ : Registers, σ.read o = o.encoding.low x →
      σ.act i = some (Function.update σ id (enc.low y))) : Loads (part ++ [i]) (.var enc id) y := by
  intro σ
  obtain ⟨τ, runs, holds⟩ := h σ
  refine ⟨Function.update τ id (enc.low y), ?_, ?_⟩
  · rw [Registers.run_append, runs, Option.bind_some, Registers.run, acts τ holds]
    rfl
  · show enc.low (Function.update τ id (enc.low y) id) = enc.low y
    rw [Function.update_self, Encoding.low_low]

theorem Loads.mov (same : o.encoding = enc) : Loads (part ++ [⟨.mov, q, [.var enc id, o]⟩]) (.var enc id) x := by
  refine h.write fun σ holds => ?_
  show some (Function.update σ id (enc.low (σ.read o))) = _
  rw [holds, same, Encoding.low_low]

theorem Loads.neg (same : o.encoding = enc) : Loads (part ++ [⟨.neg, q, [.var enc id, o]⟩]) (.var enc id) (-x) := by
  refine h.write fun σ holds => ?_
  show some (Function.update σ id (enc.low (-σ.read o))) = _
  rw [holds, same, Encoding.low_neg]

theorem Loads.cvt (whole : q.extend o.encoding (o.encoding.low x) = x) :
    Loads (part ++ [⟨.cvt, q, [.var enc id, o]⟩]) (.var enc id) x := by
  refine h.write fun σ holds => ?_
  show some (Function.update σ id (enc.low (q.extend o.encoding (σ.read o)))) = _
  rw [holds, whole]

theorem Loads.congr (same : o.encoding.low x = o.encoding.low y) : Loads part o y := by
  intro σ
  obtain ⟨τ, runs, holds⟩ := h σ
  exact ⟨τ, runs, holds.trans same⟩

theorem Loads.cons_var {operands : List Operand} : Loads (⟨.var, q, operands⟩ :: part) o x := h

end

end Loads

end Cof
