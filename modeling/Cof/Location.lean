/-
  Positions in source text.

  Lines and columns both start at one and columns count bytes.  A position is moved by the byte that
  is passed: a newline opens the next line, anything else is one column.  So the position after a
  stretch of text is a fold over it, which is the form every statement about positions uses.
-/
import Cof.Bytes

namespace Cof

/-- A line and a column. -/
structure Location where
  line : Nat
  column : Nat
deriving DecidableEq, Hashable, Repr

namespace Location

def start : Location := ⟨1, 1⟩

def step (loc : Location) (b : UInt8) : Location :=
  if b = '\n'.toUInt8 then ⟨loc.line + 1, 1⟩ else ⟨loc.line, loc.column + 1⟩

def after (loc : Location) (text : Bytes) : Location := text.foldl step loc

def right (loc : Location) (n : Nat) : Location := ⟨loc.line, loc.column + n⟩

def describe (loc : Location) : String := s!"line {loc.line}, column {loc.column}"

@[simp] theorem after_nil (loc : Location) : loc.after [] = loc := rfl

@[simp] theorem after_cons (loc : Location) (b : UInt8) (text : Bytes) :
    loc.after (b :: text) = (loc.step b).after text := rfl

theorem after_append (loc : Location) (s t : Bytes) :
    loc.after (s ++ t) = (loc.after s).after t := by
  simp [after, List.foldl_append]

theorem after_eq_right (loc : Location) (text : Bytes) (h : ∀ b ∈ text, b ≠ '\n'.toUInt8) :
    loc.after text = loc.right text.length := by
  induction text generalizing loc with
  | nil => rfl
  | cons b text ih =>
    have hb : b ≠ '\n'.toUInt8 := h b (by simp)
    have htext : ∀ c ∈ text, c ≠ '\n'.toUInt8 := fun c hc => h c (by simp [hc])
    rw [after_cons, ih _ htext, step, if_neg hb]
    simp [right]
    omega

end Location

end Cof
