/-
  The machine that code is for, as far as `int` goes.

  A machine has a place in the code, a store that gives every variable its number, and the two numbers
  that were compared last.  It fetches the instruction at its place and acts on it:

    * `mov` copies, and an operation on numbers puts its result into its first operand;
    * `cmp` records its two operands, and nothing else changes what is recorded;
    * `jmp` goes to the definition of its label, and `br` does so if the recorded pair satisfies the
      condition;
    * the directive that defines a label does nothing.
-/
import Cof.Proofs.Decimal
import Mathlib.Logic.Function.Basic
import Mathlib.Logic.Relation

namespace Cof

open List

/-! ## Numbers -/

abbrev Store := UInt32 → Int32

/-- The operations on numbers, whatever they do on overflow or on division by zero. -/
structure Alu where
  add : Int32 → Int32 → Int32
  sub : Int32 → Int32 → Int32
  mul : Int32 → Int32 → Int32
  div : Int32 → Int32 → Int32
  rem : Int32 → Int32 → Int32
  and : Int32 → Int32 → Int32
  or : Int32 → Int32 → Int32
  xor : Int32 → Int32 → Int32
  shl : Int32 → Int32 → Int32
  shr : Int32 → Int32 → Int32
  neg : Int32 → Int32
  not : Int32 → Int32

namespace Alu

def wrapping : Alu :=
  ⟨(· + ·), (· - ·), (· * ·), (· / ·), (· % ·), (· &&& ·), (· ||| ·), (· ^^^ ·), (· <<< ·), (· >>> ·),
    (- ·), (~~~ ·)⟩

def binary? (alu : Alu) : Opcode → Option (Int32 → Int32 → Int32)
  | .add => some alu.add
  | .sub => some alu.sub
  | .mul => some alu.mul
  | .div => some alu.div
  | .mod => some alu.rem
  | .and => some alu.and
  | .or => some alu.or
  | .xor => some alu.xor
  | .shl => some alu.shl
  | .shr => some alu.shr
  | _ => none

def unary? (alu : Alu) : Opcode → Option (Int32 → Int32)
  | .neg => some alu.neg
  | .not => some alu.not
  | _ => none

end Alu

def Qualifier.holds (q : Qualifier) (a b : Int32) : Bool :=
  match q with
  | .eq => a = b
  | .ne => a ≠ b
  | .lt => a < b
  | .le => a ≤ b
  | .gt => b < a
  | .ge => b ≤ a
  | _ => false

theorem Qualifier.holds_inverted {q : Qualifier} (h : q ∈ [eq, ne, lt, le, gt, ge]) (a b : Int32) :
    q.inverted.holds a b = !q.holds a b := by
  have notLess : ∀ a b : Int32, decide (b ≤ a) = !decide (a < b) := by
    intro a b
    rw [← decide_not, decide_eq_decide, Int32.not_lt]
  have notLessEq : ∀ a b : Int32, decide (b < a) = !decide (a ≤ b) := by
    intro a b
    rw [← decide_not, decide_eq_decide, Int32.not_le]
  cases q with
  | eq => exact decide_not
  | ne => simp [inverted, holds]
  | lt => exact notLess a b
  | le => exact notLessEq a b
  | gt => exact notLess b a
  | ge => exact notLessEq b a
  | _ => simp at h

/-! ## Running code -/

def Instr.labelIndex? (code : List Instr) (l : Int32) : Option Nat := code.findIdx? fun i => i.definedLabel? == some l

/-- A machine that runs code. -/
structure Machine where
  /-- The place of the next instruction. -/
  pc : Nat
  store : Store
  /-- The operands of the last comparison. -/
  compared : Int32 × Int32

/-- The number that an operand stands for.  A constant counts by its low 32 bits. -/
def Store.read (σ : Store) : Operand → Int32
  | .imm _ n => .ofNat n.toNat
  | .var _ id => σ id
  | .label _ | .symbol .. => 0

namespace Machine

def next (m : Machine) : Machine := { m with pc := m.pc + 1 }

def assign (m : Machine) (id : UInt32) (n : Int32) : Machine := { m.next with store := Function.update m.store id n }

def goto (m : Machine) (code : List Instr) (l : Int32) : Option Machine :=
  (Instr.labelIndex? code l).map fun place => { m with pc := place }

def act (alu : Alu) (code : List Instr) (i : Instr) (m : Machine) : Option Machine :=
  match i.opcode, i.operands with
  | .mov, [.var _ target, source] => some (m.assign target (m.store.read source))
  | .cmp, [left, right] =>
    some { m.next with compared := (m.store.read left, m.store.read right) }
  | .jmp, [.label l] => m.goto code l
  | .br, [.label l] =>
    if i.qualifier.holds m.compared.1 m.compared.2 then m.goto code l else some m.next
  | .sym, _ => if i.qualifier = .label then some m.next else none
  | opcode, [.var _ target, operand] =>
    (alu.unary? opcode).map fun f => m.assign target (f (m.store.read operand))
  | opcode, [.var _ target, left, right] =>
    (alu.binary? opcode).map fun f => m.assign target (f (m.store.read left) (m.store.read right))
  | _, _ => none

def step (alu : Alu) (code : List Instr) (m : Machine) : Option Machine := code[m.pc]?.bind fun i => m.act alu code i

abbrev Runs (alu : Alu) (code : List Instr) : Machine → Machine → Prop :=
  Relation.ReflTransGen fun m m' => m.step alu code = some m'

end Machine

/-! ## Code within code -/

/-- A stretch of instructions stands at a place of the code. -/
def CodeAt (code : List Instr) (place : Nat) (part : List Instr) : Prop :=
  ∃ before after, code = before ++ part ++ after ∧ before.length = place

def LabelsOnce (code : List Instr) : Prop := (code.filterMap Instr.definedLabel?).Nodup

section CodeAt

variable {code part more : List Instr} {i : Instr} {place : Nat}

theorem codeAt_self (code : List Instr) : CodeAt code 0 code := ⟨[], [], by simp, rfl⟩

theorem CodeAt.left (h : CodeAt code place (part ++ more)) : CodeAt code place part := by
  obtain ⟨before, after, rfl, rfl⟩ := h
  exact ⟨before, more ++ after, by simp, rfl⟩

theorem CodeAt.right (h : CodeAt code place (part ++ more)) : CodeAt code (place + part.length) more := by
  obtain ⟨before, after, rfl, rfl⟩ := h
  exact ⟨before ++ part, after, by simp, by simp⟩

theorem CodeAt.head (h : CodeAt code place (i :: part)) : code[place]? = some i := by
  obtain ⟨before, after, rfl, rfl⟩ := h
  simp

theorem CodeAt.tail (h : CodeAt code place (i :: part)) : CodeAt code (place + 1) part := by
  have split : CodeAt code place ([i] ++ part) := h
  exact split.right

theorem CodeAt.labelIndex? {l : Int32} (h : CodeAt code place (Instr.label l :: part))
    (once : LabelsOnce code) : Instr.labelIndex? code l = some place := by
  obtain ⟨before, after, rfl, rfl⟩ := h
  -- An earlier definition would be a second one.
  have first : ∀ i ∈ before, ¬ (i.definedLabel? == some l) = true := by
    intro i hi same
    have earlier : l ∈ before.filterMap Instr.definedLabel? := mem_filterMap.2 ⟨i, hi, by simpa using same⟩
    simp only [LabelsOnce, append_assoc, filterMap_append, cons_append,
      filterMap_cons, Instr.definedLabel?_label] at once
    have apart := (nodup_append.1 once).2.2
    exact apart l earlier l (by simp) rfl
  simp only [Instr.labelIndex?, append_assoc, findIdx?_append]
  rw [findIdx?_eq_none_iff.2 (by simpa using first)]
  simp [findIdx?_cons]

end CodeAt

end Cof
