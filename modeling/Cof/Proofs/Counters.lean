/-
  Numbers are paid for in bytes.

  Variables and labels are numbered by counters of a fixed width that wrap around silently.  But each number
  has an instruction of its own: a variable the one that writes or creates it first (`Paid`), a label the one
  that introduces it (`Appends`).  No instruction is both, and each of them has ten bytes at least.  So the
  counters stay far below the length of the code, and while that fits in 32 bits all numbers are different.
-/
import Cof.Proofs.Codec
import Cof.Proofs.Emission
import Cof.Proofs.Lifetimes

namespace Cof

open List

namespace Instr

variable {i : Instr} {code : List Instr}

theorem length_of_encode {bytes : Bytes} (h : i.encode = .ok bytes) : bytes.length = i.normal.span := by
  obtain ⟨used, whole, ⟨-, span, -⟩, -, -⟩ := Decoder.takes_instr.ok (reads_encode h 0 [])
  rw [append_nil, append_nil] at whole
  rw [whole, span]

/-- How many numbers an instruction pays for. -/
def numbers (i : Instr) : Nat := i.pays.toNat + i.introduced?.isSome.toNat

theorem three_le_of_definedLabel? {opcode : Opcode} {qualifier : Qualifier} {tag : TypeTag} {name : Name}
    {os : List Operand} {l : Int32} (h : definedLabel? ⟨opcode, qualifier, .symbol tag name :: os⟩ = some l) :
    3 ≤ name.length := by
  rcases name with _ | ⟨dot, _ | ⟨ell, _ | ⟨digit, digits⟩⟩⟩
  · cases opcode <;> cases qualifier <;> cases h
  · cases opcode <;> cases qualifier <;> cases h
  · cases opcode <;> cases qualifier <;> simp [definedLabel?, integer?] at h
  · exact Nat.le_add_left 3 digits.length

/-- The first operand tells variables from labels.  Of data, a label alone would take nine bytes. -/
theorem numbers_le (stocked : i.Stocked) : 10 * i.numbers ≤ i.normal.span := by
  obtain ⟨opcode, qualifier, operands⟩ := i
  rcases operands with _ | ⟨o, os⟩
  · simp [numbers, pays, introduced?, definedLabel?, dataLabel?]
  cases o with
  | imm enc value => simp [numbers, pays, introduced?, definedLabel?, dataLabel?]
  | var enc id =>
    simp [numbers, pays, introduced?, definedLabel?, dataLabel?, span, normal, Operand.normal, Operand.span]
    omega
  | label l =>
    have first : introduced? ⟨opcode, qualifier, .label l :: os⟩ = dataLabel? ⟨opcode, qualifier, .label l :: os⟩ := by
      simp [introduced?, definedLabel?]
    cases data : dataLabel? ⟨opcode, qualifier, .label l :: os⟩ with
    | none => simp [numbers, pays, first, data]
    | some _ =>
      obtain _ | ⟨o, os⟩ := os
      · exact absurd (stocked (by rw [data]; rfl)) (Nat.lt_irrefl 1)
      · cases o <;>
          simp [numbers, pays, first, data, span, normal, Operand.normal, Operand.span] <;> omega
  | symbol tag name =>
    have first : introduced? ⟨opcode, qualifier, .symbol tag name :: os⟩ =
        definedLabel? ⟨opcode, qualifier, .symbol tag name :: os⟩ := by
      simp [introduced?, dataLabel?]
    cases defined : definedLabel? ⟨opcode, qualifier, .symbol tag name :: os⟩ with
    | none => simp [numbers, pays, first, defined]
    | some _ =>
      have long := three_le_of_definedLabel? defined
      simp [numbers, pays, first, defined, span, normal, Operand.normal, Operand.span]
      omega

theorem numbers_le_length (encodable : Encodable code) (stocked : ∀ i ∈ code, i.Stocked) :
    10 * (code.countP pays + (code.filterMap introduced?).length) ≤ (encodeStream code).length := by
  induction code with
  | nil => exact Nat.zero_le _
  | cons i code ih =>
    obtain ⟨⟨bytes, encodes⟩, encodable⟩ := forall_mem_cons.1 encodable
    obtain ⟨here, stocked⟩ := forall_mem_cons.1 stocked
    have first := numbers_le here
    have rest := ih encodable stocked
    have parts : (i :: code).countP pays + ((i :: code).filterMap introduced?).length =
        i.numbers + (code.countP pays + (code.filterMap introduced?).length) := by
      cases paid : i.pays <;> cases found : i.introduced? <;> simp [numbers, paid, found] <;> omega
    rw [encodeStream_cons encodes, length_append, length_of_encode encodes, parts]
    omega

end Instr

namespace Lowering

variable {p : Program} {s : State}

theorem program_paid (run : program p {} = .ok () s) : 10 * s.variableCount + 10 * s.labelCount ≤ s.size := by
  obtain ⟨u, out, made, size, rfl⟩ := program_steps run
  show 10 * u.variableCount + 10 * u.labelCount ≤ out.codeSize
  rw [size]
  have balanced := balanced_start.emissions ((emits_topLevels p).of_ok made)
  obtain ⟨items, lives, -, -⟩ := topLevels_lives outside_empty made
  obtain ⟨parts, appended, -⟩ := topLevels_labelled rfl made
  have live : u.code.reverse = items.flatten := by simpa using lives.code
  have code : u.code.reverse = parts.flatten := by simpa using appended.code
  have counted : u.variableCount ≤ 0 + u.code.reverse.countP Instr.pays := live ▸ lives.paid
  have labels : (u.code.reverse.filterMap Instr.introduced?).length = u.labelCount := by
    have perm := Multiset.coe_eq_coe.1 (code ▸ appended.balanced)
    simpa using perm.length_eq
  have weight := Instr.numbers_le_length balanced.carries.encodable (code ▸ appended.stocked)
  rw [← balanced.whole.stream] at weight
  omega

/-- Every number that was given out has ten bytes in the code.  So while the code fits in 32 bits no counter has
wrapped: what is given out is the count itself, and no number is given out twice. -/
theorem program_numbers {p : Program} {s : State} (run : program p {} = .ok () s) :
    10 * s.variableCount + 10 * s.labelCount ≤ s.size ∧
    (s.size < 2 ^ 32 →
      (UInt32.ofNat s.variableCount).toNat = s.variableCount ∧ (Int32.ofNat s.labelCount).toInt = s.labelCount ∧
      (∀ t id t', freshVariable t = .ok id t' → t'.variableCount ≤ s.variableCount → id.toNat = t.variableCount) ∧
      (∀ t label t', freshLabel t = .ok label t' → t'.labelCount ≤ s.labelCount → label.toInt = t.labelCount) ∧
      ((List.range s.variableCount).map UInt32.ofNat).Nodup ∧ ((List.range s.labelCount).map Int32.ofNat).Nodup) := by
  have paid := program_paid run
  refine ⟨paid, fun short => ?_⟩
  have unwrapped : ∀ n ≤ s.variableCount, (UInt32.ofNat n).toNat = n := fun n le =>
    UInt32.toNat_ofNat_of_lt' (show n < 2 ^ 32 by omega)
  have signed : ∀ n ≤ s.labelCount, (Int32.ofNat n).toInt = n := fun n le => Int32.toInt_ofNat_of_lt (by omega)
  refine ⟨unwrapped _ (Nat.le_refl _), signed _ (Nat.le_refl _), fun t id t' given few => ?_,
    fun t label t' given few => ?_, ?_, ?_⟩
  · obtain ⟨rfl, rfl⟩ := freshVariable_eq_ok.1 given
    exact unwrapped _ (Nat.le_of_succ_le few)
  · obtain ⟨rfl, rfl⟩ := freshLabel_eq_ok.1 given
    exact signed _ (Nat.le_of_succ_le few)
  · refine List.Nodup.map_on (fun x hx y hy same => ?_) List.nodup_range
    rw [← unwrapped x (List.mem_range.1 hx).le, same, unwrapped y (List.mem_range.1 hy).le]
  · refine List.Nodup.map_on (fun x hx y hy same => Int.ofNat.inj ?_) List.nodup_range
    exact (signed x (List.mem_range.1 hx).le).symm.trans (same ▸ signed y (List.mem_range.1 hy).le)

/-- A loop, a logical operator, a string and a step. -/
theorem program_numbers_loop : ∃ p s,
    Program.parse (ascii "int f(int a)\x7bwhile(a&&\"x\")a--;return a;\x7d") = .ok p ∧ program p {} = .ok () s ∧
      s.variableCount = 7 ∧ s.labelCount = 5 ∧ s.size = 375 ∧ 10 * s.variableCount + 10 * s.labelCount ≤ s.size ∧
      ((List.range s.variableCount).map UInt32.ofNat).Nodup ∧ ((List.range s.labelCount).map Int32.ofNat).Nodup := by
  have computed : (Program.parse (ascii "int f(int a)\x7bwhile(a&&\"x\")a--;return a;\x7d")).toOption.any (fun p =>
      match program p {} with
      | .ok _ s => decide (s.variableCount = 7 ∧ s.labelCount = 5 ∧ s.size = 375)
      | .error .. => false) = true := by decide +kernel
  obtain ⟨p, parsed, holds⟩ := ok_of_any computed
  cases run : program p {} with
  | error e s => simp [run] at holds
  | ok u s =>
    rw [run] at holds
    obtain ⟨counted, labels, size⟩ := of_decide_eq_true holds
    obtain ⟨paid, apart⟩ := program_numbers run
    obtain ⟨-, -, -, -, ids, numbers⟩ := apart (by omega)
    exact ⟨p, s, parsed, run, counted, labels, size, paid, ids, numbers⟩

end Lowering

end Cof
