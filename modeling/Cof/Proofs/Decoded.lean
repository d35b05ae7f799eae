/-
  Decoding code gives back a normal form of what was encoded.

  A decoder *reads* a string of bytes as a value if it does so wherever the string stands and whatever
  follows it.  Readings compose: the bytes of a sequence of steps are the bytes of the steps, one after
  the other.  So each writer is matched with its reader piece by piece, from single bytes up to the
  code of a whole program.
-/
import Cof.Proofs.Growth

namespace Cof

open List

/-! ## Readings -/

/-- A decoder takes just these bytes and gives this value. -/
def Reads {α : Type} (d : Decoder α) (bytes : Bytes) (a : α) : Prop :=
  ∀ offset rest, d ⟨offset, bytes ++ rest⟩ = .ok (a, ⟨offset + bytes.length, rest⟩)

namespace Decoder

variable {α β : Type}

theorem reads_pure (a : α) : Reads (pure a) [] a := fun _ _ => rfl

variable {d : Decoder α} {f : α → Decoder β} {a : α} {b : β}

theorem reads_bind {first second : Bytes}
    (hd : Reads d first a) (hf : Reads (f a) second b) : Reads (d >>= f) (first ++ second) b := by
  intro offset rest
  have run : (d >>= f) ⟨offset, first ++ (second ++ rest)⟩ = f a ⟨offset + first.length, second ++ rest⟩ := by
    show (d ⟨offset, first ++ (second ++ rest)⟩ >>= fun x => f x.1 x.2) = _
    rw [hd]
    rfl
  rw [append_assoc, run, hf, length_append, Nat.add_assoc]

theorem reads_cons {first : UInt8} {rest : Bytes}
    (hd : Reads d [first] a) (hf : Reads (f a) rest b) : Reads (d >>= f) (first :: rest) b :=
  reads_bind hd hf

theorem reads_map {g : α → β} {bytes : Bytes} (hd : Reads d bytes a) : Reads (do return g (← d)) bytes (g a) := by
  have := reads_bind (f := fun x => pure (g x)) hd (reads_pure (g a))
  rwa [append_nil] at this

theorem reads_byte (b : UInt8) : Reads byte [b] b := fun _ _ => rfl

theorem reads_take (bytes : Bytes) : Reads (take bytes.length) bytes bytes := by
  intro offset rest
  simp [take]

theorem reads_entry {table : UInt8 → Option α} {unknown : UInt8 → Nat → DecodeError} {b : UInt8}
    (h : table b = some a) : Reads (entry table unknown) [b] a := by
  intro offset rest
  -- Only what the table has for this byte matters.
  have found : ∀ known, known = some a →
      entry (fun _ => known) unknown ⟨offset, [b] ++ rest⟩ = .ok (a, ⟨offset + 1, rest⟩) := by
    rintro _ rfl
    rfl
  exact found (table b) h

theorem reads_number (width n : Nat) : Reads (number width) (littleEndian width n) (n % 256 ^ width) := by
  rw [← ofLittleEndian_littleEndian width n]
  refine reads_map ?_
  have := reads_take (littleEndian width n)
  rwa [length_littleEndian] at this

end Decoder

/-! ## Operands -/

namespace Operand

open Decoder

variable {bytes : Bytes}

theorem reads_opening {α : Type} (o : Operand) {f : OperandKind → TypeTag → Decoder α}
    {a : α} (h : Reads (f o.kind o.encoding.tag) bytes a) :
    Reads (do
      let kind ← entry OperandKind.ofByte? .unknownOperandKind
      let tag ← entry TypeTag.ofByte? .unknownTypeTag
      f kind tag) (o.opening ++ bytes) a :=
  reads_cons (reads_entry (OperandKind.ofByte?_toByte _)) (reads_cons (reads_entry (TypeTag.ofByte?_toByte _)) h)

theorem reads_encode {o : Operand} (h : o.encode = .ok bytes) : Reads operand bytes o.normal := by
  cases o with
  | imm enc value =>
    obtain rfl := Except.ok.inj h
    refine reads_opening (.imm enc value) ?_
    refine reads_cons (reads_byte _) ?_
    exact reads_map (reads_number _ _)
  | var enc id =>
    obtain rfl := Except.ok.inj h
    refine reads_opening (.var enc id) ?_
    refine reads_cons (reads_byte _) ?_
    have small : id.toNat < 256 ^ 4 := id.toNat_lt
    have := reads_map (g := fun n => Operand.var ⟨enc.tag, (widthByte enc.width).toUInt32⟩ (.ofNat n))
      (reads_number 4 id.toNat)
    rwa [Nat.mod_eq_of_lt small, UInt32.ofNat_toNat] at this
  | label id =>
    obtain rfl := Except.ok.inj h
    refine reads_opening (.label id) ?_
    have small : id.toUInt32.toNat < 256 ^ 4 := id.toUInt32.toNat_lt
    have := reads_map (g := fun n => Operand.label (UInt32.ofNat n).toInt32) (reads_number 4 id.toUInt32.toNat)
    rwa [Nat.mod_eq_of_lt small, UInt32.ofNat_toNat] at this
  | symbol tag name =>
    unfold encode at h
    simp only at h
    split at h
    case isFalse => cases h
    case isTrue short =>
      obtain rfl := Except.ok.inj h
      rw [append_assoc]
      refine reads_opening (.symbol tag name) (reads_bind (reads_number 2 name.length) ?_)
      rw [Nat.mod_eq_of_lt (by omega)]
      exact reads_map (reads_take name)

theorem reads_encodeAll {os : List Operand} (h : encodeAll os = .ok bytes) :
    Reads (operands os.length) bytes (os.map normal) := by
  induction os generalizing bytes with
  | nil =>
    obtain rfl := Except.ok.inj h
    exact reads_pure []
  | cons o os ih =>
    unfold encodeAll at h
    cases first : o.encode with
    | error f => simp [first] at h
    | ok bytes₁ =>
      cases rest : encodeAll os with
      | error f => simp [first, rest] at h
      | ok bytes₂ =>
        simp only [first, rest] at h
        obtain rfl := Except.ok.inj h
        exact reads_bind (reads_encode first) (reads_map (ih rest))

end Operand

/-! ## Instructions -/

namespace Instr

open Decoder

variable {i : Instr} {bytes : Bytes} {code : List Instr}

theorem encode_eq_ok (h : i.encode = .ok bytes) :
    i.operands.length ≤ 255 ∧ ∃ rest, Operand.encodeAll i.operands = .ok rest ∧
      bytes = [i.opcode.toByte, i.qualifier.toByte, .ofNat i.operands.length] ++ rest := by
  unfold encode at h
  simp only at h
  split at h
  case isFalse => cases h
  case isTrue few =>
    cases rest : Operand.encodeAll i.operands with
    | error f => simp [rest] at h
    | ok rest' =>
      simp only [rest] at h
      exact ⟨few, rest', rfl, (Except.ok.inj h).symm⟩

theorem three_le_length (h : i.encode = .ok bytes) : 3 ≤ bytes.length := by
  obtain ⟨_, rest, _, rfl⟩ := encode_eq_ok h
  simp

theorem reads_encode (h : i.encode = .ok bytes) : Reads instr bytes i.normal := by
  obtain ⟨few, rest, encodes, rfl⟩ := encode_eq_ok h
  refine reads_cons (reads_entry (Opcode.ofByte?_toByte _)) ?_
  refine reads_cons (reads_entry (Qualifier.ofByte?_toByte _)) ?_
  refine reads_cons (reads_byte _) ?_
  have count : (UInt8.ofNat i.operands.length).toNat = i.operands.length := by
    simp
    omega
  rw [count]
  exact reads_map (Operand.reads_encodeAll encodes)

def Encodable (code : List Instr) : Prop := ∀ i ∈ code, ∃ bytes, i.encode = .ok bytes

theorem encodeStream_cons (h : i.encode = .ok bytes) (code : List Instr) :
    encodeStream (i :: code) = bytes ++ encodeStream code := by
  simp [encodeStream, h]

theorem encodeStream_append (code more : List Instr) :
    encodeStream (code ++ more) = encodeStream code ++ encodeStream more := flatMap_append

theorem encodeStream_singleton (h : i.encode = .ok bytes) : encodeStream [i] = bytes := by
  rw [encodeStream_cons h]
  exact append_nil bytes

theorem Encodable.append {more : List Instr} (h : Encodable code) (h' : Encodable more) : Encodable (code ++ more) := by
  intro i hi
  rcases mem_append.1 hi with hi | hi
  · exact h i hi
  · exact h' i hi

/-- Reading goes on until the bytes end: each instruction takes some, so the limit is never met. -/
theorem stream_encodeStream (h : Encodable code) (read : List Instr)
    (limit offset : Nat) (enough : (encodeStream code).length ≤ limit) :
    stream read limit ⟨offset, encodeStream code⟩ = .ok (read.reverse ++ code.map normal) := by
  induction code generalizing read limit offset with
  | nil => cases limit <;> simp [stream, encodeStream]
  | cons i code ih =>
    obtain ⟨bytes, encodes⟩ := h i (by simp)
    have three := three_le_length encodes
    rw [encodeStream_cons encodes] at enough ⊢
    obtain ⟨b, more, split⟩ : ∃ b more, bytes = b :: more := exists_cons_of_ne_nil (by rintro rfl; simp at three)
    rw [length_append] at enough
    cases limit with
    | zero => omega
    | succ limit =>
      have here := reads_encode encodes offset (encodeStream code)
      have rest := ih (fun i hi => h i (by simp [hi])) (i.normal :: read) limit (offset + bytes.length) (by omega)
      rw [stream]
      simp only [split, cons_append] at here rest ⊢
      simp only [here, rest, reverse_cons, append_assoc, map_cons, cons_append, nil_append]

theorem decodeStream_encodeStream (h : Encodable code) : decodeStream (encodeStream code) = .ok (code.map normal) := by
  have := stream_encodeStream h [] (encodeStream code).length 0 (Nat.le_refl _)
  rwa [reverse_nil, nil_append] at this

theorem length_encodeStream (h : Encodable code) : 3 * code.length ≤ (encodeStream code).length := by
  induction code with
  | nil => simp
  | cons i code ih =>
    obtain ⟨bytes, encodes⟩ := h i (by simp)
    have three := three_le_length encodes
    have rest := ih fun i hi => h i (by simp [hi])
    rw [encodeStream_cons encodes, length_append, length_cons]
    omega

/-! ## What the normal form keeps -/

@[simp] theorem normal_opcode (i : Instr) : i.normal.opcode = i.opcode := rfl

@[simp] theorem normal_labels (i : Instr) : i.normal.labels = i.labels := by
  simp only [labels, normal, filterMap_map]
  congr
  funext o
  cases o <;> rfl

@[simp] theorem normal_targets (i : Instr) : i.normal.targets = i.targets := by simp [targets]

@[simp] theorem normal_addresses (i : Instr) : i.normal.addresses = i.addresses := by
  simp [addresses]

@[simp] theorem normal_dataLabel? (i : Instr) : i.normal.dataLabel? = i.dataLabel? := by
  obtain ⟨opcode, qualifier, operands⟩ := i
  by_cases data : opcode = .data
  · subst data
    match operands with
    | [] | .label _ :: _ | .imm .. :: _ | .var .. :: _ | .symbol .. :: _ => rfl
  · simp [normal, dataLabel?, data]

@[simp] theorem normal_definedLabel? (i : Instr) : i.normal.definedLabel? = i.definedLabel? := by
  obtain ⟨opcode, qualifier, operands⟩ := i
  by_cases directive : opcode = .sym ∧ qualifier = .label
  · obtain ⟨rfl, rfl⟩ := directive
    match operands with
    | [] | .label _ :: _ | .imm .. :: _ | .var .. :: _ => rfl
    | .symbol _ [] :: _ | .symbol _ [_] :: _ | .symbol _ (_ :: _ :: _) :: _ => rfl
  · have none : ∀ os, definedLabel? ⟨opcode, qualifier, os⟩ = none := by
      intro os
      unfold definedLabel?
      split
      · simp_all
      · rfl
    rw [normal, none, none]

@[simp] theorem normal_introduced? (i : Instr) : i.normal.introduced? = i.introduced? := by
  simp [introduced?]

end Instr

end Cof
