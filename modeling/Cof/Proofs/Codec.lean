/-
  Writing code and reading it back, in both orders.

  1. What is read of what was written.  An operand is *written* up to a point: its width up to 255, and a
     constant up to the bytes that its width admits.  Reading gives just that part, so it gives the
     instruction itself if and only if nothing was cut off.

  2. What is written of what was read.  Here the bytes come first and may be anything that can be read.
     A decoder *takes* bytes off the front, and what it makes of them is written as the same bytes again,
     with one exception: a label has no type, so its tag is read and dropped and is written as zero.
     `labelTags` finds these tags from the sizes of the operands alone.
-/
import Cof.Proofs.DecoderSteps
import Cof.Proofs.Emitted

namespace Cof

open List

/-! ## What is written of an instruction -/

namespace Operand

def written : Operand → Operand
  | .imm ⟨tag, width⟩ value =>
    .imm ⟨tag, .ofNat (min width.toNat 255)⟩ (.ofNat (value.toNat % 256 ^ min width.toNat 8))
  | .var ⟨tag, width⟩ id => .var ⟨tag, .ofNat (min width.toNat 255)⟩ id
  | .label id => .label id
  | .symbol tag name => .symbol tag name

def Exact : Operand → Prop
  | .imm enc value => enc.width.toNat ≤ 255 ∧ value.toNat < 256 ^ min enc.width.toNat 8
  | .var enc _ => enc.width.toNat ≤ 255
  | .label _ | .symbol .. => True

theorem toNat_widthByte (width : UInt32) : (widthByte width).toNat = min width.toNat 255 :=
  UInt8.toNat_ofNat_of_lt' (Nat.lt_of_le_of_lt (Nat.min_le_right _ _) (by decide))

theorem toUInt32_widthByte (width : UInt32) : (widthByte width).toUInt32 = .ofNat (min width.toNat 255) := by
  have small : (UInt32.ofNat (min width.toNat 255)).toNat = min width.toNat 255 :=
    UInt32.toNat_ofNat_of_lt' (Nat.lt_of_le_of_lt (Nat.min_le_right _ _) (by decide))
  rw [← UInt32.toNat_inj, small, UInt8.toNat_toUInt32, toNat_widthByte]

theorem immediateLength_widthByte (width : UInt32) : immediateLength (widthByte width) = min width.toNat 8 := by
  rw [immediateLength, toNat_widthByte]
  omega

theorem normal_eq_written (o : Operand) : o.normal = o.written := by
  cases o with
  | imm enc value => simp only [normal, written, toUInt32_widthByte, immediateLength_widthByte]
  | var enc id => simp only [normal, written, toUInt32_widthByte]
  | label | symbol => rfl

theorem width_kept_iff {width : UInt32} : UInt32.ofNat (min width.toNat 255) = width ↔ width.toNat ≤ 255 := by
  rw [← toUInt32_widthByte, ← UInt32.toNat_inj, UInt8.toNat_toUInt32, toNat_widthByte]
  omega

theorem value_kept_iff {value : UInt64} {length : Nat} :
    UInt64.ofNat (value.toNat % 256 ^ length) = value ↔ value.toNat < 256 ^ length := by
  have small : (UInt64.ofNat (value.toNat % 256 ^ length)).toNat = value.toNat % 256 ^ length :=
    UInt64.toNat_ofNat_of_lt' (Nat.lt_of_le_of_lt (Nat.mod_le _ _) value.toNat_lt)
  rw [← UInt64.toNat_inj, small]
  constructor
  · intro same
    rw [← same]
    exact Nat.mod_lt _ (Nat.pow_pos (by decide))
  · exact Nat.mod_eq_of_lt

theorem written_eq_self_iff (o : Operand) : o.written = o ↔ o.Exact := by
  cases o with
  | imm enc value =>
    obtain ⟨tag, width⟩ := enc
    simp only [written, Exact, Operand.imm.injEq, Encoding.mk.injEq, true_and, value_kept_iff, width_kept_iff]
  | var enc id =>
    obtain ⟨tag, width⟩ := enc
    simp only [written, Exact, Operand.var.injEq, Encoding.mk.injEq, true_and, and_true, width_kept_iff]
  | label | symbol => exact iff_of_true rfl trivial

variable {bytes : Bytes}

theorem fits_of_encode {o : Operand} (h : o.encode = .ok bytes) : o.fits = true := by
  cases o with
  | imm | var | label => rfl
  | symbol tag name =>
    by_cases short : name.length ≤ 65535
    · simpa [fits] using short
    · simp [encode, short] at h

theorem fits_of_encodeAll {os : List Operand} (h : encodeAll os = .ok bytes) : os.all fits = true := by
  induction os generalizing bytes with
  | nil => rfl
  | cons o os ih =>
    cases first : o.encode with
    | error f => simp [encodeAll, first] at h
    | ok bytes₁ =>
      cases rest : encodeAll os with
      | error f => simp [encodeAll, first, rest] at h
      | ok bytes₂ => rw [all_cons, fits_of_encode first, ih rest]; rfl

end Operand

namespace Instr

def written (i : Instr) : Instr := { i with operands := i.operands.map Operand.written }

theorem normal_eq_written (i : Instr) : i.normal = i.written := by
  rw [normal, written, funext Operand.normal_eq_written]

theorem written_eq_self_iff (i : Instr) : i.written = i ↔ ∀ o ∈ i.operands, o.Exact := by
  obtain ⟨opcode, qualifier, operands⟩ := i
  simp only [written, Instr.mk.injEq, true_and, ← Operand.written_eq_self_iff]
  have all : operands.map Operand.written = operands.map id ↔ ∀ o ∈ operands, o.written = id o := map_inj_left
  rwa [map_id] at all

theorem encode_iff (i : Instr) :
    (∃ bytes, i.encode = .ok bytes) ↔
      i.operands.length ≤ 255 ∧ ∀ tag name, .symbol tag name ∈ i.operands → name.length ≤ 65535 := by
  have symbols : i.operands.all Operand.fits = true ↔
      ∀ tag name, .symbol tag name ∈ i.operands → name.length ≤ 65535 := by
    rw [all_eq_true]
    constructor
    · intro all tag name listed
      simpa [Operand.fits] using all _ listed
    · intro short o listed
      cases o with
      | imm | var | label => rfl
      | symbol tag name => simpa [Operand.fits] using short tag name listed
  rw [← symbols]
  constructor
  · rintro ⟨bytes, encodes⟩
    obtain ⟨few, rest, all, -⟩ := encode_eq_ok encodes
    exact ⟨few, Operand.fits_of_encodeAll all⟩
  · rintro ⟨few, all⟩
    exact encode_of_fits (by rw [fits, all, decide_eq_true few]; rfl)

theorem decode_append {i : Instr} {bytes : Bytes} (h : i.encode = .ok bytes) (rest : Bytes) :
    decode (bytes ++ rest) = .ok (i.written, bytes.length) := by
  have read := reads_encode h 0 rest
  rw [normal_eq_written, Nat.zero_add] at read
  rw [decode, read]

/-- The instructions with their encodings, one by one. -/
abbrev Encodes (code : List Instr) (pieces : List Bytes) : Prop :=
  List.Forall₂ (fun (i : Instr) bytes => i.encode = .ok bytes) code pieces

variable {code : List Instr} {pieces : List Bytes}

theorem Encodes.flatten (h : Encodes code pieces) : Encodable code ∧ pieces.flatten = encodeStream code := by
  induction h with
  | nil => exact ⟨forall_mem_nil _, rfl⟩
  | @cons i bytes code pieces encodes _ ih =>
    obtain ⟨encodable, same⟩ := ih
    refine ⟨fun j hj => ?_, ?_⟩
    · rcases mem_cons.1 hj with rfl | hj
      · exact ⟨bytes, encodes⟩
      · exact encodable j hj
    · rw [flatten_cons, same, encodeStream_cons encodes]

theorem decodeStream_flatten (h : Encodes code pieces) : decodeStream pieces.flatten = .ok (code.map written) := by
  obtain ⟨encodable, same⟩ := h.flatten
  rw [same, decodeStream_encodeStream encodable, funext normal_eq_written]

theorem decode_label (l : Int32) :
    ∃ bytes, (label l).encode = .ok bytes ∧
      ∀ rest, ∃ i, decode (bytes ++ rest) = .ok (i, bytes.length) ∧ i.definedLabel? = some l := by
  obtain ⟨bytes, encodes⟩ := encode_of_fits (label_fits l)
  refine ⟨bytes, encodes, fun rest => ⟨_, decode_append encodes rest, ?_⟩⟩
  rw [← normal_eq_written, normal_definedLabel?, definedLabel?_label]

/-- Which instructions have an encoding, and what is read of it: the instruction as far as it was
written, whatever follows. -/
theorem decode_of_encode :
    (∀ i : Instr, (∃ bytes, i.encode = .ok bytes) ↔
      i.operands.length ≤ 255 ∧ ∀ tag name, .symbol tag name ∈ i.operands → name.length ≤ 65535) ∧
    (∀ (i : Instr) bytes, i.encode = .ok bytes → ∀ rest, decode (bytes ++ rest) = .ok (i.written, bytes.length) ∧
      ((∃ length, decode (bytes ++ rest) = .ok (i, length)) ↔ ∀ o ∈ i.operands, o.Exact)) ∧
    (∀ code pieces, Encodes code pieces → decodeStream pieces.flatten = .ok (code.map written)) ∧
    (∀ l, ∃ bytes, (label l).encode = .ok bytes ∧
      ∀ rest, ∃ i, decode (bytes ++ rest) = .ok (i, bytes.length) ∧ i.definedLabel? = some l) := by
  refine ⟨encode_iff, ?_, fun code pieces => decodeStream_flatten, decode_label⟩
  intro i bytes encodes rest
  have read := decode_append encodes rest
  refine ⟨read, ?_⟩
  rw [read, ← written_eq_self_iff]
  constructor
  · rintro ⟨length, same⟩
    exact (Prod.mk.inj (Except.ok.inj same)).1
  · intro same
    exact ⟨bytes.length, by rw [same]⟩

end Instr

/-! ## The tags of labels -/

def clearedAt (offsets : List Nat) (bytes : Bytes) : Bytes := bytes.mapIdx fun k b => if k ∈ offsets then 0 else b

theorem length_clearedAt (offsets : List Nat) (bytes : Bytes) :
    (clearedAt offsets bytes).length = bytes.length := length_mapIdx

@[simp] theorem clearedAt_nil (bytes : Bytes) : clearedAt [] bytes = bytes := by
  simp [clearedAt, mapIdx_eq_iff]

theorem clearedAt_congr {offsets offsets' : List Nat} {bytes : Bytes}
    (h : ∀ k < bytes.length, k ∈ offsets ↔ k ∈ offsets') :
    clearedAt offsets bytes = clearedAt offsets' bytes := by
  refine ext_getElem? fun k => ?_
  simp only [clearedAt, List.getElem?_mapIdx]
  by_cases inside : k < bytes.length
  · simp only [h k inside]
  · rw [List.getElem?_eq_none (by omega)]
    rfl

theorem clearedAt_append {offsets more : List Nat} {first second : Bytes} (inside : ∀ k ∈ offsets, k < first.length) :
    clearedAt (offsets ++ more.map (first.length + ·)) (first ++ second)
      = clearedAt offsets first ++ clearedAt more second := by
  have left : clearedAt (offsets ++ more.map (first.length + ·)) first = clearedAt offsets first := by
    refine clearedAt_congr fun k hk => ?_
    have : k ∉ more.map (first.length + ·) := by
      intro mem
      obtain ⟨m, -, rfl⟩ := mem_map.1 mem
      omega
    rw [mem_append, or_iff_left this]
  have right : ∀ k, k + first.length ∈ offsets ++ more.map (first.length + ·) ↔ k ∈ more := by
    intro k
    have : k + first.length ∉ offsets := fun mem => by
      have := inside _ mem
      omega
    rw [mem_append, or_iff_right this, mem_map]
    constructor
    · rintro ⟨m, mem, same⟩
      obtain rfl : m = k := by omega
      exact mem
    · exact fun mem => ⟨k, mem, Nat.add_comm ..⟩
  rw [← left]
  simp only [clearedAt, mapIdx_append, right]

namespace Operand

def span : Operand → Nat
  | .imm enc _ => 3 + min enc.width.toNat 8
  | .var .. => 7
  | .label _ => 6
  | .symbol _ name => 4 + name.length

def ownTag : Operand → List Nat
  | .label _ => [1]
  | _ => []

/-- The offsets of the tags that belong to labels, in the bytes of some operands. -/
def labelTags : List Operand → List Nat
  | [] => []
  | o :: os => o.ownTag ++ (labelTags os).map (o.span + ·)

theorem ownTag_lt (o : Operand) : ∀ k ∈ o.ownTag, k < o.span := by
  intro k own
  cases o with
  | label id =>
    obtain rfl : k = 1 := by simpa [ownTag] using own
    simp only [span]
    omega
  | imm | var | symbol => cases own

theorem labelTags_lt {os : List Operand} : ∀ k ∈ labelTags os, k < (os.map span).sum := by
  induction os with
  | nil => exact forall_mem_nil _
  | cons o os ih =>
    intro k mem
    rw [map_cons, sum_cons]
    rcases mem_append.1 mem with own | later
    · have := o.ownTag_lt k own
      omega
    · obtain ⟨m, within, rfl⟩ := mem_map.1 later
      have := ih m within
      omega

end Operand

namespace Instr

def span (i : Instr) : Nat := 3 + (i.operands.map Operand.span).sum

/-- The offsets of the tags that belong to labels, in the bytes of some code. -/
def labelTags : List Instr → List Nat
  | [] => []
  | i :: code => (Operand.labelTags i.operands).map (3 + ·) ++ (labelTags code).map (i.span + ·)

/-- An instruction is written as some bytes, but for the tags of its labels. -/
def WrittenAs (i : Instr) (bytes : Bytes) : Prop :=
  (∀ o ∈ i.operands, o.Exact) ∧ bytes.length = i.span ∧
    i.encode = .ok (clearedAt ((Operand.labelTags i.operands).map (3 + ·)) bytes)

end Instr

/-! ## What is written of what was read -/

namespace Decoder

/-- What was read of an operand is written in the same bytes, but for the tag of a label. -/
def Rewrites (o : Operand) (bytes : Bytes) : Prop :=
  o.Exact ∧ bytes.length = o.span ∧ o.encode = .ok (clearedAt o.ownTag bytes)

theorem widthByte_toUInt32 (width : UInt8) : widthByte width.toUInt32 = width := by
  have small := width.toNat_lt
  rw [← UInt8.toNat_inj, Operand.toNat_widthByte, UInt8.toNat_toUInt32]
  omega

variable {bytes : Bytes}

theorem littleEndian_of_length {width : Nat} (h : bytes.length = width) :
    littleEndian width (ofLittleEndian bytes) = bytes := by
  rw [← h, littleEndian_ofLittleEndian]

theorem toNat_constant {width : UInt8} {value : Bytes} (length : value.length = immediateLength width) :
    (UInt64.ofNat (ofLittleEndian value)).toNat = ofLittleEndian value := by
  have few : value.length ≤ 8 := by
    rw [length]
    exact Nat.min_le_right _ _
  refine UInt64.toNat_ofNat_of_lt' (Nat.lt_of_lt_of_le (ofLittleEndian_lt value) ?_)
  exact Nat.pow_le_pow_right (by decide) few

theorem toNat_word32 (length : bytes.length = 4) :
    (UInt32.ofNat (ofLittleEndian bytes)).toNat = ofLittleEndian bytes := by
  have small := ofLittleEndian_lt bytes
  rw [length] at small
  exact UInt32.toNat_ofNat_of_lt' small

theorem rewrites_imm {tag : TypeTag} {width : UInt8} {value : Bytes} (length : value.length = immediateLength width) :
    Rewrites (.imm ⟨tag, width.toUInt32⟩ (.ofNat (ofLittleEndian value)))
      (OperandKind.imm.toByte :: tag.toByte :: width :: value) := by
  have width_lt := width.toNat_lt
  have fits := ofLittleEndian_lt value
  have same := toNat_constant length
  refine ⟨⟨?_, ?_⟩, ?_, ?_⟩
  · show width.toUInt32.toNat ≤ 255
    rw [UInt8.toNat_toUInt32]
    omega
  · show (UInt64.ofNat _).toNat < 256 ^ min width.toUInt32.toNat 8
    rw [same, UInt8.toNat_toUInt32]
    rwa [length] at fits
  · simp only [Operand.span, length_cons, length, immediateLength, UInt8.toNat_toUInt32]
    omega
  · simp only [Operand.encode, widthByte_toUInt32, same, littleEndian_of_length length, Operand.ownTag, clearedAt_nil]
    rfl

theorem rewrites_var {tag : TypeTag} {width : UInt8} {id : Bytes} (length : id.length = 4) :
    Rewrites (.var ⟨tag, width.toUInt32⟩ (.ofNat (ofLittleEndian id)))
      (OperandKind.var.toByte :: tag.toByte :: width :: id) := by
  have width_lt := width.toNat_lt
  refine ⟨?_, ?_, ?_⟩
  · show width.toUInt32.toNat ≤ 255
    rw [UInt8.toNat_toUInt32]
    omega
  · simp only [Operand.span, length_cons, length]
  · simp only [Operand.encode, widthByte_toUInt32, toNat_word32 length, littleEndian_of_length length,
      Operand.ownTag, clearedAt_nil]
    rfl

theorem rewrites_label {tag : UInt8} {id : Bytes} (length : id.length = 4) :
    Rewrites (.label (UInt32.ofNat (ofLittleEndian id)).toInt32) (OperandKind.label.toByte :: tag :: id) := by
  have cleared : clearedAt [1] (OperandKind.label.toByte :: tag :: id) = OperandKind.label.toByte :: 0 :: id := by
    have parts := @clearedAt_append [1] [] [OperandKind.label.toByte, tag] id (by simp)
    rw [clearedAt_nil] at parts
    exact parts
  refine ⟨trivial, ?_, ?_⟩
  · simp only [Operand.span, length_cons, length]
  · rw [Operand.ownTag, cleared]
    simp only [Operand.encode, UInt32.toUInt32_toInt32, toNat_word32 length, littleEndian_of_length length]
    rfl

theorem rewrites_symbol {tag : TypeTag} {size name : Bytes} (length : size.length = 2)
    (named : name.length = ofLittleEndian size) :
    Rewrites (.symbol tag name) (OperandKind.symbol.toByte :: tag.toByte :: (size ++ name)) := by
  have short := ofLittleEndian_lt size
  rw [length] at short
  refine ⟨trivial, ?_, ?_⟩
  · simp only [Operand.span, length_cons, length_append, length]
    omega
  · have : ofLittleEndian size ≤ 65535 := by omega
    simp only [Operand.encode, named, if_pos this, littleEndian_of_length length, Operand.ownTag, clearedAt_nil]
    rfl

theorem takes_operand : Takes operand Rewrites := by
  refine takes_bind (takes_entry _ fun b n => ⟨by rw [DecodeError.shifted, Nat.zero_add], rfl, rfl⟩) ?_
  rintro kind _ ⟨k, rfl, knownKind⟩
  obtain rfl := OperandKind.toByte_of_ofByte? knownKind
  refine takes_bind (takes_entry _ fun b n => ⟨by rw [DecodeError.shifted, Nat.zero_add], rfl, rfl⟩) ?_
  rintro tag _ ⟨t, rfl, knownTag⟩
  obtain rfl := TypeTag.toByte_of_ofByte? knownTag
  cases kind with
  | imm =>
    refine takes_bind takes_byte ?_
    rintro width _ rfl
    refine takes_bind (takes_number _) ?_
    rintro _ value ⟨length, rfl⟩
    refine takes_pure ?_
    simpa using rewrites_imm length
  | var =>
    refine takes_bind takes_byte ?_
    rintro width _ rfl
    refine takes_bind (takes_number _) ?_
    rintro _ id ⟨length, rfl⟩
    refine takes_pure ?_
    simpa using rewrites_var length
  | label =>
    refine takes_bind (takes_number _) ?_
    rintro _ id ⟨length, rfl⟩
    refine takes_pure ?_
    simpa using rewrites_label length
  | symbol =>
    refine takes_bind (takes_number _) ?_
    rintro _ size ⟨length, rfl⟩
    refine takes_bind (takes_take _) ?_
    rintro _ name ⟨rfl, named⟩
    refine takes_pure ?_
    simpa using rewrites_symbol length named

theorem takes_operands (n : Nat) : Takes (operands n) fun os bytes =>
    os.length = n ∧ (∀ o ∈ os, o.Exact) ∧ bytes.length = (os.map Operand.span).sum ∧
      Operand.encodeAll os = .ok (clearedAt (Operand.labelTags os) bytes) := by
  induction n with
  | zero => exact takes_pure ⟨rfl, forall_mem_nil _, rfl, rfl⟩
  | succ n ih =>
    refine takes_bind takes_operand ?_
    rintro o first ⟨kept, span, encodes⟩
    refine takes_bind ih ?_
    rintro os rest ⟨count, keptAll, spans, encodesAll⟩
    refine takes_pure ⟨?_, ?_, ?_, ?_⟩
    · rw [length_cons, count]
    · intro o' mem
      rcases mem_cons.1 mem with rfl | mem
      · exact kept
      · exact keptAll o' mem
    · rw [append_nil, length_append, span, spans, map_cons, sum_cons]
    · have within : ∀ k ∈ o.ownTag, k < first.length := by
        intro k mem
        rw [span]
        exact o.ownTag_lt k mem
      simp only [Operand.encodeAll, encodes, encodesAll, Operand.labelTags, append_nil]
      rw [← span, clearedAt_append within]

theorem takes_instr : Takes instr Instr.WrittenAs := by
  refine takes_bind (takes_entry _ fun b n => ⟨by rw [DecodeError.shifted, Nat.zero_add], rfl, rfl⟩) ?_
  rintro opcode _ ⟨o, rfl, knownOpcode⟩
  obtain rfl := Opcode.toByte_of_ofByte? knownOpcode
  refine takes_bind (takes_entry _ fun b n => ⟨by rw [DecodeError.shifted, Nat.zero_add], rfl, rfl⟩) ?_
  rintro qualifier _ ⟨q, rfl, knownQualifier⟩
  obtain rfl := Qualifier.toByte_of_ofByte? knownQualifier
  refine takes_bind takes_byte ?_
  rintro count _ rfl
  refine takes_bind (takes_operands _) ?_
  rintro args bytes ⟨counted, keptAll, spans, encodesAll⟩
  refine takes_pure ⟨keptAll, ?_, ?_⟩
  · simp only [append_nil, cons_append, nil_append, length_cons, spans, Instr.span]
    omega
  · have few : args.length ≤ 255 := by
      have := count.toNat_lt
      omega
    -- The three bytes in front hold no tag.
    have front := @clearedAt_append [] (Operand.labelTags args)
      [opcode.toByte, qualifier.toByte, count] bytes (forall_mem_nil _)
    have byte : UInt8.ofNat args.length = count := by rw [counted, UInt8.ofNat_toNat]
    simp only [Instr.encode, if_pos few, encodesAll, byte]
    rw [append_nil]
    exact congrArg Except.ok front.symm

end Decoder

namespace Instr

open Decoder

def behind (code : List Instr) (offset : Nat) : Except DecodeError (List Instr) → Except DecodeError (List Instr)
  | .ok more => .ok (code ++ more)
  | .error e => .error (e.shifted offset)

theorem behind_behind (code more : List Instr) (m n : Nat) (result : Except DecodeError (List Instr)) :
    behind code m (behind more n result) = behind (code ++ more) (n + m) result := by
  cases result with
  | ok rest => simp only [behind, append_assoc]
  | error e => simp only [behind, DecodeError.shifted_shifted]

theorem not_reads_nil (i : Instr) : ¬ Reads instr [] i := fun reads => nomatch reads 0 []

variable {bytes used : Bytes} {i : Instr} {code : List Instr}

theorem stream_eq_behind (read : List Instr) {limit : Nat} (offset : Nat) (enough : bytes.length ≤ limit) :
    stream read limit ⟨offset, bytes⟩ = behind read.reverse offset (decodeStream bytes) := by
  -- Every instruction takes some bytes, so the rest is shorter, and the limit is large enough for it.
  induction long : bytes.length using Nat.strong_induction_on generalizing bytes read limit offset with
  | _ length ih =>
    cases bytes with
    | nil => cases limit <;> simp [stream, decodeStream, behind]
    | cons b rest =>
      obtain ⟨limit, rfl⟩ := Nat.exists_eq_add_of_le' (Nat.le_trans (Nat.succ_le_succ (Nat.zero_le _)) enough)
      cases first : instr ⟨offset, b :: rest⟩ with
      | error e =>
        obtain ⟨e₀, -, fails⟩ := takes_instr.error first
        rw [decodeStream, length_cons, stream, stream]
        simp only [fails, behind, DecodeError.shifted_zero]
      | ok result =>
        obtain ⟨i, r⟩ := result
        obtain ⟨used, ahead, -, reads, -⟩ := takes_instr.ok first
        have taken : 0 < used.length := length_pos_iff.2 fun none => not_reads_nil i (none ▸ reads)
        have lengths : rest.length + 1 = used.length + r.ahead.length := by
          rw [← length_append, ← ahead, length_cons]
        have here : ∀ offset, instr ⟨offset, b :: rest⟩ = .ok (i, ⟨offset + used.length, r.ahead⟩) :=
          fun offset => ahead ▸ reads offset r.ahead
        have total : rest.length + 1 = length := long
        rw [decodeStream, length_cons, stream, stream]
        simp only [here]
        rw [ih r.ahead.length (by omega) (i :: read) _ (by omega) rfl,
          ih r.ahead.length (by omega) [i] _ (by omega) rfl, behind_behind]
        simp only [reverse_cons, reverse_nil, nil_append, Nat.zero_add, Nat.add_comm offset]

theorem decodeStream_of_reads (reads : Reads instr used i) (rest : Bytes) :
    decodeStream (used ++ rest) = behind [i] used.length (decodeStream rest) := by
  cases used with
  | nil => exact absurd reads (not_reads_nil i)
  | cons b more =>
    have here := reads 0 rest
    rw [cons_append] at here ⊢
    rw [decodeStream, length_cons, stream]
    simp only [here]
    rw [stream_eq_behind [i] _ (by rw [length_append]; omega), Nat.zero_add]
    rfl

theorem decodeStream_of_error {e : DecodeError} (nonempty : bytes ≠ []) (fails : instr ⟨0, bytes⟩ = .error e) :
    decodeStream bytes = .error e := by
  cases bytes with
  | nil => exact absurd rfl nonempty
  | cons b rest =>
    rw [decodeStream, length_cons, stream]
    simp only [fails]

theorem decodeStream_cases (bytes : Bytes) :
    bytes = [] ∨
      (∃ used i rest, bytes = used ++ rest ∧ rest.length < bytes.length ∧ Reads instr used i ∧ i.WrittenAs used ∧
        decodeStream bytes = behind [i] used.length (decodeStream rest)) ∨
      ∃ e, e.Blames bytes ∧ decodeStream bytes = .error e := by
  by_cases none : bytes = []
  · exact .inl none
  refine .inr ?_
  cases first : instr ⟨0, bytes⟩ with
  | error e =>
    obtain ⟨e₀, blames, fails⟩ := takes_instr.error first
    have same := fails 0
    rw [DecodeError.shifted_zero] at same
    exact .inr ⟨e₀, blames, decodeStream_of_error none same⟩
  | ok result =>
    obtain ⟨i, r⟩ := result
    obtain ⟨used, rfl, writes, reads, -⟩ := takes_instr.ok first
    have taken : 0 < used.length := length_pos_iff.2 fun empty => not_reads_nil i (empty ▸ reads)
    refine .inl ⟨used, i, r.ahead, rfl, ?_, reads, writes, decodeStream_of_reads reads r.ahead⟩
    rw [length_append]
    omega

theorem decodeStream_induction {motive : Bytes → List Instr → Prop} (nil : motive [] [])
    (cons : ∀ used i rest code, Reads instr used i → i.WrittenAs used → motive rest code →
      motive (used ++ rest) (i :: code))
    (h : decodeStream bytes = .ok code) : motive bytes code := by
  induction long : bytes.length using Nat.strong_induction_on generalizing bytes code with
  | _ length ih =>
    subst long
    rcases decodeStream_cases bytes with rfl | ⟨used, i, rest, rfl, shorter, reads, writes, decoded⟩ | ⟨e, -, fails⟩
    · cases h
      exact nil
    · rw [decoded] at h
      cases later : decodeStream rest with
      | error e =>
        rw [later] at h
        cases h
      | ok more =>
        rw [later] at h
        cases h
        exact cons used i rest more reads writes (ih rest.length shorter later rfl)
    · rw [fails] at h
      cases h

theorem encodes_of_decodeStream (h : decodeStream bytes = .ok code) :
    (∀ i ∈ code, ∀ o ∈ i.operands, o.Exact) ∧
      ∃ pieces, Encodes code pieces ∧ pieces.flatten = clearedAt (labelTags code) bytes := by
  refine decodeStream_induction (motive := fun bytes code => (∀ i ∈ code, ∀ o ∈ i.operands, o.Exact) ∧
    ∃ pieces, Encodes code pieces ∧ pieces.flatten = clearedAt (labelTags code) bytes)
    ⟨forall_mem_nil _, [], .nil, rfl⟩ ?_ h
  rintro used i rest code - ⟨kept, span, encodes⟩ ⟨keptAll, pieces, encodesAll, same⟩
  refine ⟨forall_mem_cons.2 ⟨kept, keptAll⟩, _ :: pieces, .cons encodes encodesAll, ?_⟩
  have within : ∀ k ∈ (Operand.labelTags i.operands).map (3 + ·), k < used.length := by
    intro k mem
    obtain ⟨m, tag, rfl⟩ := mem_map.1 mem
    have := Operand.labelTags_lt m tag
    rw [span, Instr.span]
    omega
  rw [labelTags, ← span, clearedAt_append within, flatten_cons, same]

/-- Whatever bytes can be read as code, the code has an encoding.  It is these bytes with zeros for the
tags of labels, and it is read as the same code. -/
theorem encode_of_decodeStream {bytes : Bytes} {code : List Instr} (h : decodeStream bytes = .ok code) :
    ∃ pieces, Encodes code pieces ∧ pieces.flatten.length = bytes.length ∧
      pieces.flatten = clearedAt (labelTags code) bytes ∧ decodeStream pieces.flatten = .ok code := by
  obtain ⟨kept, pieces, encodes, flat⟩ := encodes_of_decodeStream h
  refine ⟨pieces, encodes, by rw [flat, length_clearedAt], flat, ?_⟩
  have whole : code.map written = code.map id := List.map_congr_left fun i mem => i.written_eq_self_iff.2 (kept i mem)
  rw [decodeStream_flatten encodes, whole, List.map_id]

/-- A jump and a branch whose labels carry tags, and between them a constant without bytes, a wide
variable and a symbol without a name. -/
theorem encode_of_decodeStream_tagged :
    ∃ code, decodeStream
        [0x21, 0, 1, 3, 12, 1, 0, 0, 0, 0x50, 0x24, 3, 1, 8, 0, 2, 11, 200, 7, 0, 0, 0, 4, 9, 0, 0,
         0x22, 1, 1, 3, 5, 255, 255, 255, 255] = .ok code ∧ labelTags code = [4, 30] ∧
      ∃ pieces, Encodes code pieces ∧ pieces.flatten =
        [0x21, 0, 1, 3, 0, 1, 0, 0, 0, 0x50, 0x24, 3, 1, 8, 0, 2, 11, 200, 7, 0, 0, 0, 4, 9, 0, 0,
         0x22, 1, 1, 3, 0, 255, 255, 255, 255] ∧ decodeStream pieces.flatten = .ok code := by
  have decoded : decodeStream
      [0x21, 0, 1, 3, 12, 1, 0, 0, 0, 0x50, 0x24, 3, 1, 8, 0, 2, 11, 200, 7, 0, 0, 0, 4, 9, 0, 0,
       0x22, 1, 1, 3, 5, 255, 255, 255, 255]
      = .ok [⟨.jmp, .none, [.label 1]⟩, ⟨.sym, .static, [.imm ⟨.u64, 0⟩ 0, .var ⟨.ptr, 200⟩ 7, .symbol .f32 []]⟩,
        ⟨.br, .eq, [.label (-1)]⟩] := by
    decide +kernel
  obtain ⟨pieces, encodes, -, flat, again⟩ := encode_of_decodeStream decoded
  exact ⟨_, decoded, by decide, pieces, encodes, flat.trans (by decide), again⟩

end Instr

end Cof
