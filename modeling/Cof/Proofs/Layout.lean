/-
  The bytes of a module, part by part.

  A `Layout` is a module in parts: what a view holds, and the string table.  If its headers say where
  the parts are and every symbol finds its name in the table, then reading its bytes gives the view
  back, whatever follows them.
-/
import Cof.Module.View
import Cof.Proofs.Decoded

namespace Cof

open List

namespace Module

/-! ## Records -/

@[simp] theorem length_word16 (n : UInt16) : (word16 n).length = 2 := length_littleEndian _ _

@[simp] theorem length_word32 (n : UInt32) : (word32 n).length = 4 := length_littleEndian _ _

@[simp] theorem ofLittleEndian_word16 (n : UInt16) : UInt16.ofNat (ofLittleEndian (word16 n)) = n := by
  have small : n.toNat < 256 ^ 2 := n.toNat_lt
  rw [word16, ofLittleEndian_littleEndian, Nat.mod_eq_of_lt small, UInt16.ofNat_toNat]

@[simp] theorem ofLittleEndian_word32 (n : UInt32) : UInt32.ofNat (ofLittleEndian (word32 n)) = n := by
  have small : n.toNat < 256 ^ 4 := n.toNat_lt
  rw [word32, ofLittleEndian_littleEndian, Nat.mod_eq_of_lt small, UInt32.ofNat_toNat]

theorem drop_word16 (n : UInt16) (rest : Bytes) (k : Nat) : (word16 n ++ rest).drop (k + 2) = rest.drop k := by
  simp [drop_append, drop_eq_nil_of_le]

theorem drop_word32 (n : UInt32) (rest : Bytes) (k : Nat) : (word32 n ++ rest).drop (k + 4) = rest.drop k := by
  simp [drop_append, drop_eq_nil_of_le]

theorem needBytes_of_le {bytes : Bytes} {needed : Nat} (part : Part) (h : needed ≤ bytes.length) :
    needBytes bytes part needed = .ok () := by
  simp only [needBytes]
  rw [if_neg (by omega)]

namespace Header

@[simp] theorem length_layoutBytes (h : Header) : h.layoutBytes.length = 20 := by simp [layoutBytes]

@[simp] theorem length_toBytes (h : Header) : h.toBytes.length = 32 := by simp [toBytes]

theorem parse_toBytes (h : Header) (good : h.magic = Module.magic) (rest : Bytes) :
    parse (h.toBytes ++ rest) = .ok h := by
  rw [parse, needBytes_of_le _ (by simp [headerSize])]
  simp only [toBytes, layoutBytes, append_assoc, cons_append, nil_append]
  simp only [word32At, good, drop_zero, length_word32, take_left', ofLittleEndian_word32, ne_eq,
    not_true_eq_false, if_false, byteAt, drop_left', headD_eq_head?_getD, head?_cons,
    Option.getD_some, drop_word32, drop_succ_cons, word16At, length_word16, ofLittleEndian_word16,
    drop_word16]
  rw [← good]
  rfl

end Header

namespace SectionHeader

@[simp] theorem length_toBytes (s : SectionHeader) : s.toBytes.length = 36 := by
  simp [toBytes, fields]

theorem parse_toBytes (s : SectionHeader) (rest : Bytes) : parse (s.toBytes ++ rest) = .ok s := by
  rw [parse, needBytes_of_le _ (by simp [sectionHeaderSize])]
  simp only [toBytes, fields, flatMap_cons, flatMap_nil, append_assoc]
  simp only [word32At, nil_append, drop_zero, length_word32, take_left',
    ofLittleEndian_word32, drop_left', drop_word32]
  rfl

end SectionHeader

namespace SymbolRecord

@[simp] theorem length_toBytes (r : SymbolRecord) : r.toBytes.length = 16 := by simp [toBytes]

theorem parse_toBytes (r : SymbolRecord) (rest : Bytes) : parse (r.toBytes ++ rest) = .ok r := by
  rw [parse, needBytes_of_le _ (by simp [symbolRecordSize])]
  simp only [toBytes, append_assoc, cons_append, nil_append]
  simp only [byteAt, drop_word32, length_word32, drop_left', headD_eq_head?_getD,
    head?_cons, Option.getD_some, SymbolKind.ofByte?_toByte, drop_succ_cons, drop_zero,
    Binding.ofByte?_toByte, word32At, take_left', ofLittleEndian_word32, word16At, length_word16,
    ofLittleEndian_word16]
  rfl

end SymbolRecord

/-! ## Names -/

/-- A name that can stand in a string table: text without NUL. -/
structure Storable (name : Name) : Prop where
  noNul : 0 ∉ name
  isText : ∃ text, Utf8.decode? name = some text

def Clean (name : Name) : Prop := ∀ b ∈ name, b ≠ 0 ∧ b.toNat < 0x80

variable {name : Name} {table : Bytes} {offset : UInt32}

theorem Clean.storable (h : Clean name) : Storable name := by
  have pieces : ∀ read : List (Option Char), (∀ c ∈ read, c.isSome) →
      ∀ c ∈ Utf8.piecesFrom read none name, c.isSome := by
    induction name with
    | nil => simp [Utf8.piecesFrom]
    | cons b bs ih =>
      intro read hread
      have whole : Utf8.lead b = .whole (Char.ofNat b.toNat) := by
        simp [Utf8.lead, (h b (by simp)).2]
      simp only [Utf8.piecesFrom, whole]
      refine ih (fun b hb => h b (by simp [hb])) _ fun c hc => ?_
      rcases mem_cons.1 hc with rfl | hc
      · rfl
      · exact hread c hc
  refine ⟨fun nul => (h 0 nul).1 rfl, Utf8.lossy name, ?_⟩
  rw [Utf8.decode?, if_pos]
  exact all_eq_true.2 (pieces [] (forall_mem_nil _))

/-- A name stands at an offset of a table, closed by a NUL. -/
def Holds (table : Bytes) (name : Name) (offset : UInt32) : Prop :=
  ∃ before after, table = before ++ (name ++ 0 :: after) ∧ offset = UInt32.ofNat before.length

theorem Holds.append (h : Holds table name offset) (more : Bytes) : Holds (table ++ more) name offset := by
  obtain ⟨before, after, rfl, rfl⟩ := h
  exact ⟨before, after ++ more, by simp, rfl⟩

theorem Storable.lookup {before after : Bytes} (storable : Storable name) (start : offset.toNat = before.length) :
    StringTable.lookup (before ++ (name ++ 0 :: after)) offset = .ok name := by
  have name_eq : (name ++ 0 :: after).takeWhile (· != 0) = name := by
    have kept : ∀ b ∈ name, (b != 0) = true := by
      intro b hb
      refine bne_iff_ne.2 ?_
      rintro rfl
      exact storable.noNul hb
    rw [takeWhile_append_of_pos kept]
    simp
  obtain ⟨text, decodes⟩ := storable.isText
  simp only [StringTable.lookup, start, drop_left, name_eq, decodes]
  rw [if_neg (by simp)]

theorem Holds.lookup (h : Holds table name offset)
    (short : table.length < 2 ^ 32) (storable : Storable name) : StringTable.lookup table offset = .ok name := by
  obtain ⟨before, after, rfl, rfl⟩ := h
  simp only [length_append] at short
  exact storable.lookup (UInt32.toNat_ofNat_of_lt' (by simp [UInt32.size]; omega))

namespace StringTable

/-- A table that holds the names it says it holds. -/
structure Sound (t : StringTable) : Prop where
  size : t.size = t.toBytes.length
  entries : ∀ name offset, (name, offset) ∈ t.entries → Holds t.toBytes name offset

theorem sound_empty : Sound empty where
  size := rfl
  entries name offset h := by
    obtain ⟨rfl, rfl⟩ : name = [] ∧ offset = 0 := by simpa [empty] using h
    exact ⟨[], [], rfl, rfl⟩

theorem Sound.insert {t : StringTable} (h : t.Sound) (name : Name) :
    (t.insert name).2.Sound ∧ (∃ more, (t.insert name).2.toBytes = t.toBytes ++ more) ∧
      Holds (t.insert name).2.toBytes name (t.insert name).1 := by
  unfold StringTable.insert
  cases found : t.find? name with
  | some offset =>
    obtain ⟨_, _, entries, _⟩ := lookup_eq_some_iff.1 found
    exact ⟨h, ⟨[], by simp⟩, h.entries _ _ (by simp [entries])⟩
  | none =>
    have bytes : toBytes ⟨(name, .ofNat t.size) :: t.entries, (name ++ [0]) :: t.chunks,
        t.size + (name ++ [0]).length⟩ = t.toBytes ++ (name ++ [0]) := by simp [toBytes]
    have new : Holds (t.toBytes ++ (name ++ [0])) name (.ofNat t.size) := ⟨t.toBytes, [], by simp, by rw [h.size]⟩
    refine ⟨⟨?_, fun name' offset hmem => ?_⟩, ⟨_, bytes⟩, bytes ▸ new⟩
    · rw [bytes, length_append, h.size]
    · rw [bytes]
      rcases mem_cons.1 hmem with same | hmem
      · obtain ⟨rfl, rfl⟩ := Prod.mk.inj same
        exact new
      · exact (h.entries name' offset hmem).append _

end StringTable

/-! ## Reading -/

/-- A module in parts. -/
structure Layout extends View where
  strings : Bytes

namespace Layout

def toBytes (m : Layout) : Bytes :=
  m.header.toBytes ++ m.codeSection.toBytes ++ m.code ++ m.strings ++ m.symbols.flatMap (·.record.toBytes)

/-- The headers say where the parts are and whether the module can be run, and every symbol finds its
name. -/
structure WellFormed (m : Layout) : Prop where
  magic : m.header.magic = Module.magic
  flags : m.header.flags = if m.header.entryPoint ≠ 0 then flagLinkable ||| flagExecutable else flagLinkable
  codeOffset : m.codeSection.offset.toNat = 68
  codeSize : m.codeSection.size.toNat = m.code.length
  stringsOffset : m.header.stringTableOffset.toNat = 68 + m.code.length
  stringsSize : m.header.stringTableSize.toNat = m.strings.length
  symbolsOffset : m.header.symbolTableOffset.toNat = 68 + m.code.length + m.strings.length
  symbolsSize : m.header.symbolTableSize.toNat = 16 * m.symbols.length
  names : ∀ s ∈ m.symbols, StringTable.lookup m.strings s.record.nameOffset = .ok s.name

variable {m : Layout}

theorem WellFormed.isExecutable (h : m.WellFormed) : m.header.isExecutable = true ↔ m.header.entryPoint ≠ 0 := by
  rw [Header.isExecutable, h.flags]
  by_cases entry : m.header.entryPoint ≠ 0
  · rw [if_pos entry]
    exact ⟨fun _ => entry, fun _ => by decide⟩
  · rw [if_neg entry]
    exact ⟨fun never => absurd never (by decide), fun there => absurd there entry⟩

theorem slice_append {before inner after : Bytes} {offset size : UInt32} (part : Part)
    (here : offset.toNat = before.length) (long : size.toNat = inner.length) :
    slice (before ++ inner ++ after) offset size part = .ok inner := by
  simp only [slice, here, long]
  rw [if_pos (by simp), append_assoc, drop_left, take_left]

theorem length_records (symbols : List Symbol) : (symbols.flatMap (·.record.toBytes)).length = 16 * symbols.length := by
  induction symbols with
  | nil => rfl
  | cons s symbols ih =>
    rw [flatMap_cons, length_append, ih, SymbolRecord.length_toBytes, length_cons]
    omega

theorem piecesOf_records (symbols : List Symbol) (limit : Nat) (enough : symbols.length ≤ limit) :
    piecesOf (symbolRecordSize - 1) limit (symbols.flatMap (·.record.toBytes)) = symbols.map (·.record.toBytes) := by
  induction symbols generalizing limit with
  | nil => cases limit <;> rfl
  | cons s symbols ih =>
    have long : s.record.toBytes.length = 16 := s.record.length_toBytes
    obtain ⟨b, more, split⟩ : ∃ b more, s.record.toBytes = b :: more :=
      exists_cons_of_ne_nil (by intro h; simp [h] at long)
    have fifteen : more.length = 15 := by simpa [split] using long
    cases limit with
    | zero => simp at enough
    | succ limit =>
      have rest := ih limit (by simpa using enough)
      simp only [flatMap_cons, split, cons_append, piecesOf, map_cons, symbolRecordSize]
      rw [take_left' fifteen, drop_left' fifteen]
      exact congrArg _ rest

theorem readSymbols_records {strings : Bytes} {symbols : List Symbol}
    (names : ∀ s ∈ symbols, StringTable.lookup strings s.record.nameOffset = .ok s.name) :
    readSymbols strings (symbols.flatMap (·.record.toBytes)) = .ok symbols := by
  have long : symbols.length ≤ (symbols.flatMap (·.record.toBytes)).length := by
    rw [length_records]
    omega
  rw [readSymbols, piecesOf_records symbols _ long]
  clear long
  induction symbols with
  | nil => rfl
  | cons s symbols ih =>
    have record := SymbolRecord.parse_toBytes s.record []
    rw [append_nil] at record
    rw [map_cons, mapM_cons]
    refine ok_bind.2 ⟨s, ok_bind.2 ⟨_, record, ok_bind.2 ⟨_, names s (by simp), rfl⟩⟩, ?_⟩
    exact ok_bind.2 ⟨symbols, ih fun s hs => names s (by simp [hs]), rfl⟩

theorem parse_append (h : m.WellFormed) (rest : Bytes) : View.parse (m.toBytes ++ rest) = .ok m.toView := by
  have header : Header.parse (m.toBytes ++ rest) = .ok m.header := by
    rw [toBytes]
    simp only [append_assoc]
    exact Header.parse_toBytes _ h.magic _
  have codeSection : SectionHeader.parse ((m.toBytes ++ rest).drop headerSize) = .ok m.codeSection := by
    rw [toBytes]
    simp only [append_assoc]
    rw [drop_left' (by simp [headerSize])]
    exact SectionHeader.parse_toBytes _ _
  have code : slice (m.toBytes ++ rest) m.codeSection.offset m.codeSection.size .code = .ok m.code := by
    rw [toBytes, append_assoc _ m.strings, append_assoc]
    exact slice_append _ (by simp [h.codeOffset]) h.codeSize
  have strings : slice (m.toBytes ++ rest) m.header.stringTableOffset m.header.stringTableSize .strings
      = .ok m.strings := by
    rw [toBytes, append_assoc]
    exact slice_append _ (by simp [h.stringsOffset]; omega) h.stringsSize
  have symbols : slice (m.toBytes ++ rest) m.header.symbolTableOffset m.header.symbolTableSize .symbols
      = .ok (m.symbols.flatMap (·.record.toBytes)) :=
    slice_append _ (by simp [h.symbolsOffset]; omega) (h.symbolsSize.trans (length_records _).symm)
  exact ok_bind.2 ⟨_, header, ok_bind.2 ⟨_, codeSection, ok_bind.2 ⟨_, code, ok_bind.2 ⟨_, strings,
    ok_bind.2 ⟨_, symbols, ok_bind.2 ⟨_, readSymbols_records h.names, rfl⟩⟩⟩⟩⟩⟩

theorem parse_toBytes (h : m.WellFormed) : View.parse m.toBytes = .ok m.toView := by
  have whole := parse_append h []
  rwa [append_nil] at whole

end Layout

end Module

end Cof
