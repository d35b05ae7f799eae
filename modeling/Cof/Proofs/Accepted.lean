/-
  Which bytes are modules.

  A reader of modules meets any bytes at all: ranges that overlap, that are empty or that lie behind the end,
  and tables cut short.  `Accepted` says of some bytes that they are a module, field by field and range by
  range, and the reader accepts just these.  It needs no more of them than the headers and the ranges they
  name, so whatever follows is left alone.
-/
import Cof.Proofs.Compiled
import Cof.Proofs.Locality

namespace Cof.Module

open List

/-! ## Fields -/

def field (bytes : Bytes) (offset : Nat) : Nat := ofLittleEndian ((bytes.drop offset).take 4)

def range (bytes : Bytes) (offset size : Nat) : Bytes := (bytes.drop offset).take size

variable {bytes table strings piece r : Bytes} {offset size needed n : Nat} {part : Part} {h : Header}
  {s : SectionHeader} {b : UInt8} {symbols : List Symbol} {v : View}

theorem length_range (h : offset + size ≤ bytes.length) : (range bytes offset size).length = size := by
  rw [range, length_take, length_drop]
  omega

theorem range_append (bytes : Bytes) (m n : Nat) : range bytes 0 m ++ range bytes m n = range bytes 0 (m + n) := by
  rw [range, range, range, drop_zero, take_add]

theorem littleEndian_range (h : offset + size ≤ bytes.length) :
    littleEndian size (ofLittleEndian (range bytes offset size)) = range bytes offset size :=
  Decoder.littleEndian_of_length (length_range h)

theorem toNat_word32At (bytes : Bytes) (offset : Nat) : (word32At bytes offset).toNat = field bytes offset := by
  refine UInt32.toNat_ofNat_of_lt' (Nat.lt_of_lt_of_le (ofLittleEndian_lt _) ?_)
  exact Nat.pow_le_pow_right (by decide) (length_take_le 4 _)

theorem word32_word32At (h : offset + 4 ≤ bytes.length) : word32 (word32At bytes offset) = range bytes offset 4 := by
  rw [word32, toNat_word32At]
  exact littleEndian_range h

theorem word16_word16At (h : offset + 2 ≤ bytes.length) : word16 (word16At bytes offset) = range bytes offset 2 := by
  have small : ofLittleEndian (range bytes offset 2) < 256 ^ 2 := by
    have below := ofLittleEndian_lt (range bytes offset 2)
    rwa [length_range h] at below
  have value : (word16At bytes offset).toNat = ofLittleEndian (range bytes offset 2) := UInt16.toNat_ofNat_of_lt' small
  rw [word16, value]
  exact littleEndian_range h

theorem byteAt_eq (h : offset + 1 ≤ bytes.length) : [byteAt bytes offset] = range bytes offset 1 := by
  rw [byteAt, range, drop_eq_getElem_cons h]
  rfl

/-! ## Records -/

theorem needBytes_eq_ok {u : Unit} : needBytes bytes part needed = .ok u ↔ needed ≤ bytes.length := by
  by_cases short : bytes.length < needed
  · rw [needBytes, if_pos short]
    exact ⟨fun h => (by cases h), fun _ => by omega⟩
  · rw [needBytes, if_neg short]
    exact ⟨fun _ => by omega, fun _ => rfl⟩

def headerAt (bytes : Bytes) : Header where
  magic := word32At bytes 0
  versionMajor := byteAt bytes 4
  versionMinor := byteAt bytes 5
  versionPatch := byteAt bytes 6
  flags := byteAt bytes 7
  arch := word16At bytes 8
  sectionCount := word16At bytes 10
  entryPoint := word32At bytes 12
  stringTableOffset := word32At bytes 16
  stringTableSize := word32At bytes 20
  symbolTableOffset := word32At bytes 24
  symbolTableSize := word32At bytes 28

theorem Header.parse_eq_ok :
    Header.parse bytes = .ok h ↔ 32 ≤ bytes.length ∧ word32At bytes 0 = Module.magic ∧ headerAt bytes = h := by
  rw [Header.parse, ok_bind]
  by_cases good : word32At bytes 0 = Module.magic
  · rw [if_neg (not_not_intro good)]
    constructor
    · rintro ⟨_, enough, parsed⟩
      exact ⟨needBytes_eq_ok.1 enough, good, Except.ok.inj parsed⟩
    · rintro ⟨long, -, rfl⟩
      exact ⟨(), needBytes_eq_ok.2 long, rfl⟩
  · rw [if_pos good]
    constructor
    · rintro ⟨_, _, parsed⟩
      cases parsed
    · rintro ⟨_, same, _⟩
      exact absurd same good

theorem Header.parse_iff_begins : Header.parse bytes = .ok h ↔ h.magic = Module.magic ∧ h.toBytes <+: bytes := by
  constructor
  · rw [Header.parse_eq_ok]
    rintro ⟨long, good, rfl⟩
    refine ⟨good, ?_⟩
    show word32 (word32At bytes 0) ++ ([byteAt bytes 4] ++ [byteAt bytes 5] ++ [byteAt bytes 6] ++ [byteAt bytes 7])
      ++ word16 (word16At bytes 8) ++ word16 (word16At bytes 10) ++ (word32 (word32At bytes 12)
      ++ word32 (word32At bytes 16) ++ word32 (word32At bytes 20) ++ word32 (word32At bytes 24)
      ++ word32 (word32At bytes 28)) <+: bytes
    simp (disch := omega) only [word32_word32At, word16_word16At, byteAt_eq]
    simp only [← append_assoc, range_append, Nat.reduceAdd]
    exact List.take_prefix 32 bytes
  · rintro ⟨good, rest, rfl⟩
    exact Header.parse_toBytes h good rest

def sectionHeaderAt (bytes : Bytes) : SectionHeader where
  nameOffset := word32At bytes 0
  sectionType := word32At bytes 4
  flags := word32At bytes 8
  offset := word32At bytes 12
  size := word32At bytes 16
  link := word32At bytes 20
  info := word32At bytes 24
  alignment := word32At bytes 28
  entrySize := word32At bytes 32

theorem SectionHeader.parse_eq_ok :
    SectionHeader.parse bytes = .ok s ↔ 36 ≤ bytes.length ∧ sectionHeaderAt bytes = s := by
  rw [SectionHeader.parse, ok_bind]
  constructor
  · rintro ⟨_, enough, parsed⟩
    exact ⟨needBytes_eq_ok.1 enough, Except.ok.inj parsed⟩
  · rintro ⟨long, rfl⟩
    exact ⟨(), needBytes_eq_ok.2 long, rfl⟩

theorem SectionHeader.parse_iff_begins : SectionHeader.parse bytes = .ok s ↔ s.toBytes <+: bytes := by
  constructor
  · rw [SectionHeader.parse_eq_ok]
    rintro ⟨long, rfl⟩
    simp only [toBytes, fields, sectionHeaderAt, flatMap_cons, flatMap_nil, append_nil]
    simp (disch := omega) only [word32_word32At]
    simp only [← append_assoc, range_append, Nat.reduceAdd]
    exact List.take_prefix 36 bytes
  · rintro ⟨rest, rfl⟩
    exact SectionHeader.parse_toBytes s rest

theorem SymbolKind.toByte_of_ofByte? {k : SymbolKind} (h : ofByte? b = some k) : k.toByte = b := by
  unfold ofByte? at h
  split at h
  · cases h
    exact ‹b = 0›.symm
  split at h
  · cases h
    exact ‹b = 1›.symm
  · cases h

theorem Binding.toByte_of_ofByte? {k : Binding} (h : ofByte? b = some k) : k.toByte = b := by
  unfold ofByte? at h
  split at h
  · cases h
    exact ‹b = 0›.symm
  split at h
  · cases h
    exact ‹b = 1›.symm
  split at h
  · cases h
    exact ‹b = 2›.symm
  · cases h

theorem SymbolRecord.parse_iff_begins {r : SymbolRecord} : SymbolRecord.parse bytes = .ok r ↔ r.toBytes <+: bytes := by
  constructor
  · intro parsed
    obtain ⟨_, enough, parsed⟩ := ok_bind.1 parsed
    have long : 16 ≤ bytes.length := needBytes_eq_ok.1 enough
    cases kind : SymbolKind.ofByte? (byteAt bytes 12) with
    | none =>
      rw [kind] at parsed
      cases parsed
    | some k =>
      rw [kind] at parsed
      cases binding : Binding.ofByte? (byteAt bytes 13) with
      | none =>
        rw [binding] at parsed
        cases parsed
      | some b =>
        rw [binding] at parsed
        cases parsed
        show word32 (word32At bytes 0) ++ word32 (word32At bytes 4) ++ word32 (word32At bytes 8)
          ++ ([k.toByte] ++ [b.toByte]) ++ word16 (word16At bytes 14) <+: bytes
        rw [SymbolKind.toByte_of_ofByte? kind, Binding.toByte_of_ofByte? binding]
        simp (disch := omega) only [word32_word32At, word16_word16At, byteAt_eq]
        simp only [← append_assoc, range_append, Nat.reduceAdd]
        exact List.take_prefix 16 bytes
  · rintro ⟨rest, rfl⟩
    exact SymbolRecord.parse_toBytes r rest

/-! ## Names -/

/-- A name is spelled at an offset of a string table: it is text without a NUL, and a NUL follows it. -/
def Spells (table : Bytes) (offset : Nat) (name : Name) : Prop :=
  0 ∉ name ∧ (∃ text, name = Utf8.encode text) ∧
    ∃ before after, before.length = offset ∧ table = before ++ (name ++ 0 :: after)

theorem StringTable.lookup_eq_ok {offset : UInt32} {name : Name} :
    StringTable.lookup table offset = .ok name ↔ Spells table offset.toNat name := by
  constructor
  · intro found
    unfold lookup at found
    dsimp only at found
    by_cases outside : table.length < offset.toNat
    · rw [if_pos outside] at found
      cases found
    rw [if_neg outside] at found
    generalize whole : table.drop offset.toNat = rest at found
    have parts : rest.takeWhile (· != 0) ++ rest.dropWhile (· != 0) = rest := takeWhile_append_dropWhile
    have behind : rest.drop (rest.takeWhile (· != 0)).length = rest.dropWhile (· != 0) := by
      have dropped := congrArg (List.drop (rest.takeWhile (· != 0)).length) parts
      rw [drop_left] at dropped
      exact dropped.symm
    rw [behind] at found
    have stops := head?_dropWhile_not (· != 0) rest
    cases ends : rest.dropWhile (· != 0) with
    | nil =>
      rw [ends] at found
      cases found
    | cons c after =>
      rw [ends] at found stops parts
      obtain rfl : c = 0 := by simpa using stops
      cases decoded : Utf8.decode? (rest.takeWhile (· != 0)) with
      | none =>
        rw [decoded] at found
        cases found
      | some text =>
        rw [decoded] at found
        cases found
        refine ⟨fun nul => ?_, (Utf8.decode?_isSome_iff _).1 ⟨text, decoded⟩, table.take offset.toNat, after, ?_, ?_⟩
        · cases all_eq_true.1 all_takeWhile 0 nul
        · rw [length_take]
          omega
        · rw [parts, ← whole, take_append_drop]
  · rintro ⟨noNul, text, before, after, here, rfl⟩
    exact Storable.lookup ⟨noNul, (Utf8.decode?_isSome_iff name).2 text⟩ here.symm

/-! ## Symbols -/

/-- The bytes of a symbol record whose kind and binding are known and whose name is spelled in a string table. -/
structure Readable (strings piece : Bytes) : Prop where
  kind : piece[12]? = some 0 ∨ piece[12]? = some 1
  binding : piece[13]? = some 0 ∨ piece[13]? = some 1 ∨ piece[13]? = some 2
  name : ∃ name, Spells strings (field piece 0) name

/-- The bytes are the record of a symbol, and its name is spelled in a string table. -/
structure Describes (strings piece : Bytes) (s : Symbol) : Prop where
  record : piece = s.record.toBytes
  name : Spells strings (field piece 0) s.name

theorem field_toBytes (r : SymbolRecord) : field r.toBytes 0 = r.nameOffset.toNat := by
  have first : r.toBytes.take 4 = word32 r.nameOffset := by
    exact take_left' (length_word32 _)
  rw [field, drop_zero, first, word32, ofLittleEndian_littleEndian]
  exact Nat.mod_eq_of_lt r.nameOffset.toNat_lt

theorem Describes.readable {s : Symbol} (h : Describes strings piece s) : Readable strings piece := by
  have bytes : piece = (word32 s.record.nameOffset ++ word32 s.record.value ++ word32 s.record.size)
      ++ s.record.kind.toByte :: s.record.binding.toByte :: word16 s.record.sectionIndex := by
    rw [h.record, SymbolRecord.toBytes, append_assoc]
    rfl
  have kind : piece[12]? = some s.record.kind.toByte := by
    rw [bytes, List.getElem?_append_right (by simp)]
    simp
  have binding : piece[13]? = some s.record.binding.toByte := by
    rw [bytes, List.getElem?_append_right (by simp)]
    simp
  refine ⟨?_, ?_, s.name, h.name⟩
  · rw [kind]
    cases s.record.kind <;> decide
  · rw [binding]
    cases s.record.binding <;> decide

theorem Readable.describes (h : Readable strings piece) (long : piece.length = 16) :
    ∃ s, Describes strings piece s := by
  obtain ⟨name, spelled⟩ := h.name
  have kind : ∃ k, SymbolKind.ofByte? (byteAt piece 12) = some k := by
    rw [byteAt, headD_eq_head?_getD, head?_drop]
    rcases h.kind with same | same <;> rw [same] <;> exact ⟨_, rfl⟩
  have binding : ∃ b, Binding.ofByte? (byteAt piece 13) = some b := by
    rw [byteAt, headD_eq_head?_getD, head?_drop]
    rcases h.binding with same | same | same <;> rw [same] <;> exact ⟨_, rfl⟩
  obtain ⟨k, kind⟩ := kind
  obtain ⟨b, binding⟩ := binding
  have enough : symbolRecordSize ≤ piece.length := Nat.le_of_eq long.symm
  have parsed : ∃ r, SymbolRecord.parse piece = .ok r := by
    rw [SymbolRecord.parse, needBytes_of_le _ enough, kind, binding]
    exact ⟨_, rfl⟩
  obtain ⟨r, parsed⟩ := parsed
  have same := (SymbolRecord.parse_iff_begins.1 parsed).eq_of_length (by rw [SymbolRecord.length_toBytes, long])
  exact ⟨⟨name, r⟩, same.symm, spelled⟩

theorem readSymbols_eq_ok :
    readSymbols strings table = .ok symbols ↔ table = symbols.flatMap (·.record.toBytes) ∧
      ∀ s ∈ symbols, Spells strings s.record.nameOffset.toNat s.name := by
  constructor
  · intro run
    change (piecesOf 15 table.length table).mapM _ = _ at run
    generalize enough : table.length = limit at run
    replace enough := Nat.le_of_eq enough
    induction limit generalizing table symbols with
    | zero =>
      obtain rfl : table = [] := length_eq_zero_iff.1 (Nat.le_zero.1 enough)
      cases run
      exact ⟨rfl, forall_mem_nil _⟩
    | succ limit ih =>
      cases table with
      | nil =>
        cases run
        exact ⟨rfl, forall_mem_nil _⟩
      | cons b bs =>
        rw [piecesOf, mapM_cons] at run
        obtain ⟨s, first, run⟩ := ok_bind.1 run
        obtain ⟨rest, more, done⟩ := ok_bind.1 run
        cases done
        obtain ⟨r, parsed, first⟩ := ok_bind.1 first
        obtain ⟨name, found, first⟩ := ok_bind.1 first
        cases first
        have shorter : (bs.drop 15).length ≤ limit := by
          have : bs.length + 1 ≤ limit + 1 := enough
          rw [length_drop]
          omega
        obtain ⟨records, names⟩ := ih more shorter
        have whole : r.toBytes = b :: bs.take 15 := by
          refine (SymbolRecord.parse_iff_begins.1 parsed).eq_of_length_le ?_
          rw [SymbolRecord.length_toBytes, length_cons, length_take]
          omega
        refine ⟨?_, forall_mem_cons.2 ⟨StringTable.lookup_eq_ok.1 found, names⟩⟩
        rw [flatMap_cons, whole, ← records, cons_append, take_append_drop]
  · rintro ⟨rfl, names⟩
    exact Layout.readSymbols_records fun s mem => StringTable.lookup_eq_ok.2 (names s mem)

theorem range_records {k : Nat} {s : Symbol} (h : symbols[k]? = some s) :
    range (symbols.flatMap (·.record.toBytes)) (16 * k) 16 = s.record.toBytes := by
  induction symbols generalizing k with
  | nil => cases h
  | cons first rest ih =>
    have long := first.record.length_toBytes
    cases k with
    | zero =>
      obtain rfl : first = s := Option.some.inj h
      rw [range, flatMap_cons, Nat.mul_zero, drop_zero, take_left' long]
    | succ k =>
      rw [← ih h, range, flatMap_cons, Nat.mul_succ, Nat.add_comm, ← drop_drop, drop_left' long]
      rfl

theorem exists_symbols (long : table.length = 16 * n) (readable : ∀ k < n, Readable strings (range table (16 * k) 16)) :
    ∃ symbols, readSymbols strings table = .ok symbols := by
  suffices ∃ symbols : List Symbol, table = symbols.flatMap (·.record.toBytes) ∧
      ∀ s ∈ symbols, Spells strings s.record.nameOffset.toNat s.name by
    obtain ⟨symbols, records⟩ := this
    exact ⟨symbols, readSymbols_eq_ok.2 records⟩
  induction n generalizing table with
  | zero => exact ⟨[], length_eq_zero_iff.1 long, forall_mem_nil _⟩
  | succ n ih =>
    have rest : ∀ k < n, Readable strings (range (table.drop 16) (16 * k) 16) := by
      intro k small
      have next := readable (k + 1) (by omega)
      rwa [range, Nat.mul_succ, Nat.add_comm, ← drop_drop] at next
    obtain ⟨symbols, records, names⟩ := ih (by rw [length_drop]; omega) rest
    obtain ⟨s, record, name⟩ := (readable 0 (by omega)).describes (length_range (by omega))
    rw [record, field_toBytes] at name
    refine ⟨s :: symbols, ?_, forall_mem_cons.2 ⟨name, names⟩⟩
    rw [flatMap_cons, ← records, ← record, range, drop_zero, take_append_drop]

/-! ## Modules -/

theorem slice_eq_ok {offset size : UInt32} : slice bytes offset size part = .ok r ↔
      offset.toNat + size.toNat ≤ bytes.length ∧ range bytes offset.toNat size.toNat = r := by
  simp only [slice]
  by_cases within : offset.toNat + size.toNat ≤ bytes.length
  · rw [if_pos within]
    constructor
    · exact fun cut => ⟨within, Except.ok.inj cut⟩
    · rintro ⟨-, rfl⟩
      rfl
  · rw [if_neg within]
    constructor
    · intro cut
      cases cut
    · rintro ⟨inside, -⟩
      exact absurd inside within

def codeRange (bytes : Bytes) : Bytes := range bytes (field bytes 44) (field bytes 48)

def stringRange (bytes : Bytes) : Bytes := range bytes (field bytes 16) (field bytes 20)

def symbolRange (bytes : Bytes) : Bytes := range bytes (field bytes 24) (field bytes 28)

def recordRange (bytes : Bytes) (k : Nat) : Bytes := range (symbolRange bytes) (16 * k) 16

/-- The bytes are a module: there are headers that begin with the magic, the three ranges that they name end
within the bytes, and the symbol table is cut into records that can be read. -/
structure Accepted (bytes : Bytes) : Prop where
  headers : 68 ≤ bytes.length
  magic : bytes.take 4 = [0x43, 0x4F, 0x46, 0x00]
  code : field bytes 44 + field bytes 48 ≤ bytes.length
  strings : field bytes 16 + field bytes 20 ≤ bytes.length
  symbols : field bytes 24 + field bytes 28 ≤ bytes.length
  whole : 16 ∣ field bytes 28
  records : ∀ k < field bytes 28 / 16, Readable (stringRange bytes) (recordRange bytes k)

theorem word32At_magic (h : 4 ≤ bytes.length) : word32At bytes 0 = magic ↔ bytes.take 4 = [0x43, 0x4F, 0x46, 0x00] := by
  have spelled : word32 (word32At bytes 0) = bytes.take 4 := word32_word32At h
  constructor
  · intro good
    rw [← spelled, good]
    rfl
  · intro good
    rw [word32At, drop_zero, good]
    rfl

theorem field_drop (bytes : Bytes) (m n : Nat) : field (bytes.drop m) n = field bytes (m + n) := by
  rw [field, field, drop_drop]

theorem View.parse_eq_ok :
    View.parse bytes = .ok v ↔ 68 ≤ bytes.length ∧ bytes.take 4 = [0x43, 0x4F, 0x46, 0x00] ∧
      headerAt bytes = v.header ∧ sectionHeaderAt (bytes.drop 32) = v.codeSection ∧
      (field bytes 44 + field bytes 48 ≤ bytes.length ∧ codeRange bytes = v.code) ∧
      field bytes 16 + field bytes 20 ≤ bytes.length ∧ field bytes 24 + field bytes 28 ≤ bytes.length ∧
      readSymbols (stringRange bytes) (symbolRange bytes) = .ok v.symbols := by
  have code : slice bytes (sectionHeaderAt (bytes.drop 32)).offset (sectionHeaderAt (bytes.drop 32)).size .code
      = .ok v.code ↔ field bytes 44 + field bytes 48 ≤ bytes.length ∧ codeRange bytes = v.code := by
    rw [slice_eq_ok, sectionHeaderAt, toNat_word32At, toNat_word32At, field_drop, field_drop]
    rfl
  have strings (r : Bytes) : slice bytes (headerAt bytes).stringTableOffset (headerAt bytes).stringTableSize .strings
      = .ok r ↔ field bytes 16 + field bytes 20 ≤ bytes.length ∧ stringRange bytes = r := by
    rw [slice_eq_ok, headerAt, toNat_word32At, toNat_word32At]
    rfl
  have symbols (r : Bytes) : slice bytes (headerAt bytes).symbolTableOffset (headerAt bytes).symbolTableSize .symbols
      = .ok r ↔ field bytes 24 + field bytes 28 ≤ bytes.length ∧ symbolRange bytes = r := by
    rw [slice_eq_ok, headerAt, toNat_word32At, toNat_word32At]
    rfl
  constructor
  · intro parsed
    obtain ⟨h, header, parsed⟩ := ok_bind.1 parsed
    obtain ⟨s, codeSection, parsed⟩ := ok_bind.1 parsed
    obtain ⟨long, good, rfl⟩ := Header.parse_eq_ok.1 header
    obtain ⟨longer, rfl⟩ := SectionHeader.parse_eq_ok.1 codeSection
    obtain ⟨c, cut, parsed⟩ := ok_bind.1 parsed
    obtain ⟨_, names, parsed⟩ := ok_bind.1 parsed
    obtain ⟨_, table, parsed⟩ := ok_bind.1 parsed
    obtain ⟨_, read, parsed⟩ := ok_bind.1 parsed
    cases parsed
    obtain ⟨inStrings, rfl⟩ := (strings _).1 names
    obtain ⟨inSymbols, rfl⟩ := (symbols _).1 table
    have enough : 36 ≤ (bytes.drop 32).length := longer
    rw [length_drop] at enough
    exact ⟨by omega, (word32At_magic (by omega)).1 good, rfl, rfl, code.1 cut, inStrings, inSymbols, read⟩
  · rintro ⟨long, good, header, codeSection, cut, inStrings, inSymbols, read⟩
    have first := Header.parse_eq_ok.2 ⟨by omega, (word32At_magic (by omega)).2 good, rfl⟩
    have second : SectionHeader.parse (bytes.drop headerSize) = .ok (sectionHeaderAt (bytes.drop 32)) :=
      SectionHeader.parse_eq_ok.2 ⟨by rw [length_drop, headerSize]; omega, rfl⟩
    refine ok_bind.2 ⟨_, first, ok_bind.2 ⟨_, second, ok_bind.2 ⟨_, code.2 cut, ?_⟩⟩⟩
    refine ok_bind.2 ⟨_, (strings _).2 ⟨inStrings, rfl⟩, ok_bind.2 ⟨_, (symbols _).2 ⟨inSymbols, rfl⟩, ?_⟩⟩
    exact ok_bind.2 ⟨_, read, by rw [header, codeSection]; rfl⟩

theorem symbolRange_of_parse (h : View.parse bytes = .ok v) : field bytes 28 = 16 * v.symbols.length ∧
      ∀ k s, v.symbols[k]? = some s → Describes (stringRange bytes) (recordRange bytes k) s := by
  obtain ⟨-, -, -, -, -, -, inSymbols, read⟩ := View.parse_eq_ok.1 h
  obtain ⟨records, names⟩ := readSymbols_eq_ok.1 read
  refine ⟨?_, fun k s here => ?_⟩
  · rw [← Layout.length_records, ← records, symbolRange, length_range inSymbols]
  · have record : recordRange bytes k = s.record.toBytes := by
      rw [recordRange, records, range_records here]
    refine ⟨record, ?_⟩
    rw [record, field_toBytes]
    exact names s (mem_of_getElem? here)

theorem accepted_iff : (∃ v, View.parse bytes = .ok v) ↔ Accepted bytes := by
  constructor
  · rintro ⟨v, parsed⟩
    obtain ⟨long, good, -, -, ⟨code, -⟩, strings, symbols, -⟩ := View.parse_eq_ok.1 parsed
    obtain ⟨count, records⟩ := symbolRange_of_parse parsed
    refine ⟨long, good, code, strings, symbols, ⟨_, count⟩, fun k small => ?_⟩
    have inside : k < v.symbols.length := by omega
    exact (records k _ (List.getElem?_eq_getElem inside)).readable
  · intro h
    obtain ⟨n, count⟩ := h.whole
    have long : (symbolRange bytes).length = 16 * n := by rw [symbolRange, length_range h.symbols, count]
    obtain ⟨symbols, read⟩ := exists_symbols long fun k small => h.records k (by omega)
    exact ⟨⟨headerAt bytes, sectionHeaderAt (bytes.drop 32), codeRange bytes, symbols⟩,
      View.parse_eq_ok.2 ⟨h.headers, h.magic, rfl, rfl, ⟨h.code, rfl⟩, h.strings, h.symbols, read⟩⟩

theorem headers_begin (h : View.parse bytes = .ok v) : v.header.toBytes ++ v.codeSection.toBytes <+: bytes := by
  obtain ⟨long, good, header, codeSection, -⟩ := View.parse_eq_ok.1 h
  have first := Header.parse_eq_ok.2 ⟨by omega, (word32At_magic (by omega)).2 good, header⟩
  have second := SectionHeader.parse_eq_ok.2 ⟨by rw [length_drop]; omega, codeSection⟩
  obtain ⟨-, rest, whole⟩ := Header.parse_iff_begins.1 first
  rw [← whole, drop_left' (Header.length_toBytes _)] at second
  rw [← whole]
  exact (prefix_append_right_inj _).2 (SectionHeader.parse_iff_begins.1 second)

theorem range_append_left (h : offset + size ≤ bytes.length) (more : Bytes) :
    range (bytes ++ more) offset size = range bytes offset size := by
  rw [range, drop_append_of_le_length (by omega), take_append_of_le_length]
  · rfl
  · rw [length_drop]
    omega

theorem slice_append_left {offset size : UInt32}
    (h : slice bytes offset size part = .ok r) (more : Bytes) : slice (bytes ++ more) offset size part = .ok r := by
  obtain ⟨within, rfl⟩ := slice_eq_ok.1 h
  refine slice_eq_ok.2 ⟨?_, range_append_left within more⟩
  rw [length_append]
  omega

theorem View.parse_append_left (h : View.parse bytes = .ok v) (more : Bytes) : View.parse (bytes ++ more) = .ok v := by
  obtain ⟨_, header, h⟩ := ok_bind.1 h
  obtain ⟨_, codeSection, h⟩ := ok_bind.1 h
  obtain ⟨_, code, h⟩ := ok_bind.1 h
  obtain ⟨_, strings, h⟩ := ok_bind.1 h
  obtain ⟨_, symbols, h⟩ := ok_bind.1 h
  obtain ⟨good, first⟩ := Header.parse_iff_begins.1 header
  have long : headerSize ≤ bytes.length := (Header.length_toBytes _).symm.trans_le first.length_le
  have second := SectionHeader.parse_iff_begins.1 codeSection
  refine ok_bind.2 ⟨_, Header.parse_iff_begins.2 ⟨good, first.trans (prefix_append _ _)⟩, ?_⟩
  rw [drop_append_of_le_length long]
  refine ok_bind.2 ⟨_, SectionHeader.parse_iff_begins.2 (second.trans (prefix_append _ _)), ?_⟩
  exact ok_bind.2 ⟨_, slice_append_left code more, ok_bind.2 ⟨_, slice_append_left strings more,
    ok_bind.2 ⟨_, slice_append_left symbols more, h⟩⟩⟩

/-- Bytes are read as a module if and only if they are one: two headers that begin with the magic, the ranges
that they name, and a symbol table of readable records.  A module that is read has these headers, the code is
the range that is named, there is one symbol for each record, in order, and bytes behind it change nothing. -/
theorem parse_accepts : (∀ bytes, (∃ v, View.parse bytes = .ok v) ↔ Accepted bytes) ∧
    ∀ bytes v, View.parse bytes = .ok v →
      v.header.toBytes ++ v.codeSection.toBytes = bytes.take 68 ∧ v.code = codeRange bytes ∧
      v.symbols.length = field bytes 28 / 16 ∧
      (∀ k s, v.symbols[k]? = some s → Describes (stringRange bytes) (recordRange bytes k) s) ∧
      ∀ more, View.parse (bytes ++ more) = .ok v := by
  refine ⟨fun bytes => accepted_iff, fun bytes v parsed => ?_⟩
  obtain ⟨-, -, -, -, ⟨-, code⟩, -⟩ := View.parse_eq_ok.1 parsed
  obtain ⟨count, records⟩ := symbolRange_of_parse parsed
  refine ⟨?_, code.symm, by omega, records, View.parse_append_left parsed⟩
  have headers := List.prefix_iff_eq_take.1 (headers_begin parsed)
  rwa [List.length_append, Header.length_toBytes, SectionHeader.length_toBytes] at headers

/-- A module whose parts lie on top of each other: all of it is code, the magic is a name, and the last fields
of the section header are a symbol. -/
def overlapping : Bytes :=
  Header.toBytes { magic := magic, stringTableSize := 4, symbolTableOffset := 52, symbolTableSize := 16 }
    ++ SectionHeader.toBytes { (SectionHeader.code 0) with offset := 0, size := 68, alignment := 0 }

theorem parse_accepts_overlapping : Accepted overlapping ∧
    ∃ v, View.parse overlapping = .ok v ∧ v.code = overlapping ∧ v.symbols.map (·.name) = [ascii "COF"] ∧
      ∀ more, View.parse (overlapping ++ more) = .ok v := by
  have computed : (View.parse overlapping).toOption.any
      (fun v => v.code == overlapping && v.symbols.map (·.name) == [ascii "COF"]) = true := by decide +kernel
  obtain ⟨v, parsed, holds⟩ := ok_of_any computed
  obtain ⟨code, names⟩ := Bool.and_eq_true_iff.1 holds
  refine ⟨(parse_accepts.1 _).1 ⟨v, parsed⟩, v, parsed, eq_of_beq code, eq_of_beq names, ?_⟩
  exact (parse_accepts.2 _ _ parsed).2.2.2.2

/-! ## Records -/

/-- Records are read back whatever follows them, and a record that is read is written as the bytes it was read
from. -/
theorem records_roundTrip :
    ((∀ h rest, h.magic = magic → Header.parse (h.toBytes ++ rest) = .ok h) ∧
      (∀ s rest, SectionHeader.parse (s.toBytes ++ rest) = .ok s) ∧
      ∀ r rest, SymbolRecord.parse (r.toBytes ++ rest) = .ok r) ∧
    (∀ bytes h, Header.parse bytes = .ok h → h.toBytes = bytes.take 32) ∧
    (∀ bytes s, SectionHeader.parse bytes = .ok s → s.toBytes = bytes.take 36) ∧
    ∀ bytes r, SymbolRecord.parse bytes = .ok r → r.toBytes = bytes.take 16 := by
  refine ⟨⟨fun h rest good => Header.parse_toBytes h good rest, SectionHeader.parse_toBytes,
    SymbolRecord.parse_toBytes⟩, fun bytes h parsed => ?_, fun bytes s parsed => ?_, fun bytes r parsed => ?_⟩
  · rw [← Header.length_toBytes h]
    exact List.prefix_iff_eq_take.1 (Header.parse_iff_begins.1 parsed).2
  · rw [← SectionHeader.length_toBytes s]
    exact List.prefix_iff_eq_take.1 (SectionHeader.parse_iff_begins.1 parsed)
  · rw [← SymbolRecord.length_toBytes r]
    exact List.prefix_iff_eq_take.1 (SymbolRecord.parse_iff_begins.1 parsed)

/-- A record with no two fields alike, and one that is read from bytes. -/
theorem records_roundTrip_distinct :
    SymbolRecord.parse
        (SymbolRecord.toBytes ⟨0x04030201, 0x08070605, 0x0C0B0A09, .function, .external, 0x0E0D⟩ ++ [7]) =
      .ok ⟨0x04030201, 0x08070605, 0x0C0B0A09, .function, .external, 0x0E0D⟩ ∧
    ∃ s, SectionHeader.parse ((List.range 40).map UInt8.ofNat) = .ok s ∧ s.entrySize = 0x23222120 ∧
      s.toBytes = (List.range 36).map UInt8.ofNat := by
  have computed : (SectionHeader.parse ((List.range 40).map UInt8.ofNat)).toOption.any
      (·.entrySize == 0x23222120) = true := by decide +kernel
  obtain ⟨s, parsed, size⟩ := ok_of_any computed
  exact ⟨records_roundTrip.1.2.2 _ [7], s, parsed, eq_of_beq size, records_roundTrip.2.2.1 _ s parsed⟩

/-! ## Modules that are cut short -/

/-- Bytes that are missing are reported, with the part that they belong to. -/
def Truncated {α : Type} (result : Except FormatError α) : Prop :=
  ∃ part needed available, result = .error (.truncated part needed available)

theorem Truncated.bind {α β : Type} {x : Except FormatError α} (h : Truncated x) (f : α → Except FormatError β) :
    Truncated (x >>= f) := by
  obtain ⟨part, needed, available, rfl⟩ := h
  exact ⟨part, needed, available, rfl⟩

theorem ok_bind_eq {α β : Type} {x : Except FormatError α} {a : α} (h : x = .ok a) (f : α → Except FormatError β) :
    (x >>= f) = f a := by
  rw [h]
  rfl

theorem truncated_needBytes (part : Part) (h : bytes.length < needed) : Truncated (needBytes bytes part needed) := by
  simp only [needBytes]
  rw [if_pos h]
  exact ⟨_, _, _, rfl⟩

theorem slice_or_truncated (bytes : Bytes) (offset size : UInt32) (part : Part) :
    (offset.toNat + size.toNat ≤ bytes.length ∧ ∃ r, slice bytes offset size part = .ok r) ∨
      Truncated (slice bytes offset size part) := by
  by_cases within : offset.toNat + size.toNat ≤ bytes.length
  · exact .inl ⟨within, _, slice_eq_ok.2 ⟨within, rfl⟩⟩
  · refine .inr ⟨part, offset.toNat + size.toNat, bytes.length, ?_⟩
    simp only [slice]
    rw [if_neg within]

/-- The symbol table of a module ends where the module does, so a part of it has lost some of its ranges. -/
theorem Layout.WellFormed.truncated {m : Layout} (h : m.WellFormed) (short : n < m.toBytes.length) :
    Truncated (View.parse (m.toBytes.take n)) := by
  have length : (m.toBytes.take n).length = n := by
    rw [length_take]
    omega
  have total : m.header.symbolTableOffset.toNat + m.header.symbolTableSize.toNat = m.toBytes.length := by
    simp only [h.symbolsOffset, h.symbolsSize, toBytes, length_append, Header.length_toBytes,
      SectionHeader.length_toBytes, length_records]
  obtain ⟨rest, whole⟩ := headers_begin (Layout.parse_toBytes h)
  unfold View.parse
  by_cases inHeader : n < 32
  · exact ((truncated_needBytes _ (by rw [length]; exact inHeader)).bind _).bind _
  have first : m.header.toBytes <+: m.toBytes.take n := by
    refine prefix_of_prefix_length_le ?_ (List.take_prefix n _) (by rw [length, Header.length_toBytes]; omega)
    exact prefix_append _ _
  rw [ok_bind_eq (Header.parse_iff_begins.2 ⟨h.magic, first⟩)]
  have left : ((m.toBytes.take n).drop headerSize).length = n - 32 := by
    rw [length_drop, length, headerSize]
  by_cases inSection : n < 68
  · exact ((truncated_needBytes _ (by rw [left, sectionHeaderSize]; omega)).bind _).bind _
  have second : m.codeSection.toBytes <+: (m.toBytes.take n).drop headerSize := by
    have front : m.codeSection.toBytes <+: m.toBytes.drop headerSize := by
      exact prefix_append _ _
    rw [drop_take] at left ⊢
    exact prefix_of_prefix_length_le front (List.take_prefix _ _)
      (by rw [left, SectionHeader.length_toBytes]; omega)
  rw [ok_bind_eq (SectionHeader.parse_iff_begins.2 second)]
  rcases slice_or_truncated (m.toBytes.take n) m.codeSection.offset m.codeSection.size .code with
    ⟨-, _, code⟩ | cut
  swap
  · exact cut.bind _
  rw [ok_bind_eq code]
  rcases slice_or_truncated (m.toBytes.take n) m.header.stringTableOffset m.header.stringTableSize .strings with
    ⟨-, _, strings⟩ | cut
  swap
  · exact cut.bind _
  rw [ok_bind_eq strings]
  rcases slice_or_truncated (m.toBytes.take n) m.header.symbolTableOffset m.header.symbolTableSize .symbols with
    ⟨within, -⟩ | cut
  · rw [length] at within
    omega
  · exact cut.bind _

end Cof.Module

namespace Cof

open Cof.Module Cof.Instr

/-- A module of which bytes are missing at the end is never read, and what is reported is that they are
missing.  Code of which bytes are missing is decoded as the instructions before the cut if it is cut between
two of them.  If it is cut within an instruction, the end is reported there. -/
theorem compile_truncated :
    (∀ source bytes, compile source = .ok bytes → ∀ n < bytes.length,
      ∃ part needed available, View.parse (bytes.take n) = .error (.truncated part needed available)) ∧
    ∀ code pieces, Encodes code pieces →
      (∀ k, decodeStream (pieces.flatten.take (boundary pieces k)) = .ok ((code.take k).map written)) ∧
      ∀ n ≤ pieces.flatten.length, (∀ k, n ≠ boundary pieces k) →
        ∃ k o, boundary pieces k < n ∧ n < boundary pieces (k + 1) ∧ boundary pieces k ≤ o ∧ o ≤ n ∧
          decodeStream (pieces.flatten.take n) = .error (.unexpectedEnd o) := by
  refine ⟨fun source bytes compiled n short => ?_, fun code pieces encodes => ⟨?_, fun n => ?_⟩⟩
  · obtain ⟨p, s, -, -, -, m, wellFormed, rfl, -⟩ := compile_eq_ok compiled
    exact wellFormed.truncated short
  · exact decodeStream_take_boundary encodes
  · exact decodeStream_take_within encodes

/-- A module without its last byte, and a label that is cut within its number. -/
theorem compile_truncated_label :
    (∃ bytes, compile (ascii "int f;") = .ok bytes ∧ bytes.length = 112 ∧
      ∃ part needed available, View.parse (bytes.take 111) = .error (.truncated part needed available)) ∧
    decodeStream [0, 0, 0] = .ok [⟨.nop, .none, []⟩] ∧
    ∃ o, 3 ≤ o ∧ o ≤ 9 ∧ decodeStream [0, 0, 0, 0x21, 0, 1, 3, 0, 7] = .error (.unexpectedEnd o) := by
  have encodes : Encodes [⟨.nop, .none, []⟩, ⟨.jmp, .none, [.label 7]⟩]
      [[0, 0, 0], [0x21, 0, 1, 3, 0, 7, 0, 0, 0]] := by
    refine .cons ?_ (.cons ?_ .nil) <;> decide +kernel
  obtain ⟨whole, cut⟩ := compile_truncated.2 _ _ encodes
  have computed : (compile (ascii "int f;")).toOption.any (·.length == 112) = true := by decide +kernel
  obtain ⟨bytes, compiled, length⟩ := ok_of_any computed
  replace length := eq_of_beq length
  refine ⟨⟨bytes, compiled, length, compile_truncated.1 _ _ compiled 111 (by omega)⟩, whole 1, ?_⟩
  have inside : ∀ k, 9 ≠ boundary [[0, 0, 0], [0x21, 0, 1, 3, 0, 7, 0, 0, 0]] k := by
    intro k
    rcases k with _ | _ | k <;> simp [boundary]
  obtain ⟨k, o, after, before, atLeast, atMost, ends⟩ := cut 9 (by decide) inside
  obtain rfl : k = 1 := by
    rcases k with _ | _ | k
    · exact absurd before (by decide)
    · rfl
    · simp [boundary] at after
  exact ⟨o, atLeast, atMost, ends⟩

end Cof
