/-
  Writing a module: what a session holds, and what is read back of it.

  A session writes instructions and collects symbols, in any order.  `Carries w code listed` says what it
  holds at any time: behind the headers the code of the instructions so far, and a record and a stored
  name for every symbol so far.  An action adds to one of the two, so a run of actions carries just what
  it was given.
-/
import Cof.Compile
import Cof.Proofs.Layout
import Cof.Proofs.Text
import Mathlib.Data.List.Forall2
import Mathlib.Data.List.TakeDrop

namespace Cof

open List

/-! ## Correspondences -/

variable {α β : Type}

theorem exists_of_forall₂ {R : α → β → Prop} {as : List α} {bs : List β}
    (h : List.Forall₂ R as bs) {b : β} (mem : b ∈ bs) : ∃ a ∈ as, R a b := by
  induction h with
  | nil => cases mem
  | @cons a _ as _ related _ ih =>
    rcases mem_cons.1 mem with rfl | mem
    · exact ⟨a, mem_cons_self .., related⟩
    · obtain ⟨a', ha', related'⟩ := ih mem
      exact ⟨a', mem_cons_of_mem _ ha', related'⟩

theorem map_eq_of_forall₂ {γ : Type} {R : α → β → Prop} {as : List α} {bs : List β} {f : α → γ}
    {g : β → γ} (h : List.Forall₂ R as bs) (same : ∀ a b, R a b → f a = g b) : as.map f = bs.map g := by
  induction h with
  | nil => rfl
  | cons related _ ih => rw [map_cons, map_cons, same _ _ related, ih]

/-! ## Writing on a tape -/

theorem takeD_length_add (first second : Bytes) (n : Nat) :
    (first ++ second).takeD (first.length + n) 0 = first ++ second.takeD n 0 := by
  induction first with
  | nil => rw [nil_append, length_nil, Nat.zero_add, nil_append]
  | cons b first ih =>
    rw [length_cons, show first.length + 1 + n = first.length + n + 1 by omega, takeD_succ,
      cons_append, tail_cons, ih]
    rfl

namespace Tape

theorem pad_bytes (bytes : Array UInt8) (n : Nat) :
    (pad bytes n).toList = bytes.toList ++ List.replicate n 0 := by
  induction n generalizing bytes with
  | zero => exact (append_nil _).symm
  | succ n ih =>
    rw [pad, ih, Array.toList_push, append_assoc]
    rfl

variable {before after : Bytes} {t : Tape}

theorem put_bytes {bytes : Array UInt8} (h : bytes.toList = before ++ after)
    (b : UInt8) : (put ⟨bytes, before.length⟩ b).bytes.toList = (before ++ [b]) ++ after.drop 1 ∧
      (put ⟨bytes, before.length⟩ b).position = (before ++ [b]).length := by
  have size : bytes.size = before.length + after.length := by
    rw [← Array.length_toList, h, length_append]
  cases after with
  | nil =>
    have full : ¬ before.length < bytes.size := by simp [size]
    have none : before.length - bytes.size = 0 := by simp [size]
    simp only [put, dif_neg full, none, pad]
    exact ⟨by simp [h], by simp⟩
  | cons a after =>
    have inside : before.length < bytes.size := by simp [size]
    simp only [put, dif_pos inside]
    exact ⟨by simp [h], by simp⟩

theorem write_bytes (h : t.bytes.toList = before ++ after) (here : t.position = before.length) (bs : Bytes) :
    (t.write bs).bytes.toList = before ++ bs ++ after.drop bs.length ∧
      (t.write bs).position = before.length + bs.length := by
  induction bs generalizing t before after with
  | nil => simpa [write] using ⟨h, here⟩
  | cons b bs ih =>
    obtain ⟨bytes, position⟩ := t
    obtain rfl : position = before.length := here
    obtain ⟨first, next⟩ := put_bytes h b
    obtain ⟨written, stop⟩ := ih first next
    refine ⟨?_, stop.trans ?_⟩
    · simpa [write] using written
    · simp only [length_append, length_cons, length_nil]
      omega

theorem write_end (h : t.position = t.bytes.toList.length) (bs : Bytes) :
    (t.write bs).bytes.toList = t.bytes.toList ++ bs ∧
      (t.write bs).position = (t.write bs).bytes.toList.length := by
  obtain ⟨written, stop⟩ := write_bytes (append_nil _).symm h bs
  rw [drop_nil, append_nil] at written
  exact ⟨written, by rw [written, stop, length_append]⟩

theorem write_over {old : Bytes} {position : Nat}
    (h : t.bytes.toList = before ++ old ++ after) (here : position = before.length) (new : Bytes)
    (long : old.length = new.length) : ((t.seek position).write new).bytes.toList = before ++ new ++ after := by
  rw [append_assoc] at h
  have written := (write_bytes (t := t.seek position) h here new).1
  rwa [← long, drop_left] at written

/-- A write at any place.  What stands before the place is kept, and filled up with zeros if it ends too
early; what stands behind the new bytes is kept too. -/
theorem write_at (t : Tape) (place : Nat) {bs : Bytes} (nonempty : bs ≠ []) :
    ((t.seek place).write bs).bytes.toList
        = t.bytes.toList.takeD place 0 ++ bs ++ t.bytes.toList.drop (place + bs.length) ∧
      ((t.seek place).write bs).position = place + bs.length := by
  by_cases inside : place ≤ t.bytes.toList.length
  · have start : (t.bytes.toList.take place).length = place := by
      rw [length_take]
      omega
    have split : (t.seek place).bytes.toList = t.bytes.toList.take place ++ t.bytes.toList.drop place :=
      (take_append_drop _ _).symm
    obtain ⟨written, stop⟩ := write_bytes split start.symm bs
    rw [start] at stop
    rw [drop_drop] at written
    rw [takeD_eq_take _ inside]
    exact ⟨written, stop⟩
  · obtain ⟨b, rest, rfl⟩ := exists_cons_of_ne_nil nonempty
    -- The first byte goes behind the zeros, and the others go to the end.
    have filled : t.bytes.toList.takeD place 0
        = t.bytes.toList ++ List.replicate (place - t.bytes.size) 0 := by
      have := takeD_length_add t.bytes.toList [] (place - t.bytes.toList.length)
      rwa [append_nil, show t.bytes.toList.length + (place - t.bytes.toList.length) = place by omega,
        takeD_nil] at this
    have outside : ¬ place < t.bytes.size := by
      rw [← Array.length_toList]
      omega
    have put : (t.seek place).put b = ⟨(pad t.bytes (place - t.bytes.size)).push b, place + 1⟩ :=
      congrArg (Tape.mk · _) (dif_neg outside)
    have first : ((t.seek place).put b).bytes.toList = t.bytes.toList.takeD place 0 ++ [b] := by
      rw [put, Array.toList_push, pad_bytes, filled]
    have next : ((t.seek place).put b).position = (t.bytes.toList.takeD place 0 ++ [b]).length := by
      rw [put, length_append, takeD_length]
      rfl
    obtain ⟨written, stop⟩ := write_bytes (first.trans (append_nil _).symm) next rest
    refine ⟨?_, stop.trans ?_⟩
    · rw [drop_eq_nil_of_le (by omega), append_nil]
      rw [drop_nil, append_nil, append_assoc] at written
      exact written
    · simp only [length_append, takeD_length, length_cons, length_nil]
      omega

end Tape

namespace Module

variable {n : Nat}

theorem fitWord32_eq_ok {what : String} {word : UInt32} (h : fitWord32 n what = .ok word) :
    n < 2 ^ 32 ∧ word.toNat = n := by
  unfold fitWord32 at h
  split at h
  · rename_i small
    cases h
    exact ⟨small, UInt32.toNat_ofNat_of_lt' small⟩
  · cases h

theorem fitWord32_of_lt (h : n < 2 ^ 32) (what : String) : fitWord32 n what = .ok (.ofNat n) := if_pos h

namespace Writer

/-! ## What a session holds -/

def Lists (listed : Lowering.Listed) (symbol : Symbol) : Prop :=
  ∃ nameOffset, symbol = ⟨listed.name, nameOffset, listed.value, listed.size, listed.kind,
    listed.binding, if listed.binding = .external then undefinedSection else 0⟩

/-- Behind the headers stands the code of these instructions, and these symbols have a record and a
stored name. -/
structure Carries (w : Writer) (code : List Instr) (listed : List Lowering.Listed) : Prop where
  encodable : Instr.Encodable code
  bytes : w.tape.bytes.toList
    = ({} : Header).toBytes ++ (start.codeSection.toBytes ++ Instr.encodeStream code)
  position : w.tape.position = w.tape.bytes.toList.length
  codeStart : w.codeStart = 68
  sound : w.strings.Sound
  someStrings : w.strings.toBytes ≠ []
  symbols : ∃ symbols : List Symbol, w.records.reverse = symbols.map (·.record) ∧
    List.Forall₂ Lists listed symbols ∧
    ∀ s ∈ symbols, Holds w.strings.toBytes s.name s.record.nameOffset

theorem writeHeaders_tape (w : Writer) : w.writeHeaders.tape
    = ((w.tape.seek 0).write ({} : Header).toBytes).write w.codeSection.toBytes := rfl

theorem carries_start : start.writeHeaders.Carries [] [] := by
  obtain ⟨header, next⟩ := Tape.write_end (t := Tape.empty.seek 0) rfl ({} : Header).toBytes
  obtain ⟨headers, stop⟩ := Tape.write_end next start.codeSection.toBytes
  rw [header] at headers
  have empty : start.tape = Tape.empty := rfl
  rw [← empty, ← writeHeaders_tape] at headers stop
  refine ⟨forall_mem_nil _, headers.trans ?_, stop, ?_, ?_, ?_, [], rfl, .nil, forall_mem_nil _⟩
  · simp [empty, Tape.empty, Tape.seek, Instr.encodeStream]
  · refine Eq.trans (b := start.writeHeaders.tape.position) rfl (stop.trans ?_)
    rw [headers]
    simp [empty, Tape.empty, Tape.seek]
  · exact (StringTable.sound_empty.insert codeSectionName).1
  · exact cons_ne_nil _ _

variable {w w' : Writer} {code : List Instr} {listed : List Lowering.Listed}

theorem Carries.write (h : w.Carries code listed) {i : Instr} {bytes : Bytes} (encodes : i.encode = .ok bytes) :
    (w.write bytes).Carries (code ++ [i]) listed := by
  obtain ⟨written, stop⟩ := Tape.write_end h.position bytes
  have alone : Instr.Encodable [i] := forall_mem_singleton.2 ⟨bytes, encodes⟩
  refine ⟨h.encodable.append alone, written.trans ?_, stop, h.codeStart, h.sound, h.someStrings, h.symbols⟩
  rw [h.bytes, Instr.encodeStream_append, Instr.encodeStream_singleton encodes]
  simp only [append_assoc]

theorem Carries.refuse (h : w.Carries code listed) (bytes : Bytes) : (w.refuse bytes).Carries code listed :=
  ⟨h.encodable, h.bytes, h.position, h.codeStart, h.sound, h.someStrings, h.symbols⟩

theorem Carries.addSymbol (h : w.Carries code listed) (s : Lowering.Listed) :
    (w.addSymbol s.name s.value s.size s.kind s.binding).Carries code (listed ++ [s]) := by
  obtain ⟨sound, ⟨more, bytes⟩, held⟩ := h.sound.insert s.name
  obtain ⟨symbols, records, lists, names⟩ := h.symbols
  let new : Symbol := ⟨s.name, (w.strings.insert s.name).1, s.value, s.size, s.kind, s.binding,
    if s.binding = .external then undefinedSection else 0⟩
  refine ⟨h.encodable, h.bytes, h.position, h.codeStart, sound, ?_, symbols ++ [new], ?_, ?_, ?_⟩
  · show (w.strings.insert s.name).2.toBytes ≠ []
    rw [bytes]
    exact append_ne_nil_of_left_ne_nil h.someStrings _
  · show (new.record :: w.records).reverse = _
    rw [reverse_cons, records, map_append]
    rfl
  · exact rel_append lists (.cons ⟨_, rfl⟩ .nil)
  · intro x hx
    show Holds (w.strings.insert s.name).2.toBytes _ _
    rcases mem_append.1 hx with hx | hx
    · rw [bytes]
      exact (names x hx).append more
    · obtain rfl := mem_singleton.1 hx
      exact held

/-! ## Runs -/

/-- What a caller does between the headers and the end. -/
inductive Action where
  | write (i : Instr)
  | list (s : Lowering.Listed)

def Action.instr? : Action → Option Instr
  | .write i => some i
  | .list _ => none

def Action.listed? : Action → Option Lowering.Listed
  | .write _ => none
  | .list s => some s

def act (w : Writer) : Action → Except WriteError Writer
  | .write i =>
    match Writer.writeInstr i w with
    | .ok _ w => .ok w
    | .error e _ => .error e
  | .list s => .ok (w.addSymbol s.name s.value s.size s.kind s.binding)

theorem Carries.act (h : w.Carries code listed) {a : Action} (ran : w.act a = .ok w') :
    w'.Carries (code ++ a.instr?.toList) (listed ++ a.listed?.toList) := by
  cases a with
  | write i =>
    cases encodes : i.encode with
    | error f => simp [Writer.act, Writer.writeInstr, encodes] at ran
    | ok bytes =>
      obtain rfl : w.write bytes = w' := by simpa [Writer.act, Writer.writeInstr, encodes] using ran
      have added := h.write encodes
      rwa [← append_nil listed] at added
  | list s =>
    cases ran
    have added := h.addSymbol s
    rwa [← append_nil code] at added

theorem Carries.acts (h : w.Carries code listed) {actions : List Action}
    (ran : actions.foldlM Writer.act w = .ok w') :
    w'.Carries (code ++ actions.filterMap Action.instr?) (listed ++ actions.filterMap Action.listed?) := by
  induction actions generalizing w code listed with
  | nil =>
    cases ran
    rwa [filterMap_nil, filterMap_nil, append_nil, append_nil]
  | cons a actions ih =>
    obtain ⟨u, first, rest⟩ := ok_bind.1 ran
    have all := ih (h.act first) rest
    rw [append_assoc, append_assoc] at all
    have split : ∀ {α : Type} (f : Action → Option α),
        (a :: actions).filterMap f = (f a).toList ++ actions.filterMap f := by
      intro α f
      cases same : f a with
      | none => simp [same]
      | some x => simp [same]
    rwa [split, split]

/-! ## The end of a session

The fields that were left open are filled in, and all else stays. -/

section Fill

variable {t : Tape} {header : Header} {codeSection : SectionHeader} {rest : Bytes}

theorem write_flags (h : t.bytes.toList = header.toBytes ++ rest) (flags : UInt8) :
    ((t.seek 7).write [flags]).bytes.toList = { header with flags := flags }.toBytes ++ rest := by
  have split : t.bytes.toList
      = (word32 header.magic ++ [header.versionMajor, header.versionMinor, header.versionPatch])
        ++ [header.flags]
        ++ (word16 header.arch ++ word16 header.sectionCount ++ header.layoutBytes ++ rest) := by
    simp [h, Header.toBytes]
  rw [Tape.write_over split (by simp) [flags] rfl]
  simp [Header.toBytes, Header.layoutBytes]

theorem write_layout (h : t.bytes.toList = header.toBytes ++ rest) (filled : Header) :
    ((t.seek 12).write filled.layoutBytes).bytes.toList
      = { header with
          entryPoint := filled.entryPoint
          stringTableOffset := filled.stringTableOffset
          stringTableSize := filled.stringTableSize
          symbolTableOffset := filled.symbolTableOffset
          symbolTableSize := filled.symbolTableSize }.toBytes ++ rest := by
  have split : t.bytes.toList
      = (word32 header.magic ++ [header.versionMajor, header.versionMinor, header.versionPatch,
          header.flags] ++ word16 header.arch ++ word16 header.sectionCount)
        ++ header.layoutBytes ++ rest := by
    simp [h, Header.toBytes]
  rw [Tape.write_over split (by simp) filled.layoutBytes (by simp)]
  simp [Header.toBytes, Header.layoutBytes]

theorem write_size (h : t.bytes.toList = header.toBytes ++ (codeSection.toBytes ++ rest))
    (size : UInt32) :
    ((t.seek (headerSize + 16)).write (word32 size)).bytes.toList
      = header.toBytes ++ ({ codeSection with size := size }.toBytes ++ rest) := by
  have split : t.bytes.toList
      = (header.toBytes ++ (word32 codeSection.nameOffset ++ word32 codeSection.sectionType
          ++ word32 codeSection.flags ++ word32 codeSection.offset))
        ++ word32 codeSection.size
        ++ (word32 codeSection.link ++ word32 codeSection.info ++ word32 codeSection.alignment
          ++ word32 codeSection.entrySize ++ rest) := by
    simp [h, SectionHeader.toBytes, SectionHeader.fields]
  rw [Tape.write_over split (by simp [headerSize]) (word32 size) (by simp)]
  simp [SectionHeader.toBytes, SectionHeader.fields]

end Fill

theorem Carries.tables (h : w.Carries code listed) (codeSize : Nat) :
    let strings := (w.tape.seek (w.codeStart + codeSize)).write w.strings.toBytes
    strings.position = 68 + codeSize + w.strings.toBytes.length ∧
    (strings.write (w.records.reverse.flatMap SymbolRecord.toBytes)).bytes.toList
      = ({} : Header).toBytes ++ (start.codeSection.toBytes
        ++ ((Instr.encodeStream code).takeD codeSize 0 ++ (w.strings.toBytes
          ++ (w.records.reverse.flatMap SymbolRecord.toBytes
            ++ (Instr.encodeStream code).drop (codeSize + w.strings.toBytes.length
              + (w.records.reverse.flatMap SymbolRecord.toBytes).length))))) := by
  intro strings
  obtain ⟨written, stop⟩ := Tape.write_at w.tape (w.codeStart + codeSize) h.someStrings
  have headers : (({} : Header).toBytes ++ start.codeSection.toBytes).length = 68 := by simp
  -- Before the tables stand the headers and the code, and behind them the rest of the code.
  have front : w.tape.bytes.toList.takeD (w.codeStart + codeSize) 0
      = ({} : Header).toBytes ++ start.codeSection.toBytes ++ (Instr.encodeStream code).takeD codeSize 0 := by
    rw [h.bytes, h.codeStart, ← append_assoc, ← headers, takeD_length_add]
  have back : w.tape.bytes.toList.drop (w.codeStart + codeSize + w.strings.toBytes.length)
      = (Instr.encodeStream code).drop (codeSize + w.strings.toBytes.length) := by
    rw [h.bytes, h.codeStart, ← append_assoc, ← headers, Nat.add_assoc, drop_length_add_append]
  rw [front, back] at written
  have here : strings.position
      = (({} : Header).toBytes ++ start.codeSection.toBytes ++ (Instr.encodeStream code).takeD codeSize 0
        ++ w.strings.toBytes).length := by
    rw [stop, length_append, length_append, headers, takeD_length, h.codeStart]
  refine ⟨by rw [stop, h.codeStart], ?_⟩
  obtain ⟨all, -⟩ := Tape.write_bytes written here (w.records.reverse.flatMap SymbolRecord.toBytes)
  rw [all, drop_drop]
  simp only [append_assoc]

variable {codeSize : UInt32}

theorem Carries.finish (h : w.Carries code listed) (storable : ∀ s ∈ listed, Storable s.name)
    {entryPoint : UInt32} {tape : Tape} (ran : w.finish entryPoint codeSize = .ok tape) :
    ∃ m : Layout, m.WellFormed ∧ m.header.entryPoint = entryPoint ∧ m.codeSection.size = codeSize ∧
      m.code = (Instr.encodeStream code).takeD codeSize.toNat 0 ∧ List.Forall₂ Lists listed m.symbols ∧
      tape.bytes.toList = m.toBytes ++ (Instr.encodeStream code).drop
        (codeSize.toNat + m.strings.length + 16 * m.symbols.length) := by
  obtain ⟨stringsOffset, fit₁, ran⟩ := ok_bind.1 ran
  obtain ⟨stringsSize, fit₂, ran⟩ := ok_bind.1 ran
  obtain ⟨symbolsOffset, fit₃, ran⟩ := ok_bind.1 ran
  obtain ⟨symbolsSize, fit₄, ran⟩ := ok_bind.1 ran
  obtain rfl := Except.ok.inj ran
  obtain ⟨next, tables⟩ := h.tables codeSize.toNat
  obtain ⟨symbols, records, lists, held⟩ := h.symbols
  have count : w.records.length = symbols.length := by
    rw [← length_reverse, records, length_map]
  let header : Header := {
    flags := if entryPoint ≠ 0 then flagLinkable ||| flagExecutable else flagLinkable
    entryPoint := entryPoint
    stringTableOffset := stringsOffset
    stringTableSize := stringsSize
    symbolTableOffset := symbolsOffset
    symbolTableSize := symbolsSize }
  have filled := write_size (write_layout (write_flags tables header.flags) header) codeSize
  have stringsSize_eq : stringsSize.toNat = w.strings.toBytes.length := (fitWord32_eq_ok fit₂).2
  have short : w.strings.toBytes.length < 2 ^ 32 := (fitWord32_eq_ok fit₂).1
  refine ⟨⟨⟨header, { start.codeSection with size := codeSize },
    (Instr.encodeStream code).takeD codeSize.toNat 0, symbols⟩, w.strings.toBytes⟩, ?_, rfl, rfl, rfl,
    lists, ?_⟩
  · refine ⟨rfl, rfl, rfl, (takeD_length ..).symm, ?_, stringsSize_eq, ?_, ?_, ?_⟩
    · rw [takeD_length, ← h.codeStart]
      exact (fitWord32_eq_ok fit₁).2
    · rw [takeD_length, ← next]
      exact (fitWord32_eq_ok fit₃).2
    · rw [Nat.mul_comm, ← count]
      exact (fitWord32_eq_ok fit₄).2
    · intro s hs
      obtain ⟨l, hl, listed⟩ := exists_of_forall₂ lists hs
      have named : s.name = l.name := by
        obtain ⟨_, rfl⟩ := listed
        rfl
      exact (held s hs).lookup short (named ▸ storable l hl)
  · have table : w.records.reverse.flatMap SymbolRecord.toBytes
        = symbols.flatMap (·.record.toBytes) := by rw [records, flatMap_map]
    simp only [Tape.seekEnd]
    rw [filled, table, Layout.length_records, Layout.toBytes]
    simp only [append_assoc]
    rfl

/-- How far the tables reach if the code ends after `codeSize` bytes. -/
def reach (w : Writer) (codeSize : UInt32) : Nat :=
  w.codeStart + codeSize.toNat + w.strings.toBytes.length + w.records.length * symbolRecordSize

theorem Carries.exists_finish (h : w.Carries code listed) (entryPoint : UInt32)
    (fits : w.reach codeSize < 2 ^ 32) : ∃ tape, w.finish entryPoint codeSize = .ok tape := by
  have next := (h.tables codeSize.toNat).1
  have start := h.codeStart
  unfold reach at fits
  refine ⟨_, ok_bind.2 ⟨_, fitWord32_of_lt (by omega) _, ok_bind.2 ⟨_, fitWord32_of_lt (by omega) _,
    ok_bind.2 ⟨_, fitWord32_of_lt ?_ _, ok_bind.2 ⟨_, fitWord32_of_lt (by omega) _, rfl⟩⟩⟩⟩⟩
  omega

theorem Carries.codeSize_eq (h : w.Carries code listed) : w.codeSize = (Instr.encodeStream code).length := by
  unfold Writer.codeSize
  rw [h.position, h.bytes, h.codeStart]
  simp
  omega

end Writer

open Writer

theorem module_eq_ok {s : Lowering.State} {entryPoint : UInt32} {bytes : Bytes} {code : List Instr}
    {listed : List Lowering.Listed} (h : s.module entryPoint = .ok bytes) (carries : s.out.Carries code listed)
    (clean : ∀ s ∈ listed, Clean s.name) :
    ∃ m : Layout, m.WellFormed ∧ bytes = m.toBytes ∧ m.code = Instr.encodeStream code ∧
      m.header.entryPoint = entryPoint ∧ List.Forall₂ Writer.Lists listed m.symbols := by
  obtain ⟨codeSize, size, h⟩ := ok_bind.1 h
  obtain ⟨tape, finish, h⟩ := ok_bind.1 h
  cases h
  obtain ⟨m, wellFormed, entry, -, same, lists, bytes⟩ :=
    carries.finish (fun s hs => (clean s hs).storable) finish
  -- The code ends where it was written to.
  have stop : codeSize.toNat = (Instr.encodeStream code).length := (fitWord32_eq_ok size).2.trans carries.codeSize_eq
  rw [takeD_eq_take _ (Nat.le_of_eq stop), take_of_length_le (Nat.le_of_eq stop.symm)] at same
  rw [drop_eq_nil_of_le (by omega), append_nil] at bytes
  exact ⟨m, wellFormed, bytes, same, entry, lists⟩

def Symbol.listed (s : Symbol) : Lowering.Listed :=
  ⟨s.name, s.record.value, s.record.size, s.record.kind, s.record.binding⟩

/-- What a session was given is what is read of its module, wherever its code is said to end: the code
up to there, filled up with zeros, and the symbols in their order. -/
theorem parse_finish {actions : List Action} {w : Writer} {entryPoint codeSize : UInt32}
    (ran : actions.foldlM act start.writeHeaders = .ok w)
    (names : ∀ s ∈ actions.filterMap Action.listed?,
      0 ∉ s.name ∧ ∃ text, s.name = Utf8.encode text)
    (fits : w.reach codeSize < 2 ^ 32) :
    ∃ tape v, w.finish entryPoint codeSize = .ok tape ∧ View.parse tape.bytes.toList = .ok v ∧
      v.header.entryPoint = entryPoint ∧ v.header.flags &&& flagLinkable ≠ 0 ∧
      (v.header.isExecutable = true ↔ entryPoint ≠ 0) ∧ v.codeSection.size = codeSize ∧
      v.code = (Instr.encodeStream (actions.filterMap Action.instr?)).takeD codeSize.toNat 0 ∧
      v.symbols.map Symbol.listed = actions.filterMap Action.listed? ∧
      ∀ s ∈ v.symbols, s.record.sectionIndex = undefinedSection ↔ s.record.binding = .external := by
  have carries := Writer.carries_start.acts ran
  rw [List.nil_append, List.nil_append] at carries
  have storable : ∀ s ∈ actions.filterMap Action.listed?, Storable s.name := by
    intro s hs
    obtain ⟨noNul, text, same⟩ := names s hs
    exact ⟨noNul, text, by rw [same, Utf8.decode?_encode]⟩
  obtain ⟨tape, finish⟩ := carries.exists_finish entryPoint fits
  obtain ⟨m, wellFormed, entry, size, code, lists, bytes⟩ := carries.finish storable finish
  refine ⟨tape, m.toView, finish, ?_, entry, ?_, ?_, size, code, ?_, ?_⟩
  · rw [bytes]
    exact Layout.parse_append wellFormed _
  · rw [wellFormed.flags]
    split <;> decide
  · rw [← entry]
    exact wellFormed.isExecutable
  · have same := map_eq_of_forall₂ (f := id) (g := Symbol.listed) lists fun l s listed => by
      obtain ⟨_, rfl⟩ := listed
      rfl
    rw [← same, List.map_id]
  · intro s hs
    obtain ⟨l, -, _, rfl⟩ := exists_of_forall₂ lists hs
    by_cases external : l.binding = .external
    · simp [external]
    · simp [external, undefinedSection]

/-- Two instructions and three symbols in turns, two of the symbols under one name that is not ASCII. -/
def turns : List Action :=
  [.list ⟨[0xC3, 0xA9], 0, 3, .function, .global⟩, .write ⟨.ret, .none, []⟩,
   .list ⟨ascii "main", 0, 6, .function, .internal⟩, .write ⟨.ret, .none, []⟩,
   .list ⟨[0xC3, 0xA9], 7, 0, .object, .external⟩]

/-- The code is cut off in the middle of the second instruction. -/
theorem parse_finish_cut : ∃ w tape v, turns.foldlM act start.writeHeaders = .ok w ∧
    w.finish 68 4 = .ok tape ∧ View.parse tape.bytes.toList = .ok v ∧ v.header.entryPoint = 68 ∧
    v.header.isExecutable = true ∧ v.codeSection.size = 4 ∧ v.code = [0x31, 0, 0, 0x31] ∧
    v.symbols.map Symbol.listed = [⟨[0xC3, 0xA9], 0, 3, .function, .global⟩,
      ⟨ascii "main", 0, 6, .function, .internal⟩, ⟨[0xC3, 0xA9], 7, 0, .object, .external⟩] := by
  have computed : (turns.foldlM act start.writeHeaders).toOption.any
      (fun w => w.reach 4 < 2 ^ 32) = true := by
    decide +kernel
  obtain ⟨w, ran, fits⟩ := ok_of_any computed
  have accent : ∃ text, [0xC3, 0xA9] = Utf8.encode text := ⟨"é", by rw [Utf8.encode_eq]; decide⟩
  have plain : ∃ text, ascii "main" = Utf8.encode text := ⟨"main", by rw [Utf8.encode_eq]; decide⟩
  have names : ∀ s ∈ turns.filterMap Action.listed?, 0 ∉ s.name ∧ ∃ text, s.name = Utf8.encode text :=
    List.forall_mem_cons.2 ⟨⟨by decide, accent⟩, List.forall_mem_cons.2 ⟨⟨by decide, plain⟩,
      List.forall_mem_cons.2 ⟨⟨by decide, accent⟩, List.forall_mem_nil _⟩⟩⟩
  obtain ⟨tape, v, finish, view, entry, -, executable, size, code, symbols, -⟩ :=
    @parse_finish turns w 68 4 ran names (of_decide_eq_true fits)
  exact ⟨w, tape, v, ran, finish, view, entry, executable.2 (by decide), size, code, symbols⟩

end Module

end Cof
