/-
  What decoders take.

  What a decoder does depends on the bytes in front of it.  Where they stand matters only for the offset that
  an error names, and what follows matters only if the decoder gets there: bytes that it takes are taken with
  anything behind them, and if some of them are missing it comes to the end.  `Takes` says this of one
  decoder, together with what it makes of the bytes.  It holds of single bytes and of tables, and goes through
  sequences of steps.
-/
import Cof.Proofs.Decoded

namespace Cof

open List

/-! ## Errors and their places -/

namespace DecodeError

def shifted : DecodeError → Nat → DecodeError
  | .unexpectedEnd n, further => .unexpectedEnd (n + further)
  | .unknownOpcode b n, further => .unknownOpcode b (n + further)
  | .unknownQualifier b n, further => .unknownQualifier b (n + further)
  | .unknownOperandKind b n, further => .unknownOperandKind b (n + further)
  | .unknownTypeTag b n, further => .unknownTypeTag b (n + further)

def byte? : DecodeError → Option UInt8
  | .unexpectedEnd _ => none
  | .unknownOpcode b _ | .unknownQualifier b _ | .unknownOperandKind b _ | .unknownTypeTag b _ => some b

/-- The error is about these bytes: its offset is not behind their end, and the byte that it blames stands
there. -/
structure Blames (e : DecodeError) (bytes : Bytes) : Prop where
  within : e.offset ≤ bytes.length
  stands : ∀ b, e.byte? = some b → bytes[e.offset]? = some b

variable {e : DecodeError}

@[simp] theorem shifted_zero (e : DecodeError) : e.shifted 0 = e := by cases e <;> rfl

@[simp] theorem shifted_shifted (e : DecodeError) (m n : Nat) : (e.shifted m).shifted n = e.shifted (m + n) := by
  cases e <;> simp only [shifted, Nat.add_assoc]

@[simp] theorem offset_shifted (e : DecodeError) (n : Nat) : (e.shifted n).offset = e.offset + n := by
  cases e <;> rfl

@[simp] theorem byte?_shifted (e : DecodeError) (n : Nat) : (e.shifted n).byte? = e.byte? := by
  cases e <;> rfl

theorem Blames.behind {bytes : Bytes} (h : e.Blames bytes) (before : Bytes) :
    (e.shifted before.length).Blames (before ++ bytes) where
  within := by
    have within := h.within
    rw [offset_shifted, length_append]
    omega
  stands b blamed := by
    rw [byte?_shifted] at blamed
    rw [offset_shifted, List.getElem?_append_right (by omega), Nat.add_sub_cancel]
    exact h.stands b blamed

end DecodeError

/-! ## Steps -/

/-- If some of these bytes are missing, the decoder comes to the end of the others. -/
def Starves {α : Type} (d : Decoder α) (bytes : Bytes) : Prop :=
  ∀ offset k, k < bytes.length → ∃ o ≤ k, d ⟨offset, bytes.take k⟩ = .error (.unexpectedEnd (o + offset))

/-- Whatever a decoder gives, it took bytes off the front for it, which stand in this relation; it takes them
anywhere, and not in part.  And where it fails it fails in the same way, wherever the bytes stand. -/
structure Takes {α : Type} (d : Decoder α) (P : α → Bytes → Prop) : Prop where
  ok : ∀ {offset bytes a r}, d ⟨offset, bytes⟩ = .ok (a, r) →
    ∃ used, bytes = used ++ r.ahead ∧ P a used ∧ Reads d used a ∧ Starves d used
  error : ∀ {offset bytes e}, d ⟨offset, bytes⟩ = .error e →
    ∃ e₀ : DecodeError, e₀.Blames bytes ∧ ∀ offset, d ⟨offset, bytes⟩ = .error (e₀.shifted offset)

namespace Decoder

variable {α β : Type} {d : Decoder α} {f : α → Decoder β} {P : α → Bytes → Prop}

variable {r : Reader} {a : α} {b : UInt8}

theorem bind_of_ok {r' : Reader} (h : d r = .ok (a, r')) : (d >>= f) r = f a r' := by
  show (d r >>= fun x => f x.1 x.2) = f a r'
  rw [h]
  rfl

theorem bind_of_error {e : DecodeError} (h : d r = .error e) : (d >>= f) r = .error e := by
  show (d r >>= fun x => f x.1 x.2) = .error e
  rw [h]
  rfl

theorem starves_nil : Starves d [] := fun _ _ short => absurd short (Nat.not_lt_zero _)

theorem takes_pure (h : P a []) : Takes (pure a) P where
  ok ran := by
    cases ran
    exact ⟨[], rfl, h, reads_pure a, starves_nil⟩
  error ran := by cases ran

theorem starves_bind {first second : Bytes} (reads : Reads d first a) (hd : Starves d first)
    (hf : Starves (f a) second) : Starves (d >>= f) (first ++ second) := by
  intro offset k short
  rw [length_append] at short
  by_cases inFirst : k < first.length
  · obtain ⟨o, early, ends⟩ := hd offset k inFirst
    rw [take_append_of_le_length (Nat.le_of_lt inFirst)]
    exact ⟨o, early, bind_of_error ends⟩
  · obtain ⟨o, early, ends⟩ := hf (offset + first.length) (k - first.length) (by omega)
    have cut : (first ++ second).take k = first ++ second.take (k - first.length) := by
      rw [take_append, take_of_length_le (by omega)]
    refine ⟨o + first.length, by omega, ?_⟩
    rw [cut, bind_of_ok (reads offset _), ends]
    exact congrArg (fun n => Except.error (DecodeError.unexpectedEnd n)) (by omega)

theorem takes_bind {Q : β → Bytes → Prop} (hd : Takes d P)
    (hf : ∀ a first, P a first → Takes (f a) fun b second => Q b (first ++ second)) : Takes (d >>= f) Q where
  ok {offset bytes b r} ran := by
    cases first : d ⟨offset, bytes⟩ with
    | error e =>
      rw [bind_of_error first] at ran
      cases ran
    | ok result =>
      obtain ⟨a, t⟩ := result
      rw [bind_of_ok first] at ran
      obtain ⟨used, rfl, related, reads, starves⟩ := hd.ok first
      obtain ⟨more, ahead, related', reads', starves'⟩ := (hf a used related).ok ran
      refine ⟨used ++ more, ?_, related', reads_bind reads reads', starves_bind reads starves starves'⟩
      rw [ahead, append_assoc]
  error {offset bytes e} ran := by
    cases first : d ⟨offset, bytes⟩ with
    | error e' =>
      obtain ⟨e₀, blames, fails⟩ := hd.error first
      exact ⟨e₀, blames, fun offset => bind_of_error (fails offset)⟩
    | ok result =>
      obtain ⟨a, t⟩ := result
      rw [bind_of_ok first] at ran
      obtain ⟨used, rfl, related, reads, -⟩ := hd.ok first
      obtain ⟨e₀, blames, fails⟩ := (hf a used related).error ran
      refine ⟨e₀.shifted used.length, blames.behind used, fun offset => ?_⟩
      rw [bind_of_ok (reads offset _), fails, DecodeError.shifted_shifted, Nat.add_comm]

theorem nothing_left {bytes : Bytes} (h : ∀ offset, d ⟨offset, bytes⟩ = .error (.unexpectedEnd offset)) :
    ∃ e₀ : DecodeError, e₀.Blames bytes ∧ ∀ offset, d ⟨offset, bytes⟩ = .error (e₀.shifted offset) := by
  refine ⟨.unexpectedEnd 0, ⟨Nat.zero_le _, nofun⟩, fun offset => ?_⟩
  rw [h, DecodeError.shifted, Nat.zero_add]

theorem starves_byte (h : ∀ offset, d ⟨offset, []⟩ = .error (.unexpectedEnd offset)) : Starves d [b] := by
  intro offset k short
  obtain rfl : k = 0 := Nat.lt_one_iff.1 short
  exact ⟨0, Nat.le_refl _, by rw [Nat.zero_add, take_zero, h]⟩

theorem takes_byte : Takes byte fun b bytes => bytes = [b] where
  ok {offset bytes b r} ran := by
    cases bytes with
    | nil => cases ran
    | cons first rest =>
      cases ran
      exact ⟨[b], rfl, rfl, reads_byte b, starves_byte fun _ => rfl⟩
  error {offset bytes e} ran := by
    cases bytes with
    | nil => exact nothing_left fun _ => rfl
    | cons first rest => cases ran

def AtByte (unknown : UInt8 → Nat → DecodeError) : Prop :=
  ∀ b n, unknown b n = (unknown b 0).shifted n ∧ (unknown b 0).offset = 0 ∧ (unknown b 0).byte? = some b

theorem entry_unknown {table : UInt8 → Option α} (unknown : UInt8 → Nat → DecodeError)
    (h : table b = none) (offset : Nat) (rest : Bytes) :
    entry table unknown ⟨offset, b :: rest⟩ = .error (unknown b offset) := by
  have failed : ∀ found, found = none →
      entry (fun _ => (found : Option α)) unknown ⟨offset, b :: rest⟩ = .error (unknown b offset) := by
    rintro _ rfl
    rfl
  exact failed (table b) h

theorem takes_entry (table : UInt8 → Option α) {unknown : UInt8 → Nat → DecodeError} (atByte : AtByte unknown) :
    Takes (entry table unknown) fun a bytes => ∃ b, bytes = [b] ∧ table b = some a where
  ok {offset bytes a r} ran := by
    cases bytes with
    | nil => cases ran
    | cons b rest =>
      cases known : table b with
      | none =>
        rw [entry_unknown unknown known] at ran
        cases ran
      | some a' =>
        have reads : Reads (entry table unknown) [b] a' := reads_entry known
        cases (reads offset rest).symm.trans ran
        exact ⟨[b], rfl, ⟨b, rfl, known⟩, reads, starves_byte fun _ => rfl⟩
  error {offset bytes e} ran := by
    cases bytes with
    | nil => exact nothing_left fun _ => rfl
    | cons b rest =>
      cases known : table b with
      | none =>
        obtain ⟨-, first, blamed⟩ := atByte b 0
        refine ⟨unknown b 0, ⟨by rw [first]; exact Nat.zero_le _, fun b' same => ?_⟩, fun offset => ?_⟩
        · rw [blamed] at same
          rw [first, ← same]
          rfl
        · rw [entry_unknown unknown known, (atByte b offset).1]
      | some a =>
        have reads : Reads (entry table unknown) [b] a := reads_entry known
        cases (reads offset rest).symm.trans ran

theorem takes_take (n : Nat) : Takes (take n) fun taken bytes => taken = bytes ∧ bytes.length = n where
  ok {offset bytes taken r} ran := by
    simp only [take] at ran
    split at ran
    case isFalse => cases ran
    case isTrue enough =>
      cases ran
      refine ⟨bytes.take n, (take_append_drop n bytes).symm, ⟨rfl, enough⟩, ?_, fun offset k short => ?_⟩
      · have reads := reads_take (bytes.take n)
        rwa [enough] at reads
      · have missing : (((bytes.take n).take k).take n).length ≠ n := by
          rw [length_take, length_take]
          omega
        exact ⟨0, Nat.zero_le _, by rw [take, if_neg missing, Nat.zero_add]⟩
  error {offset bytes e} ran := by
    simp only [take] at ran
    split at ran
    case isTrue => cases ran
    case isFalse missing => exact nothing_left fun _ => if_neg missing

theorem takes_number (n : Nat) :
    Takes (number n) fun value bytes => bytes.length = n ∧ value = ofLittleEndian bytes := by
  refine takes_bind (takes_take n) ?_
  rintro _ bytes ⟨rfl, length⟩
  refine takes_pure ?_
  rw [append_nil]
  exact ⟨length, rfl⟩

end Decoder

end Cof
