/-
  Text survives as bytes: what `Utf8.encode` writes, `Utf8.decode?` reads, and it reads nothing else.

  A character that takes more than one byte has its highest bits in the first (`Long`) and six in each of the
  others (`tail`).  The reader takes one byte at a time and knows nothing of the writer.  After the first byte it
  is owed as many bytes as are still to come, holds the bits so far, and asks for the next byte in a range
  (`Admits`).  That range is where characters below the least one of their length, surrogates and values above
  U+10FFFF fall out; a `Char` is none of these.
-/
import Cof.Utf8

namespace Cof.Utf8

open List

/-! ## Characters as bytes -/

/-- The bytes behind the first, with six bits each. -/
def tail : Nat → Nat → Bytes
  | 0, _ => []
  | k + 1, n => .ofNat (n / 64 ^ k % 64 + 128) :: tail k n

/-- A character of more than one byte: its number, how many bytes follow the first, and the first. -/
inductive Long : Nat → Nat → Nat → Prop
  | two {n : Nat} (low : 0x80 ≤ n) (high : n < 0x800) : Long n 1 (n / 64 + 0xC0)
  | three {n : Nat} (low : 0x800 ≤ n) (high : n < 0x10000) (valid : n < 0xD800 ∨ 0xDFFF < n) :
      Long n 2 (n / 4096 + 0xE0)
  | four {n : Nat} (low : 0x10000 ≤ n) (high : n < 0x110000) : Long n 3 (n / 262144 + 0xF0)

variable {n k first : Nat} {b : UInt8} {p : Pending} {read : List (Option Char)} {bs : Bytes}

theorem toNat_ofNat (h : n < 256) : (UInt8.ofNat n).toNat = n := UInt8.toNat_ofNat_of_lt' h

theorem toNat_char (h : n < 0xD800 ∨ 0xDFFF < n ∧ n < 0x110000) : (Char.ofNat n).val.toNat = n := by
  have valid : n.isValidChar := h
  rw [Char.ofNat, dif_pos valid]
  rfl

theorem Long.utf8EncodeChar (h : Long n k first) : String.utf8EncodeChar (.ofNat n) = .ofNat first :: tail k n := by
  cases h with
  | two low high =>
    rw [String.utf8EncodeChar, toNat_char (.inl (by omega)), if_neg (by omega), if_pos (by omega),
      Nat.mod_eq_of_lt (show n / 64 < 32 by omega)]
    simp [tail]
  | three low high valid =>
    rw [String.utf8EncodeChar, toNat_char (by omega), if_neg (by omega), if_neg (by omega), if_pos (by omega),
      Nat.mod_eq_of_lt (show n / 4096 < 16 by omega)]
    simp [tail]
  | four low high =>
    rw [String.utf8EncodeChar, toNat_char (by omega), if_neg (by omega), if_neg (by omega), if_neg (by omega),
      Nat.mod_eq_of_lt (show n / 262144 < 8 by omega)]
    simp [tail]

theorem char_cases (c : Char) :
    (∃ n < 128, c = .ofNat n ∧ String.utf8EncodeChar c = [.ofNat n]) ∨ ∃ n k first, c = .ofNat n ∧ Long n k first := by
  have valid : c.val.toNat < 0xD800 ∨ 0xDFFF < c.val.toNat ∧ c.val.toNat < 0x110000 := c.valid
  have same : c = .ofNat c.val.toNat := c.ofNat_toNat.symm
  by_cases one : c.val.toNat < 0x80
  · exact .inl ⟨_, one, same, by rw [String.utf8EncodeChar, if_pos (by omega)]⟩
  by_cases two : c.val.toNat < 0x800
  · exact .inr ⟨_, _, _, same, .two (by omega) two⟩
  by_cases three : c.val.toNat < 0x10000
  · exact .inr ⟨_, _, _, same, .three (by omega) three (by omega)⟩
  · exact .inr ⟨_, _, _, same, .four (by omega) (by omega)⟩

/-! ## What the reader asks for -/

/-- The reader has the bits of this number, and its next six bits are in the range. -/
def Admits (p : Pending) (n : Nat) : Prop :=
  n / 64 ^ p.owed = p.value ∧ p.lo.toNat ≤ n / 64 ^ (p.owed - 1) % 64 + 128 ∧
    n / 64 ^ (p.owed - 1) % 64 + 128 ≤ p.hi.toNat

theorem admits_later (k n : Nat) : Admits ⟨k, 0x80, 0xBF, n / 64 ^ k⟩ n := by
  have := Nat.mod_lt (n / 64 ^ (k - 1)) (show 0 < 64 by decide)
  refine ⟨rfl, Nat.le_add_left _ _, ?_⟩
  show _ ≤ 191
  omega

attribute [local grind =] lead piecesFrom

theorem Long.lead (h : Long n k first) : ∃ p, lead (.ofNat first) = .opens p ∧ p.owed = k ∧ Admits p n := by
  have small : first < 256 := by cases h <;> omega
  simp only [Utf8.lead, toNat_ofNat small]
  cases h <;> repeat' split
  all_goals first
    | omega
    | exact ⟨_, rfl, rfl, by simp [Admits]; omega⟩

theorem long_of_lead (h : lead b = .opens p) : 0 < p.owed ∧ 128 ≤ p.lo.toNat ∧ p.hi.toNat ≤ 191 ∧
    ∀ n, Admits p n → Long n p.owed b.toNat := by
  unfold Utf8.lead at h
  simp only at h
  -- One goal for each line of the table that opens a character.
  repeat' split at h
  all_goals cases h
  all_goals refine ⟨by simp, by simp, by simp, fun n admits => ?_⟩
  all_goals simp [Admits] at admits
  · exact (show b.toNat = n / 64 + 0xC0 by omega) ▸ .two (by omega) (by omega)
  · exact (show b.toNat = n / 4096 + 0xE0 by omega) ▸ .three (by omega) (by omega) (by omega)
  · exact (show b.toNat = n / 4096 + 0xE0 by omega) ▸ .three (by omega) (by omega) (by omega)
  · exact (show b.toNat = n / 4096 + 0xE0 by omega) ▸ .three (by omega) (by omega) (by omega)
  · exact (show b.toNat = n / 262144 + 0xF0 by omega) ▸ .four (by omega) (by omega)
  · exact (show b.toNat = n / 262144 + 0xF0 by omega) ▸ .four (by omega) (by omega)
  · exact (show b.toNat = n / 262144 + 0xF0 by omega) ▸ .four (by omega) (by omega)

/-! ## Reading a character -/

theorem div_pow_succ (n k : Nat) : n / 64 ^ k = n / 64 ^ (k + 1) * 64 + n / 64 ^ k % 64 := by
  rw [Nat.pow_succ, ← Nat.div_div_eq_div_mul]
  omega

theorem Admits.next (h : Admits p n) (owed : p.owed = k + 1) (read : List (Option Char)) (bs : Bytes) :
    piecesFrom read (some p) (tail (k + 1) n ++ bs) = if k = 0 then piecesFrom (some (.ofNat n) :: read) none bs
      else piecesFrom read (some ⟨k, 0x80, 0xBF, n / 64 ^ k⟩) (tail k n ++ bs) := by
  obtain ⟨value, lo, hi⟩ := h
  rw [owed] at value lo hi
  have six := Nat.mod_lt (n / 64 ^ k) (show 0 < 64 by decide)
  have byte : (UInt8.ofNat (n / 64 ^ k % 64 + 128)).toNat = n / 64 ^ k % 64 + 128 :=
    toNat_ofNat (by omega)
  have range : p.lo ≤ .ofNat (n / 64 ^ k % 64 + 128) ∧ .ofNat (n / 64 ^ k % 64 + 128) ≤ p.hi := by
    rw [UInt8.le_iff_toNat_le, UInt8.le_iff_toNat_le, byte]
    exact ⟨lo, hi⟩
  rw [tail, cons_append, piecesFrom, if_pos range]
  simp only [byte, ← value, owed, Nat.add_sub_cancel, ← div_pow_succ]
  cases k with
  | zero => simp [tail]
  | succ k => simp

theorem Admits.reads (h : Admits p n) (owed : p.owed = k + 1) (read : List (Option Char)) (bs : Bytes) :
    piecesFrom read (some p) (tail (k + 1) n ++ bs) = piecesFrom (some (.ofNat n) :: read) none bs := by
  induction k generalizing p with
  | zero => rw [h.next owed, if_pos rfl]
  | succ k ih => rw [h.next owed, if_neg (Nat.succ_ne_zero k), ih (admits_later _ n) rfl]

theorem piecesFrom_opens (h : lead b = .opens p) (read : List (Option Char)) (bs : Bytes) :
    piecesFrom read none (b :: bs) = piecesFrom read (some p) bs := by
  rw [piecesFrom, h]

theorem piecesFrom_char (read : List (Option Char)) (c : Char) (bs : Bytes) :
    piecesFrom read none (String.utf8EncodeChar c ++ bs) = piecesFrom (some c :: read) none bs := by
  rcases char_cases c with ⟨n, small, rfl, bytes⟩ | ⟨n, k, first, rfl, long⟩
  · have whole : lead (.ofNat n) = .whole (.ofNat n) := by
      rw [lead, toNat_ofNat (by omega), if_pos small]
    rw [bytes, singleton_append, piecesFrom, whole]
  · obtain ⟨p, opens, rfl, admits⟩ := long.lead
    obtain ⟨k, owed⟩ := Nat.exists_eq_succ_of_ne_zero (Nat.ne_of_gt (long_of_lead opens).1)
    rw [long.utf8EncodeChar, cons_append, piecesFrom_opens opens, owed]
    exact admits.reads owed read bs

theorem piecesFrom_chars (read : List (Option Char)) (cs : List Char) :
    piecesFrom read none (cs.flatMap String.utf8EncodeChar) = read.reverse ++ cs.map some := by
  induction cs generalizing read with
  | nil => simp [piecesFrom]
  | cons c cs ih =>
    rw [flatMap_cons, piecesFrom_char, ih]
    simp

/-! ## Texts -/

theorem loop_eq (bytes : ByteArray) (k : Nat) (listed : List UInt8) :
    ByteArray.toList.loop bytes k listed = listed.reverse ++ bytes.data.toList.drop k := by
  fun_induction ByteArray.toList.loop bytes k listed with
  | case1 k listed inside ih =>
    have inside' : k < bytes.data.toList.length := by simpa using inside
    rw [ih, drop_eq_getElem_cons inside']
    simp [ByteArray.get!, inside]
  | case2 k listed outside =>
    rw [drop_eq_nil_of_le (by simpa using Nat.le_of_not_lt outside)]
    simp

theorem encode_eq (s : String) : encode s = s.toList.flatMap String.utf8EncodeChar := by
  have bytes : s.toUTF8 = (s.toList.flatMap String.utf8EncodeChar).toByteArray := by
    have spelled : (String.ofList s.toList).toByteArray = s.toList.utf8Encode := String.toByteArray_ofList
    rw [String.ofList_toList] at spelled
    exact spelled
  rw [encode, bytes, ByteArray.toList, loop_eq, drop_zero, toList_data_toByteArray]
  rfl

theorem decode?_encode (s : String) : decode? (encode s) = some s := by
  have read : pieces (encode s) = s.toList.map some := by
    rw [encode_eq]
    exact piecesFrom_chars [] s.toList
  have whole : ((s.toList.map some).all Option.isSome) = true := by simp
  have text : lossy (encode s) = s := by
    rw [lossy, read, map_map]
    exact (congrArg String.ofList (map_id _)).trans String.ofList_toList
  rw [decode?, read, if_pos whole, text]

/-! ## Nothing else is text -/

theorem mem_piecesFrom {p : Option Pending} {piece : Option Char} (h : piece ∈ read) : piece ∈ piecesFrom read p bs := by
  fun_induction piecesFrom read p bs <;> simp_all

def Clear (read : List (Option Char)) (p : Option Pending) (bs : Bytes) : Prop := none ∉ piecesFrom read p bs

/-- A byte that is read gives the next six bits of every number that goes on with the bits so far. -/
theorem Clear.next (h : Clear read (some p) bs) (owed : p.owed = k + 1) (lo : 128 ≤ p.lo.toNat) (hi : p.hi.toNat ≤ 191) :
    ∃ b rest, ∃ value : Nat, bs = b :: rest ∧ (∀ n, n / 64 ^ k = value → b :: tail k n = tail (k + 1) n ∧ Admits p n) ∧
      if k = 0 then Clear (some (.ofNat value) :: read) none rest
      else Clear read (some ⟨k, 0x80, 0xBF, value⟩) rest := by
  unfold Clear at h ⊢
  cases bs with
  | nil => exact absurd (by simp [piecesFrom]) h
  | cons b rest =>
    by_cases range : p.lo ≤ b ∧ b ≤ p.hi
    · simp only [piecesFrom, if_pos range, owed, Nat.add_sub_cancel] at h
      have low := UInt8.le_iff_toNat_le.1 range.1
      have high := UInt8.le_iff_toNat_le.1 range.2
      refine ⟨b, rest, p.value * 64 + (b.toNat - 0x80), rfl, fun n bits => ?_, ?_⟩
      · have six : n / 64 ^ k % 64 + 128 = b.toNat := by omega
        rw [tail, Admits, owed, Nat.add_sub_cancel, six, UInt8.ofNat_toNat, Nat.pow_succ, ← Nat.div_div_eq_div_mul, bits]
        exact ⟨rfl, by omega, low, high⟩
      · cases k with
        | zero => simpa using h
        | succ k => simpa using h
    · refine absurd ?_ h
      simp only [piecesFrom, if_neg range]
      split <;> exact mem_piecesFrom (by simp)

theorem Clear.admits (h : Clear read (some p) bs) (owed : p.owed = k + 1) (lo : 128 ≤ p.lo.toNat)
    (hi : p.hi.toNat ≤ 191) : ∃ n rest, bs = tail (k + 1) n ++ rest ∧ Admits p n ∧
      Clear (some (.ofNat n) :: read) none rest := by
  induction k generalizing p bs with
  | zero =>
    obtain ⟨b, rest, value, rfl, fits, clear⟩ := Clear.next h owed lo hi
    obtain ⟨same, admits⟩ := fits value (Nat.div_one _)
    exact ⟨value, rest, congrArg (· ++ rest) same, admits, clear⟩
  | succ k ih =>
    obtain ⟨b, rest, value, rfl, fits, clear⟩ := Clear.next h owed lo hi
    rw [if_neg (Nat.succ_ne_zero k)] at clear
    obtain ⟨n, rest, rfl, admits, clear⟩ := ih clear rfl (Nat.le_refl 128) (Nat.le_refl 191)
    obtain ⟨same, admits⟩ := fits n admits.1
    exact ⟨n, rest, congrArg (· ++ rest) same, admits, clear⟩

theorem lead_whole {c : Char} (h : lead b = .whole c) : String.utf8EncodeChar c = [b] := by
  unfold lead at h
  simp only at h
  by_cases small : b.toNat < 128
  · rw [if_pos small] at h
    cases h
    rw [String.utf8EncodeChar, toNat_char (.inl (by omega)), if_pos (by omega), UInt8.ofNat_toNat]
  · rw [if_neg small] at h
    repeat' split at h
    all_goals cases h

theorem Clear.chars (h : Clear read none bs) : ∃ cs : List Char, bs = cs.flatMap String.utf8EncodeChar := by
  induction long : bs.length using Nat.strongRecOn generalizing bs read with
  | _ length ih =>
    subst long
    cases bs with
    | nil => exact ⟨[], rfl⟩
    | cons b bs =>
      cases first : lead b with
      | bad =>
        refine absurd ?_ h
        rw [piecesFrom, first]
        exact mem_piecesFrom mem_cons_self
      | whole c =>
        rw [Clear, piecesFrom, first] at h
        obtain ⟨cs, rfl⟩ := ih bs.length (Nat.lt_succ_self _) h rfl
        exact ⟨c :: cs, by rw [flatMap_cons, lead_whole first]; rfl⟩
      | opens p =>
        obtain ⟨positive, lo, hi, long⟩ := long_of_lead first
        obtain ⟨k, owed⟩ := Nat.exists_eq_succ_of_ne_zero (Nat.ne_of_gt positive)
        rw [Clear, piecesFrom_opens first] at h
        obtain ⟨n, rest, rfl, admits, clear⟩ := Clear.admits h owed lo hi
        obtain ⟨cs, rfl⟩ := ih rest.length (by simp only [length_append, length_cons]; omega) clear rfl
        refine ⟨.ofNat n :: cs, ?_⟩
        rw [flatMap_cons, (long n admits).utf8EncodeChar, owed, UInt8.ofNat_toNat]
        rfl

theorem decode?_isSome_iff (bs : Bytes) : (∃ text, decode? bs = some text) ↔ ∃ text, bs = encode text := by
  constructor
  · rintro ⟨text, decoded⟩
    have clear : Clear [] none bs := fun bad => by
      have ill : (pieces bs).all Option.isSome = false := all_eq_false.2 ⟨none, bad, by simp⟩
      rw [decode?, ill] at decoded
      cases decoded
    obtain ⟨cs, rfl⟩ := clear.chars
    exact ⟨String.ofList cs, by rw [encode_eq, String.toList_ofList]⟩
  · rintro ⟨text, rfl⟩
    exact ⟨text, decode?_encode text⟩

end Cof.Utf8
