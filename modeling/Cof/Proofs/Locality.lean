/-
  Code is decoded part by part.

  The decoder for an instruction does the same with some bytes wherever they stand, and whatever follows them
  (`takes_instr`).  For the code of a whole program it follows that

    * code may be decoded in two parts, and an error in the second is the error that it is by itself, moved
      by the length of the first;
    * an error names an offset within the bytes or at their end, and a byte that is blamed stands there;
    * code that is cut short is decoded up to the cut, or comes to the end within the instruction that was
      cut.
-/
import Cof.Proofs.Codec
import Mathlib.Data.List.Forall2

namespace Cof

open List

namespace Instr

open Decoder

variable {bytes used : Bytes} {i : Instr} {e : DecodeError} {code : List Instr} {pieces : List Bytes}

theorem decodeStream_append {first : Bytes} (h : decodeStream first = .ok code)
    (second : Bytes) : decodeStream (first ++ second) = behind code first.length (decodeStream second) := by
  refine decodeStream_induction (motive := fun first code =>
    decodeStream (first ++ second) = behind code first.length (decodeStream second)) ?_ ?_ h
  · cases result : decodeStream second with
    | ok more => exact result
    | error e => rw [nil_append, result, behind, length_nil, DecodeError.shifted_zero]
  · intro used i rest code reads _ ih
    rw [append_assoc, decodeStream_of_reads reads, ih, behind_behind, length_append, Nat.add_comm]
    rfl

theorem blames_of_decodeStream (h : decodeStream bytes = .error e) : e.Blames bytes := by
  induction long : bytes.length using Nat.strong_induction_on generalizing bytes e with
  | _ length ih =>
    subst long
    rcases decodeStream_cases bytes with rfl | ⟨used, i, rest, rfl, shorter, -, -, decoded⟩ | ⟨e', blames, fails⟩
    · cases h
    · rw [decoded] at h
      cases later : decodeStream rest with
      | ok more =>
        rw [later] at h
        cases h
      | error e' =>
        rw [later] at h
        obtain rfl := Except.error.inj h
        exact (ih rest.length shorter later rfl).behind used
    · rw [fails] at h
      obtain rfl := Except.error.inj h
      exact blames

/-- Code that can be decoded may stand in front of anything: what follows is decoded as it is by itself, its
instructions behind those in front and its error as much further on.  And an error that decoding reports is
found in the bytes: its offset is not behind their end, and a byte that it blames stands at that offset. -/
theorem decodeStream_compositional :
    (∀ first second code, decodeStream first = .ok code →
      (∀ more, decodeStream second = .ok more → decodeStream (first ++ second) = .ok (code ++ more)) ∧
      ∀ e, decodeStream second = .error e → decodeStream (first ++ second) = .error (e.shifted first.length)) ∧
    ∀ bytes e, decodeStream bytes = .error e →
      e.offset ≤ bytes.length ∧ ∀ b, e.byte? = some b → bytes[e.offset]? = some b := by
  refine ⟨fun first second code decoded => ?_, fun bytes e failed => ?_⟩
  · have parts := decodeStream_append decoded second
    exact ⟨fun more ok => by rw [parts, ok]; rfl, fun e error => by rw [parts, error]; rfl⟩
  · have blames := blames_of_decodeStream failed
    exact ⟨blames.within, blames.stands⟩

/-- Code with an unknown operation behind it, and then code that ends too early. -/
theorem decodeStream_compositional_garbage :
    decodeStream [0, 0, 0] = .ok [⟨.nop, .none, []⟩] ∧
      decodeStream ([0, 0, 0] ++ [0xEE, 0, 0]) = .error (.unknownOpcode 0xEE 3) ∧
      decodeStream ([0, 0, 0] ++ [0, 0]) = .error (.unexpectedEnd 5) ∧
      ([0, 0, 0] ++ [0xEE, 0, 0] : Bytes)[3]? = some 0xEE := by
  have first : decodeStream [0, 0, 0] = .ok [⟨.nop, .none, []⟩] := by decide +kernel
  have parts := fun second => decodeStream_compositional.1 [0, 0, 0] second _ first
  have unknown := (parts [0xEE, 0, 0]).2 (.unknownOpcode 0xEE 0) (by decide +kernel)
  have ends := (parts [0, 0]).2 (.unexpectedEnd 2) (by decide +kernel)
  exact ⟨first, unknown, ends, (decodeStream_compositional.2 _ _ unknown).2 0xEE rfl⟩

/-! ## Code that is cut short -/

def boundary (pieces : List Bytes) (k : Nat) : Nat := (pieces.take k).flatten.length

theorem boundary_succ (bytes : Bytes) (pieces : List Bytes) (k : Nat) :
    boundary (bytes :: pieces) (k + 1) = bytes.length + boundary pieces k := by
  rw [boundary, take_succ_cons, flatten_cons, length_append, boundary]

theorem starves_encode (h : i.encode = .ok bytes) : Starves instr bytes := by
  obtain ⟨used, whole, -, -, starves⟩ := takes_instr.ok (reads_encode h 0 [])
  rw [append_nil, append_nil] at whole
  rwa [whole]

theorem decodeStream_take_boundary (h : Encodes code pieces) (k : Nat) :
    decodeStream (pieces.flatten.take (boundary pieces k)) = .ok ((code.take k).map written) := by
  have front : pieces.flatten.take (boundary pieces k) = (pieces.take k).flatten := by
    have parts := congrArg List.flatten (take_append_drop k pieces)
    rw [flatten_append] at parts
    rw [← parts, boundary, take_left]
  rw [front]
  exact decodeStream_flatten (forall₂_take k h)

theorem decodeStream_take_within (h : Encodes code pieces) {n : Nat}
    (le : n ≤ pieces.flatten.length) (inside : ∀ k, n ≠ boundary pieces k) :
    ∃ k o, boundary pieces k < n ∧ n < boundary pieces (k + 1) ∧ boundary pieces k ≤ o ∧ o ≤ n ∧
      decodeStream (pieces.flatten.take n) = .error (.unexpectedEnd o) := by
  induction h generalizing n with
  | nil => exact absurd (Nat.le_zero.1 le) (inside 0)
  | @cons i bytes code pieces encodes _ ih =>
    have start : 0 < n := Nat.pos_of_ne_zero (inside 0)
    have length : boundary (bytes :: pieces) 1 = bytes.length := boundary_succ bytes pieces 0
    rw [flatten_cons] at le ⊢
    by_cases here : n < bytes.length
    · obtain ⟨o, early, ends⟩ := starves_encode encodes 0 n here
      refine ⟨0, o, start, length ▸ here, Nat.zero_le _, early, ?_⟩
      rw [take_append_of_le_length (Nat.le_of_lt here)]
      refine decodeStream_of_error (fun none => ?_) ends
      have := congrArg List.length none
      rw [length_take, length_nil] at this
      omega
    · obtain ⟨m, rfl⟩ := Nat.exists_eq_add_of_le (Nat.le_of_not_lt here)
      have below : m ≤ pieces.flatten.length := by
        rw [length_append] at le
        omega
      obtain ⟨k, o, after, before, atLeast, atMost, ends⟩ :=
        ih below fun k same => inside (k + 1) (by rw [boundary_succ, same])
      refine ⟨k + 1, o + bytes.length, ?_⟩
      rw [boundary_succ, boundary_succ, take_length_add_append, decodeStream_of_reads (reads_encode encodes), ends]
      exact ⟨by omega, by omega, by omega, by omega, rfl⟩

end Instr

end Cof
