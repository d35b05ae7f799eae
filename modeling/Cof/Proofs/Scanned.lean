/-
  What a token is read from.

  Like numbers, all tokens are read from their own bytes, which stand on one line, whatever stands behind
  them after a blank.  Where no token is read, the place that is reported is on the line of the token too.

  An escape may take one digit less than it could, so it depends on the byte behind it.  But an escape stands
  inside a literal, and that byte is part of the literal.
-/
import Cof.Proofs.ScannedNumbers

namespace Cof

open List

namespace Scan

/-! ## Quoted literals -/

variable {literal : QuotedLiteral} {start length done : Nat} {text : Bytes} {value : UInt8} {kind : TokenKind}

/-- An escape in hexadecimal digits: at most two of them are taken, so the byte behind them matters. -/
theorem escape_hex (h : escape literal start ('x'.toUInt8 :: text) = .ok (value, length)) :
    ∃ body rest, text = body ++ rest ∧ length = 1 + body.length ∧ OneLine body ∧
      ∀ tail, tail.head? = rest.head? → escape literal start ('x'.toUInt8 :: (body ++ tail)) = .ok (value, length) := by
  rw [escape, if_pos rfl] at h
  obtain ⟨rest, whole, _, again⟩ := takeWhile_take_split isHexDigit 2 text
  have digits : ∀ b ∈ (text.take 2).takeWhile isHexDigit, isHexDigit b = true := fun b mem => of_mem_takeWhile mem
  generalize (text.take 2).takeWhile isHexDigit = body at h whole again digits
  simp only at h
  split at h
  · cases h
  · rename_i nonempty
    cases h
    refine ⟨body, rest, whole, rfl, .of_class digits (by decide), fun tail same => ?_⟩
    rw [escape, if_pos rfl, again tail (.inl same)]
    exact if_neg nonempty

theorem escape_octal {b : UInt8} (hex : b ≠ 'x'.toUInt8) (octal : isOctalDigit b = true)
    (h : escape literal start (b :: text) = .ok (value, length)) :
    ∃ body rest, text = body ++ rest ∧ length = 1 + body.length ∧ OneLine (b :: body) ∧
      ∀ tail, tail.head? = rest.head? → escape literal start (b :: (body ++ tail)) = .ok (value, length) := by
  rw [escape, if_neg hex, if_pos octal] at h
  obtain ⟨rest, whole, _, again⟩ := takeWhile_take_split isOctalDigit 3 (b :: text)
  have digits : ∀ c ∈ ((b :: text).take 3).takeWhile isOctalDigit, isOctalDigit c = true :=
    fun c mem => of_mem_takeWhile mem
  have first : ((b :: text).take 3).takeWhile isOctalDigit = b :: (text.take 2).takeWhile isOctalDigit := by
    rw [take_succ_cons, takeWhile_cons, if_pos octal]
  rw [first] at h whole again digits
  generalize (text.take 2).takeWhile isOctalDigit = body at h whole again digits
  simp only at h
  split at h
  · rename_i fits
    cases h
    refine ⟨body, rest, (List.cons.inj whole).2, ?_, .of_class digits (by decide), fun tail same => ?_⟩
    · rw [length_cons, Nat.add_comm]
    · have again := again tail (.inl same)
      rw [cons_append] at again
      rw [escape, if_neg hex, if_pos octal]
      simp only [again]
      exact if_pos fits
  · cases h

theorem escape_reads (h : escape literal start text = .ok (value, length)) :
    ∃ body rest, text = body ++ rest ∧ length = body.length ∧ OneLine body ∧
      ∀ tail, tail.head? = rest.head? → escape literal start (body ++ tail) = .ok (value, length) := by
  cases text with
  | nil => cases h
  | cons b text =>
    by_cases hex : b = 'x'.toUInt8
    · subst hex
      obtain ⟨body, rest, rfl, rfl, line, again⟩ := escape_hex h
      exact ⟨'x'.toUInt8 :: body, rest, rfl, Nat.add_comm .., .cons (by decide) line, again⟩
    by_cases octal : isOctalDigit b = true
    · obtain ⟨body, rest, rfl, rfl, line, again⟩ := escape_octal hex octal h
      exact ⟨b :: body, rest, rfl, Nat.add_comm .., line, again⟩
    rw [escape, if_neg hex, if_neg octal] at h
    cases simple : simpleEscape? b with
    | none =>
      simp only [simple] at h
      split at h <;> cases h
    | some v =>
      simp only [simple] at h
      cases h
      refine ⟨[b], text, rfl, rfl, .cons ?_ oneLine_nil, fun tail _ => ?_⟩
      · rintro rfl
        cases simple
      · rw [singleton_append, escape, if_neg hex, if_neg octal]
        simp only [simple]

theorem escape_again {body rest : Bytes}
    (h : escape literal start (body ++ rest) = .ok (value, length)) (long : length < body.length) (tail : Bytes) :
    escape literal start (body ++ tail) = .ok (value, length) := by
  obtain ⟨inner, behind, whole, rfl, _, again⟩ := escape_reads h
  obtain ⟨more, rfl⟩ : inner <+: body :=
    prefix_of_prefix_length_le ⟨behind, whole.symm⟩ ⟨rest, rfl⟩ (Nat.le_of_lt long)
  rw [append_assoc] at whole ⊢
  refine again (more ++ tail) ?_
  rw [← append_cancel_left whole]
  cases more with
  | nil => simp at long
  | cons b more => rfl

/-- A string goes to its closing quote.  Bytes that belong to an escape are passed without a look. -/
theorem stringBody_reads {skip : Nat} {value found : Bytes}
    (h : stringBody done value skip text = .ok (found, length)) (passed : OneLine (text.take skip)) :
    ∃ body rest, text = body ++ rest ∧ length = done + body.length ∧ skip < body.length ∧ OneLine body ∧
      ∀ tail, stringBody done value skip (body ++ tail) = .ok (found, length) := by
  induction text generalizing done value skip with
  | nil => cases skip <;> cases h
  | cons b text ih =>
    cases skip with
    | succ skip =>
      obtain ⟨hb, passed⟩ := forall_mem_cons.1 passed
      obtain ⟨body, rest, rfl, sum, long, line, again⟩ := ih h passed
      refine ⟨b :: body, rest, rfl, ?_, ?_, line.cons hb, fun tail => ?_⟩
      · rw [sum, length_cons]
        omega
      · rw [length_cons]
        omega
      · rw [cons_append, stringBody]
        exact again tail
    | zero =>
      rw [stringBody] at h
      by_cases newline : b = '\n'.toUInt8
      · rw [if_pos newline] at h
        cases h
      rw [if_neg newline] at h
      by_cases quote : b = '"'.toUInt8
      · rw [if_pos quote] at h
        cases h
        refine ⟨[b], text, rfl, rfl, Nat.one_pos, .cons newline oneLine_nil, fun tail => ?_⟩
        rw [singleton_append, stringBody, if_neg newline, if_pos quote]
      rw [if_neg quote] at h
      by_cases backslash : b = '\\'.toUInt8
      · rw [if_pos backslash] at h
        cases escaped : escape .string (done + 1) text with
        | error e =>
          rw [escaped] at h
          cases h
        | ok decoded =>
          obtain ⟨c, taken⟩ := decoded
          simp only [escaped] at h
          obtain ⟨inner, behind, whole, rfl, innerLine, _⟩ := escape_reads escaped
          have passed : OneLine (text.take inner.length) := by rwa [whole, take_left]
          obtain ⟨body, rest, rfl, sum, long, line, again⟩ := ih h passed
          refine ⟨b :: body, rest, rfl, ?_, Nat.succ_pos _, line.cons newline, fun tail => ?_⟩
          · rw [sum, length_cons]
            omega
          · rw [cons_append, stringBody, if_neg newline, if_neg quote, if_pos backslash]
            simp only [escape_again escaped long tail]
            exact again tail
      · rw [if_neg backslash] at h
        obtain ⟨body, rest, rfl, sum, long, line, again⟩ := ih h (by rw [take_zero]; exact oneLine_nil)
        refine ⟨b :: body, rest, rfl, ?_, Nat.succ_pos _, line.cons newline, fun tail => ?_⟩
        · rw [sum, length_cons]
          omega
        · rw [cons_append, stringBody, if_neg newline, if_neg quote, if_neg backslash]
          exact again tail

theorem closeCharacter_reads (h : closeCharacter value done text = .ok (kind, length)) :
    ∃ rest, text = '\''.toUInt8 :: rest ∧ length = done + 1 ∧
      ∀ tail, closeCharacter value done ('\''.toUInt8 :: tail) = .ok (kind, length) := by
  cases text with
  | nil => cases h
  | cons b rest =>
    rw [closeCharacter] at h
    split at h
    · rename_i quote
      cases h
      exact ⟨rest, by rw [quote], rfl, fun tail => rfl⟩
    · split at h <;> cases h

theorem character_reads (h : character text = .ok (kind, length)) :
    ∃ body rest, text = body ++ rest ∧ length = 1 + body.length ∧ OneLine body ∧
      ∀ tail, character (body ++ tail) = .ok (kind, length) := by
  cases text with
  | nil => cases h
  | cons b text =>
    rw [character] at h
    by_cases newline : b = '\n'.toUInt8
    · rw [if_pos newline] at h
      cases h
    rw [if_neg newline] at h
    by_cases quote : b = '\''.toUInt8
    · rw [if_pos quote] at h
      cases h
    rw [if_neg quote] at h
    by_cases backslash : b = '\\'.toUInt8
    · rw [if_pos backslash] at h
      cases escaped : escape .character 2 text with
      | error e =>
        rw [escaped] at h
        cases h
      | ok decoded =>
        obtain ⟨c, taken⟩ := decoded
        simp only [escaped] at h
        obtain ⟨inner, behind, rfl, rfl, line, reread⟩ := escape_reads escaped
        rw [drop_left] at h
        obtain ⟨rest, rfl, rfl, again⟩ := closeCharacter_reads h
        refine ⟨b :: (inner ++ ['\''.toUInt8]), rest, by simp, ?_, ?_, fun tail => ?_⟩
        · simp only [length_cons, length_append, length_nil]
          omega
        · exact .cons newline (line.append (.cons (by decide) oneLine_nil))
        · rw [cons_append, append_assoc, singleton_append, character, if_neg newline, if_neg quote,
            if_pos backslash]
          simp only [reread ('\''.toUInt8 :: tail) rfl, drop_left]
          exact again tail
    · rw [if_neg backslash] at h
      obtain ⟨rest, rfl, rfl, again⟩ := closeCharacter_reads h
      refine ⟨[b, '\''.toUInt8], rest, rfl, rfl, .cons newline (.cons (by decide) oneLine_nil), fun tail => ?_⟩
      rw [cons_append, singleton_append, character, if_neg newline, if_neg quote, if_neg backslash]
      exact again tail

end Scan

/-! ## Punctuators -/

namespace Punct

theorem mem_all (p : Punct) : p ∈ all := by
  cases p <;> decide

theorem all_sorted : all.Pairwise fun p q => q.bytes.length ≤ p.bytes.length := by
  decide

variable {p : Punct} {b : UInt8}

theorem ofText?_eq_some {text : Bytes} (h : ofText? text = some p) :
    p.bytes <+: text ∧ ∀ q : Punct, q.bytes <+: text → q.bytes.length ≤ p.bytes.length := by
  obtain ⟨found, before, after, whole, refused⟩ := find?_eq_some_iff_append.1 h
  refine ⟨List.isPrefixOf_iff_prefix.1 found, fun q front => ?_⟩
  have sorted := all_sorted
  have mem := mem_all q
  rw [whole] at sorted mem
  rcases mem_append.1 mem with tried | mem
  · have := refused q tried
    rw [List.isPrefixOf_iff_prefix.2 front] at this
    cases this
  · rcases mem_cons.1 mem with rfl | later
    · exact Nat.le_refl _
    · exact (pairwise_cons.1 (pairwise_append.1 sorted).2.1).1 q later

theorem bytes_ne_nil (p : Punct) : p.bytes ≠ [] := by
  cases p <;> decide

def isByte (b : UInt8) : Bool := all.any (·.bytes.contains b)

theorem isByte_of_mem (mem : b ∈ p.bytes) : isByte b = true :=
  any_eq_true.2 ⟨p, mem_all p, contains_iff_mem.2 mem⟩

theorem isWordStart_of_isByte (h : isByte b = true) : isWordStart b = false := by
  have none : all.any (·.bytes.any isWordStart) = false := by decide
  obtain ⟨p, mem, inside⟩ := any_eq_true.1 h
  have unworded := Bool.eq_false_iff.2 (any_eq_false.1 none p mem)
  exact Bool.eq_false_iff.2 (any_eq_false.1 unworded b (contains_iff_mem.1 inside))

theorem ofText?_append {tail : Bytes} (p : Punct) (stops : Stops isByte tail) : ofText? (p.bytes ++ tail) = some p := by
  have alone : all.find? (·.bytes.isPrefixOf p.bytes) = some p := by cases p <;> decide
  rw [← alone, ofText?]
  congr 1
  funext q
  -- A longer one would have to hold the first byte of the tail.
  rw [Bool.eq_iff_iff, List.isPrefixOf_iff_prefix, List.isPrefixOf_iff_prefix]
  refine ⟨fun front => ?_, fun front => front.trans (prefix_append ..)⟩
  rcases Nat.lt_or_ge p.bytes.length q.bytes.length with longer | shorter
  · exfalso
    obtain ⟨more, whole⟩ : p.bytes <+: q.bytes :=
      prefix_of_prefix_length_le (prefix_append ..) front (Nat.le_of_lt longer)
    rw [← whole, prefix_append_right_inj] at front
    cases more with
    | nil => simp [← whole] at longer
    | cons b more =>
      obtain ⟨rest, rfl⟩ := front
      have outside := stops b rfl
      rw [isByte_of_mem (by rw [← whole]; simp)] at outside
      cases outside
  · exact prefix_of_prefix_length_le front (prefix_append ..) shorter

end Punct

namespace Scan

/-! ## Tokens -/

theorem word_reads (text : Bytes) : ∃ rest, text = text.takeWhile isWordByte ++ rest ∧
    (word text).2 = (text.takeWhile isWordByte).length ∧
    ∀ tail, Parted tail → word (text.takeWhile isWordByte ++ tail) = word text := by
  obtain ⟨rest, whole, _, _⟩ := takeWhile_split isWordByte text
  refine ⟨rest, whole, ?_, fun tail parted => ?_⟩
  · unfold word
    dsimp only
    split <;> rfl
  · unfold word
    rw [takeWhile_append_stops (fun b mem => of_mem_takeWhile mem) (parted.stops (by decide))]

variable {b first : UInt8} {rest text : Bytes} {p : Punct} {kind : TokenKind} {length : Nat} {α : Type} {e : Misread}

theorem startsNumber_parted {body tail : Bytes} (h : startsNumber (b :: body ++ rest) = false)
    (parted : Parted tail) : startsNumber (b :: body ++ tail) = false := by
  cases body with
  | cons c body => exact h
  | nil =>
    have digit : isDigit b = false := (Bool.or_eq_false_iff.1 h).1
    refine Bool.or_eq_false_iff.2 ⟨digit, ?_⟩
    cases tail with
    | nil => simp [fraction?]
    | cons c tail =>
      have other := parted.stops (p := isDigit) (by decide) c rfl
      simp [fraction?, other]

/-- The forms of a token.  Its first byte, and for a point the second, says which one it has. -/
inductive Form (first : UInt8) (rest : Bytes) : TokenKind → Nat → Prop
  | string {value : Bytes} {length : Nat} (quote : first = '"'.toUInt8)
      (read : stringBody 1 [] 0 rest = .ok (value, length)) : Form first rest (.string value) length
  | character {kind : TokenKind} {length : Nat} (quote : first = '\''.toUInt8)
      (read : character rest = .ok (kind, length)) : Form first rest kind length
  | number {kind : TokenKind} {length : Nat} (starts : startsNumber (first :: rest) = true)
      (read : number (first :: rest) = .ok (kind, length)) : Form first rest kind length
  | word (starts : isWordStart first = true) : Form first rest (word (first :: rest)).1 (word (first :: rest)).2
  | punct {p : Punct} (notNumber : startsNumber (first :: rest) = false)
      (found : Punct.ofText? (first :: rest) = some p) : Form first rest (.punct p) p.bytes.length

def isNumberStart (b : UInt8) : Bool := isDigit b || b == '.'.toUInt8

theorem isNumberStart_of_startsNumber (h : startsNumber (first :: rest) = true) : isNumberStart first = true := by
  rcases Bool.or_eq_true_iff.1 h with digit | fraction
  · rw [isNumberStart, digit]
    rfl
  · obtain ⟨places, found⟩ := Option.isSome_iff_exists.1 fraction
    obtain ⟨_, whole, _⟩ := fraction?_eq_some found
    rw [(List.cons.inj whole).1]
    rfl

theorem bytes_of_ofText? (h : Punct.ofText? (first :: rest) = some p) :
    ∃ body more, p.bytes = first :: body ∧ rest = body ++ more := by
  obtain ⟨⟨more, whole⟩, _⟩ := Punct.ofText?_eq_some h
  cases bytes : p.bytes with
  | nil => exact absurd bytes p.bytes_ne_nil
  | cons b body =>
    rw [bytes] at whole
    obtain ⟨rfl, rfl⟩ := List.cons.inj whole
    exact ⟨body, more, rfl, rfl⟩

theorem isNumberStart_of_isWordStart (h : isWordStart b = true) : isNumberStart b = false :=
  forall_byte (P := fun b => isWordStart b = true → isNumberStart b = false) (by decide +kernel) b h

theorem token_eq_ok : token first rest = .ok (kind, length) ↔ Form first rest kind length := by
  constructor
  · intro h
    unfold token at h
    simp only at h
    split at h
    · rename_i quote
      split at h
      · rename_i value n read
        cases h
        exact .string quote read
      · cases h
    · split at h
      · rename_i quote
        exact .character quote h
      · split at h
        · rename_i starts
          exact .number starts h
        · rename_i notNumber
          split at h
          · rename_i starts
            have same := Except.ok.inj h
            have form : Form first rest _ _ := .word starts
            rwa [same] at form
          · split at h
            · rename_i p found
              cases h
              exact .punct (Bool.eq_false_iff.2 notNumber) found
            · cases h
  · intro form
    unfold token
    cases form with
    | string quote read => rw [if_pos quote, read]
    | character quote read =>
      rw [if_neg (by rw [quote]; decide), if_pos quote, read]
    | number starts read =>
      have start := isNumberStart_of_startsNumber starts
      rw [if_neg (ne_of_class start (by decide)), if_neg (ne_of_class start (by decide)), if_pos starts, read]
    | word starts =>
      have notNumber : ¬ startsNumber (first :: rest) = true := by
        intro number
        have := isNumberStart_of_startsNumber number
        rw [isNumberStart_of_isWordStart starts] at this
        cases this
      rw [if_neg (ne_of_class starts (by decide)), if_neg (ne_of_class starts (by decide)), if_neg notNumber,
        if_pos starts]
    | punct notNumber found =>
      obtain ⟨body, _, bytes, _⟩ := bytes_of_ofText? found
      have inside : Punct.isByte first = true := Punct.isByte_of_mem (by rw [bytes]; exact mem_cons_self ..)
      have notWord : ¬ isWordStart first = true := by
        rw [Punct.isWordStart_of_isByte inside]
        decide
      rw [if_neg (ne_of_class inside (by decide)), if_neg (ne_of_class inside (by decide)),
        if_neg (by rw [notNumber]; decide), if_neg notWord, found]

theorem token_reads (h : token first rest = .ok (kind, length)) :
    ∃ body more, rest = body ++ more ∧ length = (first :: body).length ∧ OneLine (first :: body) ∧
      ∀ tail, Parted tail → token first (body ++ tail) = .ok (kind, length) := by
  cases token_eq_ok.1 h with
  | string quote read =>
    obtain ⟨body, more, rfl, sum, _, line, again⟩ := stringBody_reads read (forall_mem_nil _)
    refine ⟨body, more, rfl, ?_, .cons (by rw [quote]; decide) line, fun tail _ => ?_⟩
    · rw [sum, length_cons, Nat.add_comm]
    · exact token_eq_ok.2 (.string quote (again tail))
  | character quote read =>
    obtain ⟨body, more, rfl, sum, line, again⟩ := character_reads read
    refine ⟨body, more, rfl, ?_, .cons (by rw [quote]; decide) line, fun tail _ => ?_⟩
    · rw [sum, length_cons, Nat.add_comm]
    · exact token_eq_ok.2 (.character quote (again tail))
  | number starts read =>
    obtain ⟨front, more, whole, sum, line, again⟩ := number_reads starts read
    cases front with
    | nil => cases (again [] nofun).1
    | cons b body =>
      obtain ⟨rfl, rfl⟩ := List.cons.inj whole
      refine ⟨body, more, rfl, sum, line, fun tail parted => ?_⟩
      exact token_eq_ok.2 (.number (again tail parted).1 (again tail parted).2)
  | word starts =>
    obtain ⟨more, whole, sum, again⟩ := word_reads (first :: rest)
    have inside : isWordByte first = true := by
      rw [isWordByte, starts]
      rfl
    rw [takeWhile_cons, if_pos inside] at whole sum again
    refine ⟨_, more, (List.cons.inj whole).2, sum, ?_, fun tail parted => ?_⟩
    · exact .cons (ne_of_class starts (by decide)) (.of_class (fun b mem => of_mem_takeWhile mem) (by decide))
    · have form : Form first (rest.takeWhile isWordByte ++ tail) _ _ := .word starts
      rw [← cons_append, again tail parted] at form
      exact token_eq_ok.2 form
  | punct notNumber found =>
    rename_i p
    obtain ⟨body, more, bytes, rfl⟩ := bytes_of_ofText? found
    refine ⟨body, more, rfl, by rw [bytes], ?_, fun tail parted => ?_⟩
    · rw [← bytes]
      exact .of_class (fun b mem => Punct.isByte_of_mem mem) (by decide)
    · refine token_eq_ok.2 (.punct (startsNumber_parted notNumber parted) ?_)
      rw [← cons_append, ← bytes]
      exact Punct.ofText?_append p (parted.stops (by decide))

/-! ## What scans end with -/

def isConstant : TokenKind → Bool
  | .int _ | .float _ | .char _ => true
  | _ => false

/-- A scan gives a constant, or what is wrong is reported at some place. -/
def Ends (B : Nat → Prop) : Except Misread (TokenKind × Nat) → Prop
  | .ok found => isConstant found.1 = true
  | .error e => B e.offset

section Ends

variable {B : Nat → Prop} {x y : Except Misread (TokenKind × Nat)}

theorem Ends.of_ok (h : Ends B x) (read : x = .ok (kind, length)) : isConstant kind = true := by
  rw [read] at h
  exact h

theorem Ends.of_error (h : Ends B x) (failed : x = .error e) : B e.offset := by
  rw [failed] at h
  exact h

theorem Ends.ite {c : Prop} [Decidable c] (hx : Ends B x) (hy : Ends B y) : Ends B (if c then x else y) := by
  split
  · exact hx
  · exact hy

theorem ends_endNumber (h : isConstant kind = true) (done : Nat) (text : Bytes) :
    Ends (· = 0) (endNumber kind done text) := by
  cases text with
  | nil => exact h
  | cons b text => exact .ite rfl h

theorem ends_endInteger (value done : Nat) (text : Bytes) : Ends (· = 0) (endInteger value done text) :=
  .ite (ends_endNumber rfl _ _) rfl

theorem ends_plainInteger (digits text : Bytes) : Ends (· = 0) (plainInteger digits text) := by
  cases digits with
  | nil => exact ends_endInteger _ _ _
  | cons zero more =>
    refine .ite ?_ (ends_endInteger _ _ _)
    cases (zero :: more).find? (fun d => !isOctalDigit d) with
    | none => exact ends_endInteger _ _ _
    | some bad => rfl

theorem ends_exponent (digits places done : Nat) (text : Bytes) : Ends (· = 0) (exponent digits places done text) :=
  .ite rfl (ends_endNumber rfl _ _)

theorem ends_number (text : Bytes) : Ends (· = 0) (number text) := by
  rw [number_eq]
  refine .ite (.ite rfl (ends_endInteger _ _ _)) ?_
  rw [decimalNumber_eq, afterDigits]
  cases fraction? _ with
  | none => exact .ite (ends_exponent _ _ _ _) (ends_plainInteger _ _)
  | some places => exact .ite (ends_exponent _ _ _ _) (ends_endNumber rfl _ _)

theorem ends_closeCharacter (start : B 0) (value : UInt8) (done : Nat) (text : Bytes) :
    Ends B (closeCharacter value done text) := by
  cases text with
  | nil => exact start
  | cons b text => exact .ite rfl (.ite start start)

theorem escape_blames {literal : QuotedLiteral} {start : Nat}
    (h : escape literal start text = .error e) : e.offset = 0 ∨ e.offset = start := by
  cases text with
  | nil =>
    cases h
    exact .inl rfl
  | cons b rest =>
    simp only [escape] at h
    split at h
    · split at h <;> cases h
      exact .inr rfl
    · split at h
      · split at h <;> cases h
        exact .inr rfl
      · split at h
        · cases h
        · split at h <;> cases h
          · exact .inl rfl
          · exact .inr rfl

theorem ends_character (text : Bytes) :
    Ends (fun offset => offset = 0 ∨ ∃ b rest, text = b :: rest ∧ offset = 2 ∧ b ≠ '\n'.toUInt8)
      (character text) := by
  cases text with
  | nil => exact .inl rfl
  | cons b text =>
    rw [character]
    by_cases newline : b = '\n'.toUInt8
    · rw [if_pos newline]
      exact .inl rfl
    rw [if_neg newline]
    refine .ite (.inl rfl) (.ite ?_ (ends_closeCharacter (.inl rfl) _ _ _))
    cases escaped : escape .character 2 text with
    | ok found => exact ends_closeCharacter (.inl rfl) _ _ _
    | error bad => exact (escape_blames escaped).imp_right fun here => ⟨b, text, rfl, here, newline⟩

end Ends

theorem token_other (h : token first rest = .ok (kind, length)) (other : isConstant kind = false) :
    (∃ value, kind = .string value) ∨ (isWordStart first = true ∧ word (first :: rest) = (kind, length)) ∨
      ∃ p, kind = .punct p ∧ Punct.ofText? (first :: rest) = some p ∧ length = p.bytes.length := by
  have constant : ¬ isConstant kind = true := by
    rw [other]
    exact Bool.false_ne_true
  cases token_eq_ok.1 h with
  | string quote read => exact .inl ⟨_, rfl⟩
  | character quote read => exact absurd ((ends_character _).of_ok read) constant
  | number starts read => exact absurd ((ends_number _).of_ok read) constant
  | word starts => exact .inr (.inl ⟨starts, rfl⟩)
  | punct notNumber found => exact .inr (.inr ⟨_, rfl, found, rfl⟩)

theorem token_ne_eof (h : token first rest = .ok (kind, length)) : kind ≠ .eof := by
  rintro rfl
  obtain ⟨_, ⟨⟩⟩ | ⟨_, named⟩ | ⟨_, ⟨⟩, _⟩ := token_other h rfl
  unfold word at named
  dsimp only at named
  split at named <;> cases named

theorem token_punct (h : token first rest = .ok (.punct p, length)) :
    Punct.ofText? (first :: rest) = some p ∧ length = p.bytes.length := by
  obtain ⟨_, ⟨⟩⟩ | ⟨_, named⟩ | ⟨_, ⟨⟩, found⟩ := token_other h rfl
  · unfold word at named
    dsimp only at named
    split at named <;> cases named
  · exact found

theorem token_ne_hash (h : token first rest = .ok (kind, length)) : first ≠ '#'.toUInt8 := by
  cases token_eq_ok.1 h with
  | string quote read => rw [quote]; decide
  | character quote read => rw [quote]; decide
  | number starts read => exact ne_of_class (isNumberStart_of_startsNumber starts) (by decide)
  | word starts => exact ne_of_class starts (by decide)
  | punct notNumber found =>
    obtain ⟨body, _, bytes, _⟩ := bytes_of_ofText? found
    exact ne_of_class (Punct.isByte_of_mem (by rw [bytes]; exact mem_cons_self ..)) (by decide)

/-! ## Where faults are reported -/

theorem stringBody_blames {done skip : Nat} {value : Bytes}
    (h : stringBody done value skip text = .error e) (passed : OneLine (text.take skip)) :
    e.offset = 0 ∨ ∃ body rest, text = body ++ rest ∧ e.offset = done + body.length ∧ OneLine body := by
  induction text generalizing done value skip with
  | nil => cases skip <;> cases h <;> exact .inl rfl
  | cons b text ih =>
    -- One byte further on, the same is known of the rest.
    have later : ∀ {value : Bytes} {skip : Nat}, b ≠ '\n'.toUInt8 →
        stringBody (done + 1) value skip text = .error e → OneLine (text.take skip) →
        e.offset = 0 ∨ ∃ body rest, b :: text = body ++ rest ∧ e.offset = done + body.length ∧ OneLine body := by
      intro value skip hb h passed
      rcases ih h passed with start | ⟨body, rest, rfl, sum, line⟩
      · exact .inl start
      · refine .inr ⟨b :: body, rest, rfl, ?_, line.cons hb⟩
        rw [sum, length_cons]
        omega
    cases skip with
    | succ skip =>
      obtain ⟨hb, passed⟩ := forall_mem_cons.1 passed
      exact later hb h passed
    | zero =>
      rw [stringBody] at h
      by_cases newline : b = '\n'.toUInt8
      · rw [if_pos newline] at h
        cases h
        exact .inl rfl
      rw [if_neg newline] at h
      split at h
      · cases h
      · split at h
        · split at h
          · rename_i decoded length escaped
            obtain ⟨inner, behind, rfl, rfl, line, _⟩ := escape_reads escaped
            exact later newline h (by rwa [take_left])
          · rename_i bad escaped
            cases h
            rcases escape_blames escaped with start | here
            · exact .inl start
            · exact .inr ⟨[b], text, rfl, here, .cons newline oneLine_nil⟩
        · exact later newline h (forall_mem_nil _)

theorem token_blames (h : token first rest = .error e) :
    ∃ body more, first :: rest = body ++ more ∧ e.offset = body.length ∧ OneLine body := by
  -- At the start, nothing is passed.
  have start : e.offset = 0 → ∃ body more, first :: rest = body ++ more ∧ e.offset = body.length ∧ OneLine body :=
    fun zero => ⟨[], first :: rest, rfl, zero, oneLine_nil⟩
  unfold token at h
  simp only at h
  split at h
  · rename_i quote
    split at h
    · cases h
    · rename_i bad read
      cases h
      rcases stringBody_blames read (forall_mem_nil _) with zero | ⟨body, more, rfl, sum, line⟩
      · exact start zero
      · refine ⟨first :: body, more, rfl, ?_, .cons (by rw [quote]; decide) line⟩
        rw [sum, length_cons, Nat.add_comm]
  · split at h
    · rename_i quote
      rcases (ends_character _).of_error h with zero | ⟨b, more, rfl, two, newline⟩
      · exact start zero
      · exact ⟨[first, b], more, rfl, two, .cons (by rw [quote]; decide) (.cons newline oneLine_nil)⟩
    · split at h
      · exact start ((ends_number _).of_error h)
      · split at h
        · cases h
        · split at h <;> cases h
          exact start rfl

end Scan

end Cof
