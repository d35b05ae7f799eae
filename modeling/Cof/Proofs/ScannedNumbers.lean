/-
  Numbers are read from their own bytes.

  A number goes as far as its digits, its fraction, its exponent and its letters go, and each of these stops
  in front of the first byte that does not belong to it.  So what is read depends on one byte more than the
  number has.  `Reads` says how little that is: what was read is a front of the text, on one line, and it is
  read again from any text with this front that goes on with a blank, a line end or nothing.
-/
import Cof.Proofs.Gaps

namespace Cof

open List

/-! ## Fronts of texts -/

def Stops (p : UInt8 → Bool) (text : Bytes) : Prop := ∀ b, text.head? = some b → p b = false

section Fronts

variable {p : UInt8 → Bool}

variable {text front tail : Bytes}

theorem takeWhile_eq_nil_iff_stops : text.takeWhile p = [] ↔ Stops p text := by
  cases text with
  | nil => simp [Stops]
  | cons b text => cases holds : p b <;> simp [Stops, holds]

theorem Stops.append {rest : Bytes} (h : Stops p (front ++ rest)) (ht : Stops p tail) : Stops p (front ++ tail) := by
  cases front with
  | nil => exact ht
  | cons b front => exact h

theorem takeWhile_append_stops (all : ∀ b ∈ front, p b = true) (stops : Stops p tail) :
    (front ++ tail).takeWhile p = front := by
  rw [takeWhile_append_of_pos all, takeWhile_eq_nil_iff_stops.2 stops, append_nil]

theorem of_mem_takeWhile {b : UInt8} (mem : b ∈ text.takeWhile p) : p b = true :=
  all_eq_true.1 all_takeWhile b mem

theorem takeWhile_split (p : UInt8 → Bool) (text : Bytes) :
    ∃ rest, text = text.takeWhile p ++ rest ∧ text.drop (text.takeWhile p).length = rest ∧ Stops p rest := by
  have same : text.takeWhile p ++ text.dropWhile p = text := takeWhile_append_dropWhile
  refine ⟨text.dropWhile p, same.symm, ?_, ?_⟩
  · conv => lhs; arg 2; rw [← same]
    rw [drop_left]
  · intro b head
    have fails := head?_dropWhile_not p text
    rw [head] at fails
    exact fails

theorem takeWhile_take_split (p : UInt8 → Bool) (limit : Nat) (text : Bytes) :
    ∃ rest, text = (text.take limit).takeWhile p ++ rest ∧ text.drop ((text.take limit).takeWhile p).length = rest ∧
      ∀ tail, tail.head? = rest.head? ∨ Stops p tail →
        (((text.take limit).takeWhile p ++ tail).take limit).takeWhile p = (text.take limit).takeWhile p := by
  obtain ⟨rest, same, _, stops⟩ := takeWhile_split p (text.take limit)
  generalize front : (text.take limit).takeWhile p = w at same
  have all : ∀ b ∈ w, p b = true := fun b mem => of_mem_takeWhile (front ▸ mem)
  have whole : text = w ++ (rest ++ text.drop limit) := by
    rw [← append_assoc, ← same, take_append_drop]
  refine ⟨rest ++ text.drop limit, whole, ?_, ?_⟩
  · conv => lhs; arg 2; rw [whole]
    rw [drop_left]
  · intro tail next
    have short : w.length ≤ limit := by
      have := congrArg List.length same
      rw [length_take, length_append] at this
      omega
    rw [take_append, take_of_length_le short]
    refine takeWhile_append_stops all ?_
    intro b head
    rw [head?_take] at head
    split at head
    · cases head
    · rename_i room
      rcases next with same' | stops'
      · -- There is room for the next byte, so it is the one that stopped.
        rw [same'] at head
        refine stops b ?_
        have known : rest = (rest ++ text.drop limit).take (limit - w.length) := by
          have := congrArg (List.take limit) whole
          rw [take_append, take_of_length_le short, same] at this
          exact append_cancel_left this
        rw [known, head?_take, if_neg room]
        exact head
      · exact stops' b head

end Fronts

/-! ## What may stand behind a token -/

theorem forall_byte {P : UInt8 → Prop} (h : ∀ n : Fin 256, P (.ofFin n)) (b : UInt8) : P b := h b.toFin

def Parted (tail : Bytes) : Prop := ∀ b, tail.head? = some b → isBlank b = true ∨ b = '\n'.toUInt8

def spaces : Bytes := [0x20, 0x09, 0x0d, 0x0b, 0x0c, 0x0a]

variable {b : UInt8} {p : UInt8 → Bool}

theorem mem_spaces (h : isBlank b = true ∨ b = '\n'.toUInt8) : b ∈ spaces := by
  simp only [isBlank, Bool.or_eq_true, beq_iff_eq] at h
  rcases h with ((((rfl | rfl) | rfl) | rfl) | rfl) | rfl <;> decide

theorem eq_false_of_spaces (none : spaces.any p = false) (mem : b ∈ spaces) : p b = false :=
  Bool.eq_false_iff.2 (any_eq_false.1 none b mem)

theorem Parted.stops {tail : Bytes} (h : Parted tail) (none : spaces.any p = false) : Stops p tail :=
  fun b head => eq_false_of_spaces none (mem_spaces (h b head))

theorem OneLine.of_class {text : Bytes} (all : ∀ b ∈ text, p b = true)
    (newline : p '\n'.toUInt8 = false) : OneLine text := by
  rintro b mem rfl
  rw [all _ mem] at newline
  cases newline

namespace Scan

/-- A scan took a front of the text, on one line, and takes it from any text with this front. -/
def Reads {α : Type} (scan : Bytes → Except Misread (α × Nat)) (done : Nat) (text : Bytes) (a : α)
    (length : Nat) : Prop :=
  ∃ body rest, text = body ++ rest ∧ length = done + body.length ∧ OneLine body ∧
    ∀ tail, Parted tail → scan (body ++ tail) = .ok (a, length)

/-! ## Numbers -/

variable {kind kind' : TokenKind} {done length : Nat} {text tail digits places rest : Bytes}
  {p : UInt8 → Bool} {value : Binary64}

theorem endNumber_eq_ok (h : endNumber kind done text = .ok (kind', length)) : kind' = kind ∧ length = done := by
  unfold endNumber at h
  split at h
  · cases h
    exact ⟨rfl, rfl⟩
  · split at h
    · cases h
    · cases h
      exact ⟨rfl, rfl⟩

theorem endNumber_stops (kind : TokenKind) (done : Nat) (stops : Stops isWordByte tail) :
    endNumber kind done tail = .ok (kind, done) := by
  cases tail with
  | nil => rfl
  | cons b tail => rw [endNumber, if_neg (by rw [stops b rfl]; decide)]

theorem suffix_reads {limit : Nat} (none : spaces.any p = false)
    (h : endNumber kind (done + ((text.take limit).takeWhile p).length)
      (text.drop ((text.take limit).takeWhile p).length) = .ok (kind', length)) :
    kind' = kind ∧ ∃ body rest, text = body ++ rest ∧ length = done + body.length ∧ (∀ b ∈ body, p b = true) ∧
      ∀ tail, Parted tail → endNumber kind (done + (((body ++ tail).take limit).takeWhile p).length)
          ((body ++ tail).drop (((body ++ tail).take limit).takeWhile p).length) = .ok (kind, length) := by
  obtain ⟨rfl, rfl⟩ := endNumber_eq_ok h
  obtain ⟨rest, whole, _, same⟩ := takeWhile_take_split p limit text
  refine ⟨rfl, _, rest, whole, rfl, fun b mem => of_mem_takeWhile mem, fun tail parted => ?_⟩
  rw [same tail (.inr (parted.stops none)), drop_left]
  exact endNumber_stops _ _ (parted.stops (by decide))

theorem endInteger_reads {value : Nat} (h : endInteger value done text = .ok (kind, length)) :
    Reads (endInteger value done) done text kind length := by
  unfold endInteger at h ⊢
  by_cases fits : value < 2 ^ 64
  · simp only [if_pos fits] at h ⊢
    obtain ⟨rfl, body, rest, whole, sum, letters, again⟩ := suffix_reads (by decide) h
    exact ⟨body, rest, whole, sum, .of_class letters (by decide), again⟩
  · rw [if_neg fits] at h
    cases h

theorem endFloat_reads
    (h : endFloat value done text = .ok (kind, length)) : Reads (endFloat value done) done text kind length := by
  obtain ⟨rfl, body, rest, whole, sum, letters, again⟩ := suffix_reads (by decide) h
  exact ⟨body, rest, whole, sum, .of_class letters (by decide), again⟩

theorem Reads.after_class {α : Type} {scan : Bytes → Bytes → Except Misread (α × Nat)}
    {a : α} (none : spaces.any p = false)
    (h : Reads (scan (text.takeWhile p)) (done + (text.takeWhile p).length)
      (text.drop (text.takeWhile p).length) a length) :
    Reads (fun text => scan (text.takeWhile p) (text.drop (text.takeWhile p).length)) done text a length := by
  obtain ⟨rest, whole, dropped, stops⟩ := takeWhile_split p text
  rw [dropped] at h
  generalize front : text.takeWhile p = digits at h whole
  have all : ∀ b ∈ digits, p b = true := fun b mem => of_mem_takeWhile (front ▸ mem)
  obtain ⟨body, more, rfl, sum, line, again⟩ := h
  refine ⟨digits ++ body, more, by rw [whole, append_assoc], ?_, ?_, fun tail parted => ?_⟩
  · rw [sum, length_append, Nat.add_assoc]
  · exact .append (.of_class all (eq_false_of_spaces none (by decide))) line
  · simp only [append_assoc]
    rw [takeWhile_append_stops all (stops.append (parted.stops none)), drop_left]
    exact again tail parted

def afterHexDigits (digits rest : Bytes) : Except Misread (TokenKind × Nat) :=
  if digits.isEmpty then .error ⟨.hexLiteralWithoutDigits, 0, 2⟩
  else endInteger (numeral 16 digits) (2 + digits.length) rest

theorem hexInteger_reads (h : hexInteger text = .ok (kind, length)) : Reads hexInteger 2 text kind length := by
  have parts : hexInteger = fun text =>
    afterHexDigits (text.takeWhile isHexDigit) (text.drop (text.takeWhile isHexDigit).length) := rfl
  rw [parts] at h ⊢
  refine .after_class (by decide) ?_
  by_cases empty : (text.takeWhile isHexDigit).isEmpty = true
  · simp [afterHexDigits, empty] at h
  · have integer : ∀ rest, afterHexDigits (text.takeWhile isHexDigit) rest = endInteger _ _ rest :=
      fun rest => if_neg empty
    simp only [integer] at h
    rw [funext integer]
    exact endInteger_reads h

theorem plainInteger_eq_ok {found : TokenKind × Nat} (h : plainInteger digits text = .ok found) :
    ∃ value, ∀ text, plainInteger digits text = endInteger value digits.length text := by
  unfold plainInteger at h ⊢
  cases digits with
  | nil => exact ⟨0, fun _ => rfl⟩
  | cons zero more =>
    by_cases octal : zero = '0'.toUInt8 ∧ (!more.isEmpty) = true
    · simp only [if_pos octal] at h ⊢
      cases bad : (zero :: more).find? (fun d => !isOctalDigit d) with
      | some d =>
        rw [bad] at h
        cases h
      | none => exact ⟨_, fun _ => rfl⟩
    · simp only [if_neg octal]
      exact ⟨_, fun _ => rfl⟩

def isExponentLetter (b : UInt8) : Bool := b == 'e'.toUInt8 || b == 'E'.toUInt8

theorem startsExponent_eq_false : startsExponent text = false ↔ Stops isExponentLetter text := by
  cases text with
  | nil => simp [startsExponent, Stops]
  | cons b text => simp [startsExponent, Stops, isExponentLetter]

theorem startsExponent_eq_true (h : startsExponent text = true) :
    ∃ b rest, text = b :: rest ∧ isExponentLetter b = true := by
  cases text with
  | nil => cases h
  | cons b rest => exact ⟨b, rest, rfl, h⟩

theorem exponentSign_split (text : Bytes) :
    ∃ sign rest, text = sign ++ rest ∧ (exponentSign text).2 = sign.length ∧ OneLine sign := by
  cases text with
  | nil => exact ⟨[], [], rfl, rfl, oneLine_nil⟩
  | cons b text =>
    by_cases minus : b = '-'.toUInt8
    · refine ⟨[b], text, rfl, by simp [exponentSign, minus], ?_⟩
      exact .cons (by rw [minus]; decide) oneLine_nil
    · by_cases plus : b = '+'.toUInt8
      · refine ⟨[b], text, rfl, ?_, .cons (by rw [plus]; decide) oneLine_nil⟩
        rw [exponentSign, if_neg minus, if_pos plus]
        rfl
      · exact ⟨[], b :: text, rfl, by simp [exponentSign, minus, plus], oneLine_nil⟩

theorem exponent_reads {digits places : Nat} {letter : UInt8} (starts : isExponentLetter letter = true)
    (h : exponent digits places done (letter :: text) = .ok (kind, length)) :
    ∃ body rest, text = body ++ rest ∧ length = done + 1 + body.length ∧ OneLine (letter :: body) ∧
      ∀ tail, Parted tail → exponent digits places done (letter :: (body ++ tail)) = .ok (kind, length) := by
  obtain ⟨sign, unsigned, rfl, signs, signLine⟩ := exponentSign_split text
  unfold exponent at h
  simp only [drop_succ_cons, drop_zero, signs, drop_left] at h
  split at h
  · cases h
  · rename_i nonempty
    obtain ⟨rest, whole, dropped, stops⟩ := takeWhile_split isDigit unsigned
    rw [← drop_drop, drop_left, dropped] at h
    generalize front : unsigned.takeWhile isDigit = power at h whole nonempty
    have all : ∀ b ∈ power, isDigit b = true := fun b mem => of_mem_takeWhile (front ▸ mem)
    obtain ⟨body, more, rfl, sum, line, again⟩ := endFloat_reads h
    subst whole
    refine ⟨sign ++ power ++ body, more, by simp only [append_assoc], ?_, ?_, fun tail parted => ?_⟩
    · simp only [sum, length_append]
      omega
    · refine .cons ?_ ((signLine.append (.of_class all (by decide))).append line)
      rintro rfl
      cases starts
    · -- The sign is known from its first byte, which is there in both texts.
      have signs' :
          exponentSign (sign ++ power ++ body ++ tail) = exponentSign (sign ++ (power ++ (body ++ more))) := by
        cases sign with
        | cons b sign => rfl
        | nil =>
          cases power with
          | nil => exact absurd rfl nonempty
          | cons b power => rfl
      unfold exponent
      simp only [drop_succ_cons, drop_zero, signs', signs]
      simp only [append_assoc, drop_left]
      rw [takeWhile_append_stops all (stops.append (parted.stops (by decide))), if_neg nonempty,
        ← drop_drop, drop_left, drop_left]
      exact again tail parted

theorem Reads.exponent_or {digits places : Nat} {scan : Bytes → Except Misread (TokenKind × Nat)}
    (h : (if startsExponent text then exponent digits places done text else scan text) = .ok (kind, length))
    (reads : scan text = .ok (kind, length) → Reads scan done text kind length) :
    Reads (fun text => if startsExponent text then exponent digits places done text else scan text)
      done text kind length := by
  by_cases starts : startsExponent text = true
  · rw [if_pos starts] at h
    obtain ⟨letter, text, rfl, isLetter⟩ := startsExponent_eq_true starts
    obtain ⟨body, rest, rfl, sum, line, again⟩ := exponent_reads isLetter h
    refine ⟨letter :: body, rest, rfl, ?_, line, fun tail parted => ?_⟩
    · rw [sum, length_cons]
      omega
    · exact (if_pos starts).trans (again tail parted)
  · rw [if_neg starts] at h
    obtain ⟨body, rest, rfl, sum, line, again⟩ := reads h
    refine ⟨body, rest, rfl, sum, line, fun tail parted => ?_⟩
    have stops := startsExponent_eq_false.1 (Bool.eq_false_iff.2 starts)
    have stops' := startsExponent_eq_false.2 (stops.append (parted.stops (by decide)))
    simp only [stops']
    exact again tail parted

theorem fraction?_eq_some (h : fraction? text = some places) :
    ∃ rest, text = '.'.toUInt8 :: (places ++ rest) ∧ (∀ b ∈ places, isDigit b = true) ∧ places ≠ [] ∧
      Stops isDigit rest := by
  cases text with
  | nil => cases h
  | cons point text =>
    simp only [fraction?] at h
    split at h
    · rename_i found
      obtain ⟨rest, whole, _, stops⟩ := takeWhile_split isDigit text
      cases h
      refine ⟨rest, by rw [found.1, ← whole], fun b mem => of_mem_takeWhile mem, ?_, stops⟩
      simpa using found.2
    · cases h

theorem fraction?_point (all : ∀ b ∈ places, isDigit b = true) (nonempty : places ≠ [])
    (stops : Stops isDigit tail) : fraction? ('.'.toUInt8 :: (places ++ tail)) = some places := by
  simp only [fraction?, takeWhile_append_stops all stops]
  exact if_pos ⟨trivial, by simpa using nonempty⟩

theorem fraction?_eq_none (h : Stops (· == '.'.toUInt8) text) : fraction? text = none := by
  cases text with
  | nil => rfl
  | cons b text =>
    have other : b ≠ '.'.toUInt8 := by simpa using h b rfl
    exact if_neg fun found => other found.1

theorem fraction?_parted {body : Bytes} (h : fraction? (body ++ rest) = none) (parted : Parted tail) :
    fraction? (body ++ tail) = none := by
  rcases body with _ | ⟨point, _ | ⟨b, body⟩⟩
  · exact fraction?_eq_none (parted.stops (by decide))
  · simp [fraction?, takeWhile_eq_nil_iff_stops.2 (parted.stops (p := isDigit) (by decide))]
  · cases digit : isDigit b <;> simp_all [fraction?]

theorem startsNumber_iff (text : Bytes) :
    startsNumber text = true ↔ text.takeWhile isDigit ≠ [] ∨ (fraction? text).isSome = true := by
  cases text with
  | nil => simp [startsNumber, fraction?]
  | cons b rest =>
    have short : (fraction? (b :: rest.take 1)).isSome = (fraction? (b :: rest)).isSome := by
      cases rest with
      | nil => rfl
      | cons c rest =>
        by_cases point : b = '.'.toUInt8 <;> cases digit : isDigit c <;> simp [fraction?, point, digit]
    simp only [startsNumber, Bool.or_eq_true, short]
    cases digit : isDigit b <;> simp [digit]

def afterDigits (digits rest : Bytes) : Except Misread (TokenKind × Nat) :=
  match fraction? rest with
  | some places =>
    let all := numeral 10 (digits ++ places)
    let done := digits.length + 1 + places.length
    let rest := rest.drop (1 + places.length)
    if startsExponent rest then exponent all places.length done rest
    else endFloat (.ofDecimal all (-(places.length : Int))) done rest
  | none =>
    if startsExponent rest then exponent (numeral 10 digits) 0 digits.length rest
    else plainInteger digits rest

theorem decimalNumber_eq (text : Bytes) :
    decimalNumber text = afterDigits (text.takeWhile isDigit) (text.drop (text.takeWhile isDigit).length) := rfl

theorem ne_of_class {b c : UInt8} (hb : p b = true) (hc : p c = false) : b ≠ c := by
  rintro rfl
  rw [hb] at hc
  cases hc

theorem afterFraction_reads
    (fraction : fraction? rest = some places) (h : afterDigits digits rest = .ok (kind, length)) :
    ∃ body more, rest = body ++ more ∧ length = digits.length + body.length ∧ OneLine body ∧
      ∀ tail, Parted tail → fraction? (body ++ tail) = some places ∧
        afterDigits digits (body ++ tail) = .ok (kind, length) := by
  obtain ⟨rest, rfl, all, nonempty, stops⟩ := fraction?_eq_some fraction
  have skipped : ∀ rest, ('.'.toUInt8 :: (places ++ rest)).drop (1 + places.length) = rest := fun rest => by
    rw [Nat.add_comm, drop_succ_cons, drop_left]
  simp only [afterDigits, fraction, skipped] at h
  obtain ⟨body, more, rfl, sum, line, again⟩ := Reads.exponent_or h endFloat_reads
  refine ⟨'.'.toUInt8 :: (places ++ body), more, by simp, ?_, ?_, fun tail parted => ?_⟩
  · simp only [sum, length_append, length_cons]
    omega
  · exact .cons (by decide) (.append (.of_class all (by decide)) line)
  · have found : fraction? ('.'.toUInt8 :: (places ++ (body ++ tail))) = some places :=
      fraction?_point all nonempty (stops.append (parted.stops (by decide)))
    simp only [cons_append, append_assoc, afterDigits, found, skipped]
    exact ⟨trivial, again tail parted⟩

theorem afterWhole_reads (fraction : fraction? rest = none) (h : afterDigits digits rest = .ok (kind, length)) :
    ∃ body more, rest = body ++ more ∧ length = digits.length + body.length ∧ OneLine body ∧
      ∀ tail, Parted tail → fraction? (body ++ tail) = none ∧
        afterDigits digits (body ++ tail) = .ok (kind, length) := by
  simp only [afterDigits, fraction] at h
  have integer (h : plainInteger digits rest = .ok (kind, length)) :
      Reads (plainInteger digits) digits.length rest kind length := by
    obtain ⟨value, plain⟩ := plainInteger_eq_ok h
    rw [funext plain] at h ⊢
    exact endInteger_reads h
  obtain ⟨body, more, rfl, sum, line, again⟩ := Reads.exponent_or h integer
  refine ⟨body, more, rfl, sum, line, fun tail parted => ?_⟩
  have unbroken := fraction?_parted fraction parted
  simp only [afterDigits, unbroken]
  exact ⟨trivial, again tail parted⟩

theorem decimalNumber_reads (starts : startsNumber text = true) (h : decimalNumber text = .ok (kind, length)) :
    ∃ body rest, text = body ++ rest ∧ length = body.length ∧ OneLine body ∧
      ∀ tail, Parted tail → startsNumber (body ++ tail) = true ∧ decimalNumber (body ++ tail) = .ok (kind, length) := by
  rw [startsNumber_iff] at starts
  obtain ⟨rest, whole, dropped, stops⟩ := takeWhile_split isDigit text
  rw [decimalNumber_eq, dropped] at h
  generalize front : text.takeWhile isDigit = digits at h whole starts
  have all : ∀ b ∈ digits, isDigit b = true := fun b mem => of_mem_takeWhile (front ▸ mem)
  subst whole
  obtain ⟨body, more, rfl, sum, line, again⟩ : ∃ body more, rest = body ++ more ∧
      length = digits.length + body.length ∧ OneLine body ∧
      ∀ tail, Parted tail → fraction? (body ++ tail) = fraction? rest ∧
        afterDigits digits (body ++ tail) = .ok (kind, length) := by
    cases fraction : fraction? rest with
    | some places => exact afterFraction_reads fraction h
    | none => exact afterWhole_reads fraction h
  refine ⟨digits ++ body, more, by rw [append_assoc], ?_, ?_, fun tail parted => ?_⟩
  · rw [sum, length_append]
  · exact .append (.of_class all (by decide)) line
  · have digits' : (digits ++ (body ++ tail)).takeWhile isDigit = digits :=
      takeWhile_append_stops all (stops.append (parted.stops (by decide)))
    rw [append_assoc, startsNumber_iff, decimalNumber_eq, digits', drop_left]
    refine ⟨?_, (again tail parted).2⟩
    -- A point at the start belongs to a fraction, which is found again.
    rcases starts with nonempty | found
    · exact .inl nonempty
    · cases digits with
      | nil => exact .inr (by rwa [nil_append, (again tail parted).1])
      | cons b digits => exact .inl nofun

def isHexMark (b : UInt8) : Bool := b == 'x'.toUInt8 || b == 'X'.toUInt8

/-- Whether a text starts with the two bytes in front of hexadecimal digits. -/
def startsHex : Bytes → Bool
  | zero :: x :: _ => zero == '0'.toUInt8 && isHexMark x
  | _ => false

theorem number_eq (text : Bytes) :
    number text = if startsHex text then hexInteger (text.drop 2) else decimalNumber text := by
  rcases text with _ | ⟨zero, _ | ⟨x, rest⟩⟩
  · rfl
  · rfl
  · simp only [number, startsHex, isHexMark, Bool.and_eq_true, Bool.or_eq_true, beq_iff_eq]
    rfl

theorem startsHex_cons (zero : UInt8) (stops : Stops isHexMark rest) : startsHex (zero :: rest) = false := by
  cases rest with
  | nil => rfl
  | cons x rest => rw [startsHex, stops x rfl, Bool.and_false]

theorem startsHex_parted {body : Bytes} (h : startsHex (body ++ rest) = false) (parted : Parted tail) :
    startsHex (body ++ tail) = false := by
  rcases body with _ | ⟨b, _ | ⟨c, body⟩⟩
  · rcases tail with _ | ⟨zero, _ | ⟨x, tail⟩⟩
    · rfl
    · rfl
    · have other : (zero == '0'.toUInt8) = false := parted.stops (p := (· == '0'.toUInt8)) (by decide) zero rfl
      rw [nil_append, startsHex, other, Bool.false_and]
  · exact startsHex_cons b (parted.stops (by decide))
  · exact h

theorem number_reads (starts : startsNumber text = true) (h : number text = .ok (kind, length)) :
    ∃ body rest, text = body ++ rest ∧ length = body.length ∧ OneLine body ∧
      ∀ tail, Parted tail → startsNumber (body ++ tail) = true ∧ number (body ++ tail) = .ok (kind, length) := by
  rw [number_eq] at h
  by_cases hex : startsHex text = true
  · rw [if_pos hex] at h
    obtain ⟨zero, x, text, rfl⟩ : ∃ zero x rest, text = zero :: x :: rest := by
      rcases text with _ | ⟨zero, _ | ⟨x, rest⟩⟩
      · cases hex
      · cases hex
      · exact ⟨zero, x, rest, rfl⟩
    obtain ⟨body, rest, rfl, sum, line, again⟩ := hexInteger_reads h
    have marks : zero = '0'.toUInt8 ∧ (x = 'x'.toUInt8 ∨ x = 'X'.toUInt8) := by
      simpa [startsHex, isHexMark] using hex
    refine ⟨zero :: x :: body, rest, rfl, ?_, ?_, fun tail parted => ⟨?_, ?_⟩⟩
    · rw [sum, length_cons, length_cons]
      omega
    · obtain ⟨rfl, rfl | rfl⟩ := marks
      · exact .cons (by decide) (.cons (by decide) line)
      · exact .cons (by decide) (.cons (by decide) line)
    · rw [marks.1]
      rfl
    · rw [number_eq]
      exact (if_pos hex).trans (again tail parted)
  · rw [if_neg hex] at h
    obtain ⟨body, rest, rfl, sum, line, again⟩ := decimalNumber_reads starts h
    refine ⟨body, rest, rfl, sum, line, fun tail parted => ⟨(again tail parted).1, ?_⟩⟩
    rw [number_eq, startsHex_parted (Bool.eq_false_iff.2 hex) parted]
    exact (again tail parted).2

end Scan

end Cof
