/-
  Literals keep their values.

  What a literal stands for is told here without the lexer: an integer is written in digits of one of three
  radices (`Integer`), a string byte by byte in one of several spellings.  The lexer finds exactly this value,
  and the code of the literal as an expression holds it.
-/
import Cof.Proofs.Codec
import Cof.Proofs.Emission
import Cof.Proofs.Lexed
import Cof.Proofs.Refused
import Cof.Proofs.Reread
import Mathlib.Data.Nat.Digits.Defs

namespace Cof

open List

/-! ## Integers -/

/-- The number that digits stand for, by their places. -/
def placed (radix : Nat) (digits : Bytes) : Nat := Nat.ofDigits radix (digits.reverse.map digitValue)

theorem numeral_eq_placed (radix : Nat) (digits : Bytes) : numeral radix digits = placed radix digits := by
  rw [numeral, ofDigits_eq_placeValue, placed, Nat.ofDigits_eq_foldr]
  rfl

/-- The number digit by digit, given up as soon as it does not fit in 64 bits. -/
def checkedNumeral? (radix : Nat) (digits : Bytes) : Option Nat :=
  digits.foldlM (fun n d => if n * radix + digitValue d < 2 ^ 64 then some (n * radix + digitValue d) else none) 0

/-- More digits do not make a number smaller, so it can be checked at the end. -/
theorem checkedNumeral?_eq {radix : Nat} (positive : 0 < radix) (digits : Bytes) : checkedNumeral? radix digits =
    if numeral radix digits < 2 ^ 64 then some (numeral radix digits) else none := by
  induction digits using List.reverseRecOn with
  | nil => rfl
  | append_singleton digits d ih =>
    have grows : numeral radix digits ≤ numeral radix digits * radix := Nat.le_mul_of_pos_right _ positive
    rw [checkedNumeral?, List.foldlM_append, ← checkedNumeral?, ih, numeral_concat]
    by_cases fits : numeral radix digits < 2 ^ 64
    · rw [if_pos fits, Option.bind_eq_bind, Option.bind_some, foldlM_cons]
      exact bind_pure _
    · rw [if_neg fits, if_neg (by omega)]
      rfl

/-- An integer whose digits are checked one by one is too large where one is that is checked at its end. -/
theorem Scan.endInteger_numeral {radix : Nat} (positive : 0 < radix) (digits : Bytes) (done : Nat) (text : Bytes) :
    endInteger (numeral radix digits) done text = (checkedNumeral? radix digits).elim (.error ⟨.integerTooLarge, 0, done⟩)
      (endInteger · done text) := by
  rw [checkedNumeral?_eq positive]
  by_cases fits : numeral radix digits < 2 ^ 64
  · rw [if_pos fits]
    rfl
  · rw [endInteger, if_neg fits, if_neg fits]
    rfl

/-- The digits of an integer and its value. -/
inductive Integer : Bytes → Nat → Prop
  | decimal {digits : Bytes} (nonempty : digits ≠ []) (all : ∀ b ∈ digits, isDigit b = true)
      (first : digits.head? = some '0'.toUInt8 → digits.length = 1) : Integer digits (placed 10 digits)
  | octal {digits : Bytes} (all : ∀ b ∈ digits, Scan.isOctalDigit b = true) :
      Integer ('0'.toUInt8 :: digits) (placed 8 digits)
  | hexadecimal {x : UInt8} {digits : Bytes} (mark : x = 'x'.toUInt8 ∨ x = 'X'.toUInt8) (nonempty : digits ≠ [])
      (all : ∀ b ∈ digits, isHexDigit b = true) : Integer ('0'.toUInt8 :: x :: digits) (placed 16 digits)

def goesOn (b : UInt8) : Bool := isWordByte b || b == '.'.toUInt8

theorem Stops.of_class {p q : UInt8 → Bool} {front tail : Bytes} (all : ∀ b ∈ front, q b = true)
    (apart : ∀ b, q b = true → p b = false) (stops : Stops p tail) : Stops p (front ++ tail) := by
  cases front with
  | nil => exact stops
  | cons b front =>
    rintro _ ⟨⟩
    exact apart b (all b (mem_cons_self ..))

namespace Scan

variable {digits suffix rest : Bytes} {p : UInt8 → Bool} {v : Nat}

section Suffixed

variable (letters : ∀ b ∈ suffix, isIntegerSuffix b = true) (ended : Stops goesOn rest)

include letters ended

theorem stops_suffixed (apart : ∀ b, (isIntegerSuffix b = true → p b = false) ∧ (p b = true → goesOn b = true)) :
    Stops p (suffix ++ rest) := by
  refine .of_class letters (fun b => (apart b).1) fun b head => ?_
  by_contra holds
  have inside := (apart b).2 (Bool.of_not_eq_false holds)
  rw [ended b head] at inside
  cases inside

theorem endInteger_suffixed (short : suffix.length ≤ 3) (v done : Nat) : endInteger v done (suffix ++ rest) =
    if v < 2 ^ 64 then .ok (.int (.ofNat v), done + suffix.length) else .error ⟨.integerTooLarge, 0, done⟩ := by
  have word : Stops isWordByte rest := fun b head => (Bool.or_eq_false_iff.1 (ended b head)).1
  have front : ((suffix ++ rest).take 3).takeWhile isIntegerSuffix = suffix := by
    rw [take_append, take_of_length_le short]
    refine takeWhile_append_stops letters fun b head => ?_
    rw [head?_take] at head
    split at head
    · cases head
    · by_contra letter
      have := forall_byte (P := fun b => isIntegerSuffix b = true → isWordByte b = true) (by decide +kernel) b
        (Bool.of_not_eq_false letter)
      rw [word b head] at this
      cases this
  simp only [endInteger, front, drop_left, endNumber_stops _ _ word]

theorem afterDigits_suffixed : afterDigits digits (suffix ++ rest) = plainInteger digits (suffix ++ rest) := by
  have whole := fraction?_eq_none (stops_suffixed letters ended (forall_byte (by decide +kernel)))
  have plain := startsExponent_eq_false.2 (stops_suffixed letters ended (forall_byte (by decide +kernel)))
  simp only [afterDigits, whole, plain]
  rfl

theorem number_suffixed (integer : Integer digits v) :
    number (digits ++ (suffix ++ rest)) = endInteger v digits.length (suffix ++ rest) := by
  have decimal {first : UInt8} {more : Bytes} (all : ∀ b ∈ first :: more, isDigit b = true) :
      number (first :: more ++ (suffix ++ rest)) = plainInteger (first :: more) (suffix ++ rest) := by
    have marks : Stops isHexMark (more ++ (suffix ++ rest)) :=
      .of_class (fun b mem => all b (mem_cons_of_mem _ mem))
        (forall_byte (by decide +kernel)) (stops_suffixed letters ended (forall_byte (by decide +kernel)))
    rw [number_eq, cons_append, startsHex_cons first marks, ← cons_append]
    show decimalNumber _ = _
    rw [decimalNumber_eq, takeWhile_append_stops all (stops_suffixed letters ended (forall_byte (by decide +kernel))),
      drop_left, afterDigits_suffixed letters ended]
  cases integer with
  | @decimal digits nonempty all first =>
    cases digits with
    | nil => exact absurd rfl nonempty
    | cons zero more =>
      have alone : ¬ (zero = '0'.toUInt8 ∧ (!more.isEmpty) = true) := by
        rintro ⟨rfl, many⟩
        have := first rfl
        cases more with
        | nil => cases many
        | cons b more => cases this
      rw [decimal all, plainInteger, if_neg alone, numeral_eq_placed]
  | @octal digits all =>
    have all' : ∀ b ∈ '0'.toUInt8 :: digits, isOctalDigit b = true := forall_mem_cons.2 ⟨rfl, all⟩
    have found : ('0'.toUInt8 :: digits).find? (fun d => !isOctalDigit d) = none :=
      find?_eq_none.2 fun b mem => by simp [all' b mem]
    rw [decimal fun b mem => forall_byte (P := fun b => isOctalDigit b = true → isDigit b = true)
      (by decide +kernel) b (all' b mem), plainInteger]
    simp only [found, numeral_eq_placed]
    cases digits with
    | nil => rfl
    | cons b digits => rfl
  | @hexadecimal x digits mark nonempty all =>
    have hex : startsHex ('0'.toUInt8 :: x :: digits ++ (suffix ++ rest)) = true := by
      simp [startsHex, isHexMark, mark]
    rw [number_eq, if_pos hex]
    show hexInteger (digits ++ (suffix ++ rest)) = _
    simp only [hexInteger, takeWhile_append_stops all (stops_suffixed letters ended (forall_byte (by decide +kernel))),
      drop_left, numeral_eq_placed]
    rw [if_neg (by simpa using nonempty), length_cons, length_cons]
    congr 1
    omega

end Suffixed

theorem token_of_digit {first : UInt8} (digit : isDigit first = true) : token first rest = number (first :: rest) := by
  have starts : startsNumber (first :: rest) = true := by rw [startsNumber, digit, Bool.true_or]
  unfold token
  rw [if_neg (Scan.ne_of_class digit (by decide)), if_neg (Scan.ne_of_class digit (by decide)), if_pos starts]

end Scan

theorem Integer.first {digits : Bytes} {v : Nat} (integer : Integer digits v) :
    ∃ first more, digits = first :: more ∧ isDigit first = true := by
  cases integer with
  | @decimal digits nonempty all =>
    cases digits with
    | nil => exact absurd rfl nonempty
    | cons first more => exact ⟨first, more, rfl, all first (mem_cons_self ..)⟩
  | octal | hexadecimal => exact ⟨_, _, rfl, rfl⟩

theorem Integer.next {digits suffix rest : Bytes} {v : Nat} (integer : Integer digits v)
    (letters : ∀ b ∈ suffix, Scan.isIntegerSuffix b = true) (short : suffix.length ≤ 3) (ended : Stops goesOn rest)
    (loc : Location) : Lexer.next ⟨loc, digits ++ suffix ++ rest⟩ =
      if v < 2 ^ 64 then
        (.ok ⟨.int (.ofNat v), loc, digits ++ suffix⟩, ⟨loc.right (digits ++ suffix).length, rest⟩)
      else (.error ⟨.integerTooLarge, loc⟩, ⟨loc.right digits.length, []⟩) := by
  have read := Scan.number_suffixed letters ended integer
  rw [Scan.endInteger_suffixed letters ended short] at read
  obtain ⟨first, more, rfl, digit⟩ := integer.first
  have solid : Solid first (more ++ (suffix ++ rest)) := by
    refine ⟨Scan.ne_of_class digit (by decide), ?_, fun slash => absurd slash (Scan.ne_of_class digit (by decide))⟩
    exact forall_byte (P := fun b => isDigit b = true → isBlank b = false) (by decide +kernel) first digit
  have skipped := skip_solid solid (Scan.ne_of_class digit (by decide)) (loc.column == 1) loc
  rw [cons_append, ← Scan.token_of_digit digit] at read
  have whole : first :: more ++ suffix ++ rest = first :: (more ++ (suffix ++ rest)) := by simp
  rw [whole, Lexer.next]
  simp only [skipped, read]
  by_cases fits : v < 2 ^ 64
  · simp only [if_pos fits, ← whole, ← length_append, take_left, drop_left]
  · simp only [if_neg fits]
    rfl

open Lowering

/-- The type tag of the constant for an integer literal. -/
def literalTag (v : Nat) : TypeTag := if v < 2 ^ 31 then .i32 else if v < 2 ^ 63 then .i64 else .u64

theorem written_literal {v : Nat} (fits : v < 2 ^ 64) : ∃ width,
    (Operand.imm (CType.ofLiteral (.ofNat v)).encoding (.ofNat v)).written = .imm ⟨literalTag v, width⟩ (.ofNat v) := by
  have kept : (UInt64.ofNat v).toNat = v := UInt64.toNat_ofNat_of_lt' fits
  unfold literalTag CType.ofLiteral
  rw [kept]
  split
  · refine ⟨4, (Operand.written_eq_self_iff _).2 ⟨by decide, ?_⟩⟩
    rw [kept]
    exact Nat.lt_trans ‹_› (by decide)
  · split
    all_goals
      refine ⟨8, (Operand.written_eq_self_iff _).2 ⟨by decide, ?_⟩⟩
      rw [kept]
      exact fits

/-- An integer literal keeps its value from the source to the code. -/
theorem integer_kept {digits suffix rest : Bytes} {v : Nat} (integer : Integer digits v)
    (letters : ∀ b ∈ suffix, Scan.isIntegerSuffix b = true) (short : suffix.length ≤ 3)
    (ended : ∀ b, rest.head? = some b → isWordByte b = false ∧ b ≠ '.'.toUInt8) (loc : Location) :
    (v < 2 ^ 64 → Lexer.next ⟨loc, digits ++ suffix ++ rest⟩ =
      (.ok ⟨.int (.ofNat v), loc, digits ++ suffix⟩, ⟨loc.right (digits ++ suffix).length, rest⟩)) ∧
    (2 ^ 64 ≤ v → (Lexer.next ⟨loc, digits ++ suffix ++ rest⟩).1 = .error ⟨.integerTooLarge, loc⟩) ∧
    (v < 2 ^ 64 → ∀ s : State, ∃ result s' i, value (.int loc (.ofNat v)) s = .ok result s' ∧
      s'.code = i :: s.code ∧ ∃ bytes, i.encode = .ok bytes ∧ ∀ more, ∃ target width n, Instr.decode (bytes ++ more) =
          .ok (⟨.mov, .none, [target, .imm ⟨literalTag v, width⟩ n]⟩, bytes.length) ∧ n.toNat = v) := by
  have next := integer.next letters short (fun b head => by simpa [goesOn] using ended b head) loc
  refine ⟨fun fits => by rw [next, if_pos fits], fun large => by rw [next, if_neg (by omega)], fun fits s => ?_⟩
  have lowers : Lowers s.scopes s.variableCount (value (.int loc (.ofNat v))) _ :=
    lowers_noted (lowers_compute_typed rfl)
  obtain ⟨result, s', _, run, -, code, -, -, rfl⟩ := lowers s rfl rfl
  refine ⟨result, s', _, run, code, (Instr.encode_of_fits ?_).imp fun bytes encodes => ⟨encodes, fun more => ?_⟩⟩
  · rfl
  · obtain ⟨width, same⟩ := written_literal fits
    rw [Instr.decode_append encodes, Instr.written]
    simp only [List.map_cons, List.map_nil, same]
    exact ⟨_, width, _, rfl, UInt64.toNat_ofNat_of_lt' fits⟩

theorem integer_kept_largest : placed 16 (ascii "FFFFffffFFFFffff") = 2 ^ 64 - 1 ∧
    (Lexer.next ⟨.start, ascii "0XFFFFffffFFFFffff" ++ ascii "uLL" ++ ascii ";"⟩).1 =
      .ok ⟨.int (.ofNat (placed 16 (ascii "FFFFffffFFFFffff"))), .start, ascii "0XFFFFffffFFFFffff" ++ ascii "uLL"⟩ :=
  have integer : Integer (ascii "0XFFFFffffFFFFffff") (placed 16 (ascii "FFFFffffFFFFffff")) :=
    .hexadecimal (.inr rfl) (by decide +kernel) (by decide +kernel)
  ⟨by decide +kernel, congrArg Prod.fst ((integer_kept integer (by decide +kernel) (by decide)
    (by rintro _ ⟨⟩; decide) .start).1 (by decide +kernel))⟩

/-! ## Strings -/

def simpleEscapes : List (Char × UInt8) :=
  [('\'', 0x27), ('"', 0x22), ('?', 0x3f), ('\\', 0x5c), ('a', 7), ('b', 8), ('f', 12), ('n', 10), ('r', 13), ('t', 9),
    ('v', 11)]

/-- The ways to write a byte between double quotes. -/
inductive SpellsByte : UInt8 → Bytes → Prop
  | raw {b : UInt8} (plain : b ∉ ascii "\"\\\n") : SpellsByte b [b]
  | simple {c : Char} {b : UInt8} (listed : (c, b) ∈ simpleEscapes) : SpellsByte b ['\\'.toUInt8, c.toUInt8]
  | hex {h l b : UInt8} (high : isHexDigit h = true) (low : isHexDigit l = true)
      (sum : b.toNat = placed 16 [h, l]) : SpellsByte b ['\\'.toUInt8, 'x'.toUInt8, h, l]
  | octal {x y z b : UInt8} (all : ∀ d ∈ [x, y, z], Scan.isOctalDigit d = true) (sum : b.toNat = placed 8 [x, y, z]) :
      SpellsByte b ['\\'.toUInt8, x, y, z]

/-- A string literal with these bytes. -/
def Quoted (bytes raw : Bytes) : Prop :=
  ∃ spellings, List.Forall₂ SpellsByte bytes spellings ∧ raw = '"'.toUInt8 :: (spellings.flatten ++ ['"'.toUInt8])

namespace Scan

variable {literal : QuotedLiteral} {start done : Nat} {tail : Bytes} {b : UInt8}

theorem stringBody_skip (done : Nat) (value body tail : Bytes) :
    stringBody done value body.length (body ++ tail) = stringBody (done + body.length) value 0 tail := by
  induction body generalizing done with
  | nil => rfl
  | cons b body ih =>
    rw [length_cons, cons_append, stringBody, ih, Nat.add_assoc, Nat.add_comm 1]

theorem escape_simple {c : Char} (listed : (c, b) ∈ simpleEscapes) :
    escape literal start ([c.toUInt8] ++ tail) = .ok (b, 1) := by
  simp only [simpleEscapes, mem_cons, Prod.mk.injEq, not_mem_nil, or_false] at listed
  rcases listed with ⟨rfl, rfl⟩ | ⟨rfl, rfl⟩ | ⟨rfl, rfl⟩ | ⟨rfl, rfl⟩ | ⟨rfl, rfl⟩ | ⟨rfl, rfl⟩ | ⟨rfl, rfl⟩ |
    ⟨rfl, rfl⟩ | ⟨rfl, rfl⟩ | ⟨rfl, rfl⟩ | ⟨rfl, rfl⟩ <;> rfl

theorem escape_two {h l : UInt8} (high : isHexDigit h = true) (low : isHexDigit l = true)
    (sum : b.toNat = placed 16 [h, l]) : escape literal start (['x'.toUInt8, h, l] ++ tail) = .ok (b, 3) := by
  have digits : (([h, l] ++ tail).take 2).takeWhile isHexDigit = [h, l] := by simp [high, low]
  rw [cons_append, escape, if_pos rfl]
  simp only [digits, numeral_eq_placed, ← sum, UInt8.ofNat_toNat]
  rfl

theorem escape_three {x y z : UInt8} (all : ∀ d ∈ [x, y, z], isOctalDigit d = true)
    (sum : b.toNat = placed 8 [x, y, z]) : escape literal start ([x, y, z] ++ tail) = .ok (b, 3) := by
  have first := all x mem_cons_self
  have digits : ((x :: ([y, z] ++ tail)).take 3).takeWhile isOctalDigit = [x, y, z] := by
    simp [all x, all y, all z]
  rw [cons_append, escape, if_neg (ne_of_class first (by decide)), if_pos first]
  simp only [digits, numeral_eq_placed, ← sum, UInt8.ofNat_toNat, if_pos b.toNat_lt]
  rfl

theorem stringBody_spelled {spelling : Bytes} (spelled : SpellsByte b spelling) (done : Nat) (value tail : Bytes) :
    stringBody done value 0 (spelling ++ tail) = stringBody (done + spelling.length) (b :: value) 0 tail := by
  have escaped {body : Bytes} (read : escape .string (done + 1) (body ++ tail) = .ok (b, body.length)) :
      stringBody done value 0 ('\\'.toUInt8 :: body ++ tail) =
        stringBody (done + ('\\'.toUInt8 :: body).length) (b :: value) 0 tail := by
    rw [cons_append, stringBody, if_neg (by decide), if_neg (by decide), if_pos rfl, read]
    simp only
    rw [stringBody_skip, length_cons, Nat.add_assoc, Nat.add_comm 1]
  cases spelled with
  | raw plain =>
    obtain ⟨quote, escape, newline⟩ : b ≠ '"'.toUInt8 ∧ b ≠ '\\'.toUInt8 ∧ b ≠ '\n'.toUInt8 := by
      simpa [ascii] using plain
    rw [singleton_append, stringBody, if_neg newline, if_neg quote, if_neg escape]
    rfl
  | simple listed => exact escaped (escape_simple listed)
  | hex high low sum => exact escaped (escape_two high low sum)
  | octal all sum => exact escaped (escape_three all sum)

theorem stringBody_quoted {bytes : Bytes} {spellings : List Bytes} (spelled : List.Forall₂ SpellsByte bytes spellings)
    (done : Nat) (value tail : Bytes) : stringBody done value 0 (spellings.flatten ++ '"'.toUInt8 :: tail) =
      .ok (value.reverse ++ bytes, done + spellings.flatten.length + 1) := by
  induction spelled generalizing done value with
  | nil =>
    rw [flatten_nil, nil_append, stringBody, if_neg (by decide), if_pos rfl, append_nil]
    rfl
  | cons first _ ih =>
    rw [flatten_cons, append_assoc, stringBody_spelled first, ih]
    simp [Nat.add_assoc]

end Scan

theorem skip_quote (lineStart : Bool) (loc : Location) (rest : Bytes) :
    skip (.blanks lineStart) loc ('"'.toUInt8 :: rest) = (loc, '"'.toUInt8 :: rest) :=
  skip_solid ⟨by decide, rfl, fun slash => absurd slash (by decide)⟩ (by decide) lineStart loc

theorem Quoted.next {bytes raw : Bytes} (quoted : Quoted bytes raw) (loc : Location) (rest : Bytes) :
    Lexer.next ⟨loc, raw ++ rest⟩ = (.ok ⟨.string bytes, loc, raw⟩, ⟨loc.right raw.length, rest⟩) := by
  obtain ⟨spellings, spelled, rfl⟩ := quoted
  have read : Scan.token '"'.toUInt8 ((spellings.flatten ++ ['"'.toUInt8]) ++ rest) =
      .ok (.string bytes, ('"'.toUInt8 :: (spellings.flatten ++ ['"'.toUInt8])).length) := by
    refine Scan.token_eq_ok.2 (.string rfl ?_)
    rw [append_assoc, singleton_append, Scan.stringBody_quoted spelled]
    simp [Nat.add_comm]
  exact Lexer.next_of_token (skip_quote _ loc _) read

/-- String literals with gaps between them, in front of other text. -/
inductive Adjacent : Bytes → List Bytes → Bytes → Bytes → Prop
  | last {bytes raw behind : Bytes} (quoted : Quoted bytes raw) : Adjacent bytes [] raw behind
  | cons {bytes raw gap next text behind : Bytes} {values : List Bytes} (quoted : Quoted bytes raw)
      (between : Gap raw gap (text ++ behind)) (rest : Adjacent next values text behind) :
      Adjacent bytes (next :: values) (raw ++ (gap ++ text)) behind

theorem Adjacent.first {value text behind : Bytes} {values : List Bytes} (adjacent : Adjacent value values text behind) :
    ∃ more, text ++ behind = '"'.toUInt8 :: more := by
  cases adjacent with
  | last quoted | cons quoted =>
    obtain ⟨_, _, rfl⟩ := quoted
    exact ⟨_, rfl⟩

theorem Quoted.not_blank {bytes raw : Bytes} (quoted : Quoted bytes raw) : ¬ BlankSoFar raw := by
  obtain ⟨spellings, -, rfl⟩ := quoted
  intro blank
  have last : '"'.toUInt8 ∈ lastLine ('"'.toUInt8 :: spellings.flatten ++ ['"'.toUInt8]) := by
    rw [lastLine_concat]
    exact mem_append_right _ (mem_singleton_self _)
  cases blank _ last

theorem Lexer.Calls.congr {l l' : Lexer} {ts : List Token} {stop : Stop} (same : l.next = l'.next)
    (h : l'.Calls ts stop) : l.Calls ts stop := by
  cases h with
  | stop next => exact .stop (same.trans next)
  | token next kind rest => exact .token (same.trans next) kind rest

theorem Adjacent.calls {value text behind : Bytes} {values : List Bytes} (adjacent : Adjacent value values text behind)
    (loc : Location) : ∃ loc', ∀ ts stop, Lexer.Calls ⟨loc', behind⟩ ts stop → ∃ raw more,
      Lexer.Calls ⟨loc, text ++ behind⟩ (⟨.string value, loc, raw⟩ :: more ++ ts) stop ∧
      more.map (·.kind) = values.map .string := by
  induction adjacent generalizing loc with
  | last quoted => exact ⟨_, fun ts stop calls => ⟨_, [], .token (quoted.next loc _) nofun calls, rfl⟩⟩
  | @cons bytes raw gap next text behind values quoted between rest ih =>
    -- Behind the gap the lexer stands where the next literal starts.
    have same : Lexer.next ⟨loc.right raw.length, gap ++ (text ++ behind)⟩ =
        Lexer.next ⟨(loc.right raw.length).after gap, text ++ behind⟩ := by
      obtain ⟨more, first⟩ := rest.first
      obtain ⟨_, skipped⟩ := skip_gap between ((loc.right raw.length).column == 1)
        (fun blank => absurd blank quoted.not_blank) (loc.right raw.length)
      rw [first] at skipped ⊢
      rw [Lexer.next, Lexer.next]
      simp only [skipped, skip_quote]
    obtain ⟨loc', later⟩ := ih ((loc.right raw.length).after gap)
    refine ⟨loc', fun ts stop calls => ?_⟩
    obtain ⟨raw', more, calls, kinds⟩ := later ts stop calls
    rw [append_assoc, append_assoc]
    refine ⟨raw, ⟨.string next, _, raw'⟩ :: more, .token (quoted.next loc _) nofun (calls.congr same), ?_⟩
    rw [map_cons, kinds, map_cons]

theorem value_string (loc : Location) (bytes : Bytes) (s : State) :
    (bytes.length + 1 ≤ 65535 → ∃ result s' label i, value (.string loc bytes) s = .ok result s' ∧ i.opcode = .lea ∧
      s'.code = i :: ⟨.data, .none, [.label label, .symbol .array (bytes ++ [0])]⟩ :: s.code) ∧
    (65535 < bytes.length + 1 → ∃ e s', value (.string loc bytes) s = .error (.write e) s') := by
  have encoded : (∃ code, Instr.encode
      ⟨.data, .none, [.label (.ofNat s.labelCount), .symbol .array (bytes ++ [0])]⟩ = .ok code) ↔
        bytes.length + 1 ≤ 65535 := by
    rw [Instr.encode_iff]
    simp
  constructor
  · intro short
    obtain ⟨code, encodes⟩ := encoded.2 short
    have placed : emit _ _ _ { s with labelCount := s.labelCount + 1 } = .ok () _ :=
      emit_eq_ok.2 ⟨code, encodes, rfl⟩
    obtain ⟨result, s', _, run, -, added, -, -, rfl⟩ := (lowers_compute_typed rfl :
      Lowers _ _ (compute .lea .none (.pointer .char) [.label (.ofNat s.labelCount)]) _) _ rfl rfl
    exact ⟨result, _, _, _, bind_eq_ok.2 ⟨result, s', bind_eq_ok.2 ⟨_, _, freshLabel_eq_ok.2 ⟨rfl, rfl⟩,
      bind_eq_ok.2 ⟨(), _, placed, run⟩⟩, noted_eq_ok.2 ⟨rfl, rfl⟩⟩, rfl, added⟩
  · intro long
    cases fails : Instr.encode ⟨.data, .none, [.label (.ofNat s.labelCount), .symbol .array (bytes ++ [0])]⟩ with
    | ok code => exact absurd (encoded.1 ⟨code, fails⟩) (by omega)
    | error f =>
      exact ⟨_, _, bind_eq_error.2 (.inl (bind_eq_error.2 (.inr ⟨_, _, freshLabel_eq_ok.2 ⟨rfl, rfl⟩,
        bind_eq_error.2 (.inl (emit_of_error fails))⟩)))⟩

/-- A string literal keeps its bytes from the source to the code: in every spelling it is one token, literals next to
each other are one expression, and the code holds the bytes with a zero behind them. -/
theorem string_kept :
    (∀ bytes raw, Quoted bytes raw → ∀ loc rest, Lexer.next ⟨loc, raw ++ rest⟩ =
      (.ok ⟨.string bytes, loc, raw⟩, ⟨loc.right raw.length, rest⟩)) ∧
    (∀ value values text behind, Adjacent value values text behind → ∀ loc, ∃ loc', ∀ ts stop,
      Lexer.Calls ⟨loc', behind⟩ ts stop → Tokens.Whole ⟨ts, stop⟩ → (∀ s, (Tokens.mk ts stop).next.kind ≠ .string s) →
      ∃ tokens, Lexer.Calls ⟨loc, text ++ behind⟩ (tokens ++ ts) stop ∧ ∀ depth, values.length + 1 < depth →
        Grammar.primary depth ⟨tokens ++ ts, stop⟩ = .ok (.string loc (value :: values).flatten, ⟨ts, stop⟩)) ∧
    ∀ loc bytes s,
      (bytes.length + 1 ≤ 65535 → ∃ result s' label i, value (.string loc bytes) s = .ok result s' ∧ i.opcode = .lea ∧
        s'.code = i :: ⟨.data, .none, [.label label, .symbol .array (bytes ++ [0])]⟩ :: s.code) ∧
      (65535 < bytes.length + 1 → ∃ e s', value (.string loc bytes) s = .error (.write e) s') := by
  refine ⟨fun _ _ quoted => quoted.next, fun value values text behind adjacent loc => ?_, value_string⟩
  obtain ⟨loc', later⟩ := adjacent.calls loc
  refine ⟨loc', fun ts stop calls whole stops => ?_⟩
  obtain ⟨raw, more, calls, kinds⟩ := later ts stop calls
  refine ⟨_ :: more, calls, fun depth deep => ?_⟩
  have spells := Grammar.spells_kinds more whole
  rw [kinds] at spells
  exact Grammar.run_primary_strings values spells stops deep

/-- Two literals with a comment between them. -/
theorem string_kept_comment : ∃ tokens loc,
    Lexer.Calls ⟨.start, ascii "\"a\\n\"/*\"*/\"\\x4a\\112\""⟩ tokens (.eof loc) ∧
      Grammar.primary 3 ⟨tokens, .eof loc⟩ = .ok (.string .start (ascii "a\nJJ"), ⟨[], .eof loc⟩) := by
  have first : Quoted (ascii "a\n") (ascii "\"a\\n\"") :=
    ⟨[ascii "a", ascii "\\n"], .cons (.raw (by decide)) (.cons (.simple (by decide)) .nil), rfl⟩
  have second : Quoted (ascii "JJ") (ascii "\"\\x4a\\112\"") := by
    refine ⟨[ascii "\\x4a", ascii "\\112"], .cons (.hex ?_ ?_ ?_) (.cons (.octal ?_ ?_) .nil), rfl⟩ <;> decide +kernel
  have between (before behind : Bytes) : Gap before (ascii "/*" ++ ascii "\"" ++ ascii "*/" ++ []) behind :=
    .cons (.blockComment (by decide)) (.nil ..)
  obtain ⟨loc, later⟩ := string_kept.2.1 _ _ _ [] (.cons first (between ..) (.last second)) .start
  obtain ⟨tokens, calls, reads⟩ := later [] (.eof loc) (.stop rfl) (fun _ => ⟨_, rfl⟩) nofun
  exact ⟨tokens ++ [], loc, calls, reads 3 (by decide)⟩

end Cof
