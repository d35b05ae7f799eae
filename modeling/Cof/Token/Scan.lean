/-
  Reading one token.

  `scan` reads the token that some text starts with.  It does not know where the text stands in the
  source: it answers with the kind of the token and the number of bytes it spans, or with a `Misread`,
  the fault together with two distances from the start of the token: where the fault is to be reported
  and how far reading had come.  Positions are put in by the caller, so that what is a token does not
  depend on where it stands.

  No token spans a line end.  Literals that meet one are unterminated and stop in front of it.
-/
import Cof.Digits
import Cof.Token

namespace Cof

/-- A failed reading. -/
structure Misread where
  fault : LexFault
  /-- Bytes from the start of the token to the place that is reported. -/
  offset : Nat
  /-- Bytes from the start of the token to where reading stopped. -/
  stop : Nat
deriving DecidableEq, Repr

namespace Scan

/-! ## Escapes -/

def simpleEscape? (b : UInt8) : Option UInt8 :=
  if b = '\''.toUInt8 ∨ b = '"'.toUInt8 ∨ b = '?'.toUInt8 ∨ b = '\\'.toUInt8 then some b
  else if b = 'a'.toUInt8 then some 0x07
  else if b = 'b'.toUInt8 then some 0x08
  else if b = 'f'.toUInt8 then some 0x0c
  else if b = 'n'.toUInt8 then some 0x0a
  else if b = 'r'.toUInt8 then some 0x0d
  else if b = 't'.toUInt8 then some 0x09
  else if b = 'v'.toUInt8 then some 0x0b
  else none

def isOctalDigit (b : UInt8) : Bool := '0'.toUInt8 ≤ b && b ≤ '7'.toUInt8

/-- Read the escape after a backslash: its value and how many bytes it takes.  `start` is the distance
from the start of the token to the byte after the backslash. -/
def escape (literal : QuotedLiteral) (start : Nat) (text : Bytes) : Except Misread (UInt8 × Nat) :=
  match text with
  | [] => .error ⟨.unterminated literal, 0, start⟩
  | b :: rest =>
    if b = 'x'.toUInt8 then
      let digits := (rest.take 2).takeWhile isHexDigit
      if digits.isEmpty then .error ⟨.hexEscapeWithoutDigits, start, start + 1⟩
      else .ok (UInt8.ofNat (numeral 16 digits), 1 + digits.length)
    else if isOctalDigit b then
      let digits := (text.take 3).takeWhile isOctalDigit
      let value := numeral 8 digits
      if value < 256 then .ok (UInt8.ofNat value, digits.length)
      else .error ⟨.octalEscapeTooLarge, start, start + digits.length⟩
    else
      match simpleEscape? b with
      | some value => .ok (value, 1)
      | none =>
        if b = '\n'.toUInt8 then .error ⟨.unterminated literal, 0, start⟩
        else .error ⟨.invalidEscape b, start, start⟩

/-! ## Quoted literals -/

/-- The rest of a string literal: its value and the length of the whole token.  `done` bytes of the
token have been read, `value` holds the bytes of the string so far (newest first), and the next `skip`
bytes belong to an escape that is already decoded. -/
def stringBody (done : Nat) (value : Bytes) : Nat → Bytes → Except Misread (Bytes × Nat)
  | _, [] => .error ⟨.unterminated .string, 0, done⟩
  | skip + 1, _ :: text => stringBody (done + 1) value skip text
  | 0, b :: text =>
    if b = '\n'.toUInt8 then .error ⟨.unterminated .string, 0, done⟩
    else if b = '"'.toUInt8 then .ok (value.reverse, done + 1)
    else if b = '\\'.toUInt8 then
      match escape .string (done + 1) text with
      | .ok (decoded, length) => stringBody (done + 1) (decoded :: value) length text
      | .error e => .error e
    else stringBody (done + 1) (b :: value) 0 text

def closeCharacter (value : UInt8) (done : Nat) (text : Bytes) : Except Misread (TokenKind × Nat) :=
  match text with
  | [] => .error ⟨.unterminated .character, 0, done⟩
  | b :: _ =>
    if b = '\''.toUInt8 then .ok (.char value, done + 1)
    else if b = '\n'.toUInt8 then .error ⟨.unterminated .character, 0, done⟩
    else .error ⟨.severalCharacters, 0, done⟩

def character (text : Bytes) : Except Misread (TokenKind × Nat) :=
  match text with
  | [] => .error ⟨.unterminated .character, 0, 1⟩
  | b :: rest =>
    if b = '\n'.toUInt8 then .error ⟨.unterminated .character, 0, 1⟩
    else if b = '\''.toUInt8 then .error ⟨.emptyCharacter, 0, 1⟩
    else if b = '\\'.toUInt8 then
      match escape .character 2 rest with
      | .ok (value, length) => closeCharacter value (2 + length) (rest.drop length)
      | .error e => .error e
    else closeCharacter b 2 rest

/-! ## Numbers -/

/-- Finish a number of `done` bytes, which no letter, digit or underscore may follow. -/
def endNumber (kind : TokenKind) (done : Nat) (text : Bytes) : Except Misread (TokenKind × Nat) :=
  match text with
  | [] => .ok (kind, done)
  | b :: _ => if isWordByte b then .error ⟨.suffix b, 0, done⟩ else .ok (kind, done)

def isIntegerSuffix (b : UInt8) : Bool :=
  b == 'u'.toUInt8 || b == 'U'.toUInt8 || b == 'l'.toUInt8 || b == 'L'.toUInt8

def isFloatSuffix (b : UInt8) : Bool :=
  b == 'f'.toUInt8 || b == 'F'.toUInt8 || b == 'l'.toUInt8 || b == 'L'.toUInt8

/-- Finish an integer of `done` bytes: its value must fit in 64 bits, and up to three letters of a
suffix may follow. -/
def endInteger (value done : Nat) (text : Bytes) : Except Misread (TokenKind × Nat) :=
  if value < 2 ^ 64 then
    let letters := ((text.take 3).takeWhile isIntegerSuffix).length
    endNumber (.int (UInt64.ofNat value)) (done + letters) (text.drop letters)
  else .error ⟨.integerTooLarge, 0, done⟩

def hexInteger (text : Bytes) : Except Misread (TokenKind × Nat) :=
  let digits := text.takeWhile isHexDigit
  let length := digits.length
  if digits.isEmpty then .error ⟨.hexLiteralWithoutDigits, 0, 2⟩
  else endInteger (numeral 16 digits) (2 + length) (text.drop length)

/-- A decimal integer, or an octal one when it starts with a zero that more digits follow. -/
def plainInteger (digits text : Bytes) : Except Misread (TokenKind × Nat) :=
  let length := digits.length
  match digits with
  | zero :: more =>
    if zero = '0'.toUInt8 ∧ !more.isEmpty then
      match digits.find? (fun d => !isOctalDigit d) with
      | some bad => .error ⟨.octalDigit bad, 0, length⟩
      | none => endInteger (numeral 8 more) length text
    else endInteger (numeral 10 digits) length text
  | [] => endInteger 0 length text

/-- Finish a floating number of `done` bytes, with at most one letter of a suffix. -/
def endFloat (value : Binary64) (done : Nat) (text : Bytes) : Except Misread (TokenKind × Nat) :=
  let letters := ((text.take 1).takeWhile isFloatSuffix).length
  endNumber (.float value) (done + letters) (text.drop letters)

/-- The fraction at the start of some text: the digits after a point, which must be there. -/
def fraction? (text : Bytes) : Option Bytes :=
  match text with
  | point :: rest =>
    let digits := rest.takeWhile isDigit
    if point = '.'.toUInt8 ∧ !digits.isEmpty then some digits else none
  | [] => none

def startsExponent (text : Bytes) : Bool :=
  match text with
  | b :: _ => b == 'e'.toUInt8 || b == 'E'.toUInt8
  | [] => false

def exponentLimit : Nat := 65535

/-- The size of an exponent.  Past the limit, which is far beyond the format, digits are passed over, so
an exponent of any length is a small number. -/
def exponentSize (digits : Bytes) : Nat :=
  digits.foldl
    (fun size d => if size ≤ exponentLimit then size * 10 + digitValue d else size) 0

/-- The last digit counts in the first of these and is passed over in the second. -/
example : exponentSize (ascii "655359") = 655359 ∧ exponentSize (ascii "655361") = 65536 := by
  decide

/-- The sign in front of an exponent: whether it is a minus, and how many bytes it takes. -/
def exponentSign (text : Bytes) : Bool × Nat :=
  match text with
  | b :: _ =>
    if b = '-'.toUInt8 then (true, 1) else if b = '+'.toUInt8 then (false, 1) else (false, 0)
  | [] => (false, 0)

/-- A floating number from `done` bytes with an exponent ahead: `digits` has `places` decimal places. -/
def exponent (digits places done : Nat) (text : Bytes) : Except Misread (TokenKind × Nat) :=
  let rest := text.drop 1
  let (negative, signs) := exponentSign rest
  let power := (rest.drop signs).takeWhile isDigit
  let done := done + 1 + signs
  if power.isEmpty then .error ⟨.exponentWithoutDigits, 0, done⟩
  else
    let size : Int := exponentSize power
    let value := Binary64.ofDecimal digits ((if negative then -size else size) - places)
    endFloat value (done + power.length) (rest.drop (signs + power.length))

/-- A number in decimal digits: an integer unless a fraction or an exponent follows them. -/
def decimalNumber (text : Bytes) : Except Misread (TokenKind × Nat) :=
  let whole := text.takeWhile isDigit
  let rest := text.drop whole.length
  match fraction? rest with
  | some places =>
    let digits := numeral 10 (whole ++ places)
    let done := whole.length + 1 + places.length
    let rest := rest.drop (1 + places.length)
    if startsExponent rest then exponent digits places.length done rest
    else endFloat (.ofDecimal digits (-(places.length : Int))) done rest
  | none =>
    if startsExponent rest then exponent (numeral 10 whole) 0 whole.length rest
    else plainInteger whole rest

def number (text : Bytes) : Except Misread (TokenKind × Nat) :=
  match text with
  | zero :: x :: rest =>
    if zero = '0'.toUInt8 ∧ (x = 'x'.toUInt8 ∨ x = 'X'.toUInt8) then hexInteger rest
    else decimalNumber text
  | _ => decimalNumber text

/-! ## Words and tokens -/

def word (text : Bytes) : TokenKind × Nat :=
  let name := text.takeWhile isWordByte
  match Keyword.ofBytes? name with
  | some k => (.keyword k, name.length)
  | none => (.ident name, name.length)

/-- Whether a number starts here: a digit, or a point and a digit. -/
def startsNumber (text : Bytes) : Bool :=
  match text with
  | b :: rest => isDigit b || (fraction? (b :: rest.take 1)).isSome
  | [] => false

/-- The token that some text starts with, where the text is not empty and starts with no blank: its
kind and its length. -/
def token (first : UInt8) (rest : Bytes) : Except Misread (TokenKind × Nat) :=
  let text := first :: rest
  if first = '"'.toUInt8 then
    match stringBody 1 [] 0 rest with
    | .ok (value, length) => .ok (.string value, length)
    | .error e => .error e
  else if first = '\''.toUInt8 then character rest
  else if startsNumber text then number text
  else if isWordStart first then .ok (word text)
  else
    match Punct.ofText? text with
    | some p => .ok (.punct p, p.bytes.length)
    | none => .error ⟨.unexpected first, 0, 0⟩

end Scan

end Cof
