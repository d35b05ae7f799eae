/-
  Reading expressions.

  Binary operators are read by precedence climbing: `binary least` takes every operator that binds at
  least as tightly as `least`, and the right operand of an operator only takes tighter ones, so equal
  operators group to the left.  Assignment and `? :` group to the right.

  After `(`, the next token decides between a cast and a parenthesised expression: a word that can start
  a type name means a cast.

  Expressions and type names hold each other (casts, array lengths), so they are read by functions that
  call each other.  What bounds them is `depth`: each call passes on one less than it was given.  Between
  two tokens only a few calls are nested, so a depth of several times the number of tokens is never used
  up.
-/
import Cof.Grammar.Specifiers

namespace Cof.Grammar

/-! ## Operators -/

/-- The binary operator written by a token, and how tightly it binds. -/
def binaryOp? : TokenKind → Option (BinOp × Nat)
  | .punct .orOr => some (.or, 1)
  | .punct .andAnd => some (.and, 2)
  | .punct .pipe => some (.bitOr, 3)
  | .punct .caret => some (.bitXor, 4)
  | .punct .amp => some (.bitAnd, 5)
  | .punct .eqEq => some (.eq, 6)
  | .punct .notEq => some (.ne, 6)
  | .punct .lt => some (.lt, 7)
  | .punct .le => some (.le, 7)
  | .punct .gt => some (.gt, 7)
  | .punct .ge => some (.ge, 7)
  | .punct .ltLt => some (.shl, 8)
  | .punct .gtGt => some (.shr, 8)
  | .punct .plus => some (.add, 9)
  | .punct .minus => some (.sub, 9)
  | .punct .star => some (.mul, 10)
  | .punct .slash => some (.div, 10)
  | .punct .percent => some (.rem, 10)
  | _ => none

def loosest : Nat := 1

/-- The assignment written by a token: plain, or by way of an operator. -/
def assignOp? : TokenKind → Option (Option BinOp)
  | .punct .eq => some none
  | .punct .plusEq => some (some .add)
  | .punct .minusEq => some (some .sub)
  | .punct .starEq => some (some .mul)
  | .punct .slashEq => some (some .div)
  | .punct .percentEq => some (some .rem)
  | .punct .ampEq => some (some .bitAnd)
  | .punct .pipeEq => some (some .bitOr)
  | .punct .caretEq => some (some .bitXor)
  | .punct .ltLtEq => some (some .shl)
  | .punct .gtGtEq => some (some .shr)
  | _ => none

def step? : TokenKind → Option Step
  | .punct .plusPlus => some .inc
  | .punct .minusMinus => some .dec
  | _ => none

def frontOp? {τ : Type} : TokenKind → Option (Location → Expr τ → Expr τ)
  | .punct .plus => some fun loc e => .unary loc .plus e
  | .punct .minus => some fun loc e => .unary loc .neg e
  | .punct .tilde => some fun loc e => .unary loc .bitNot e
  | .punct .bang => some fun loc e => .unary loc .not e
  | .punct .amp => some fun loc e => .unary loc .addrOf e
  | .punct .star => some fun loc e => .unary loc .deref e
  | .punct .plusPlus => some fun loc e => .step loc .inc .pre e
  | .punct .minusMinus => some fun loc e => .step loc .dec .pre e
  | _ => none

/-! ## Parts that hold no expressions -/

variable {S τ φ : Type} [Store S τ φ]

/-- Read adjacent string literals, onto the parts already read (newest first), as one string. -/
def stringParts : Nat → List Bytes → ReaderOf S Bytes
  | 0, _ => tooDeep
  | depth + 1, parts => do
    match ← peekKind with
    | .string part =>
      let _ ← advance
      stringParts depth (part :: parts)
    | _ => return parts.reverse.flatten

def passing (e : Expr τ) : ReaderOf S (Expr τ) := do
  let _ ← advance
  return e

def primary (depth : Nat) : ReaderOf S (Expr τ) := do
  let t ← peek
  match t.kind with
  | .int value => passing (.int t.loc value)
  | .float value => passing (.float t.loc value)
  | .char value => passing (.char t.loc value)
  | .ident name => passing (.ident t.loc name)
  | .string _ => return .string t.loc (← stringParts depth [])
  | _ => failExpected .expression

def stars : Nat → τ → ReaderOf S τ
  | 0, _ => tooDeep
  | depth + 1, type => do
    if ← accept (.punct .star) then stars depth (← Store.make (.pointer type)) else return type

/-- The length that an expression gives to an array.  Only literals give one. -/
def lengthOf (e : Expr τ) : ReaderOf S ArraySize :=
  match e with
  | .int loc value => if value.toNat < 2 ^ 63 then return .fixed value else failAt .arrayTooLarge loc
  | .char _ value => return .fixed value.toUInt64
  | _ => return .unsized

/-- Make the type of an array with these lengths; the first is the outermost. -/
def makeArray (element : τ) : List ArraySize → ReaderOf S τ
  | [] => return element
  | length :: lengths => do Store.make (.array (← makeArray element lengths) length)

def arrayOf (element : CType) (lengths : List ArraySize) : CType :=
  lengths.foldr (fun length type => .array type length) element

theorem makeArray_eq (element : CType) (lengths : List ArraySize) :
    makeArray element lengths = (pure (arrayOf element lengths) : Reader CType) := by
  induction lengths with
  | nil => rfl
  | cons length lengths ih =>
    rw [makeArray, ih, pure_bind]
    rfl

/-! ## Expressions -/

mutual

def expression : Nat → ReaderOf S (Expr τ)
  | 0 => tooDeep
  | depth + 1 => do
    let target ← conditional depth
    match assignOp? (← peekKind) with
    | some op =>
      let loc := (← advance).loc
      return .assign loc target op (← expression depth)
    | none => return target

def conditional : Nat → ReaderOf S (Expr τ)
  | 0 => tooDeep
  | depth + 1 => do
    let cond ← binary depth loosest
    if ← comes (.punct .question) then
      let loc := (← advance).loc
      let yes ← expression depth
      expect .colon "in conditional expression"
      return .conditional loc cond yes (← conditional depth)
    else return cond

/-- Read operands joined by operators that bind at least this tightly. -/
def binary : Nat → Nat → ReaderOf S (Expr τ)
  | 0, _ => tooDeep
  | depth + 1, least => do
    let left ← unary depth
    binaryRest depth least left

def binaryRest : Nat → Nat → Expr τ → ReaderOf S (Expr τ)
  | 0, _, _ => tooDeep
  | depth + 1, least, left => do
    match binaryOp? (← peekKind) with
    | some (op, strength) =>
      if strength < least then return left
      else
        let loc := (← advance).loc
        let right ← binary depth (strength + 1)
        binaryRest depth least (.binary loc op left right)
    | none => return left

/-- Read one operand, with the operators in front of it and behind it. -/
def unary : Nat → ReaderOf S (Expr τ)
  | 0 => tooDeep
  | depth + 1 => do
    let t ← peek
    match frontOp? t.kind with
    | some make =>
      let _ ← advance
      return make t.loc (← unary depth)
    | none =>
      if ← accept (.keyword .sizeof) then sizeof depth t.loc
      else if ← accept (.punct .lParen) then
        if ← atTypeName then
          let type ← typeName depth
          expect .rParen "after cast type"
          return .cast t.loc type (← unary depth)
        else
          let inner ← expression depth
          expect .rParen "after expression"
          suffixes depth inner
      else
        let e ← primary depth
        suffixes depth e

def sizeof : Nat → Location → ReaderOf S (Expr τ)
  | 0, _ => tooDeep
  | depth + 1, loc => do
    if ← accept (.punct .lParen) then
      if ← atTypeName then
        let type ← typeName depth
        expect .rParen "after sizeof type"
        return .sizeofType loc type
      else
        let inner ← expression depth
        expect .rParen "after sizeof expression"
        return .sizeofExpr loc (← suffixes depth inner)
    else return .sizeofExpr loc (← unary depth)

def suffixes : Nat → Expr τ → ReaderOf S (Expr τ)
  | 0, _ => tooDeep
  | depth + 1, e => do
    let t ← peek
    match t.kind with
    | .punct .lParen =>
      let _ ← advance
      let args ← arguments depth
      suffixes depth (.call t.loc e args)
    | .punct .lBracket =>
      let _ ← advance
      let i ← expression depth
      expect .rBracket "after array index"
      suffixes depth (.index t.loc e i)
    | .punct .dot =>
      let _ ← advance
      let name ← expectName "after member access"
      suffixes depth (.member t.loc e false name)
    | .punct .arrow =>
      let _ ← advance
      let name ← expectName "after member access"
      suffixes depth (.member t.loc e true name)
    | kind =>
      match step? kind with
      | some s =>
        let _ ← advance
        suffixes depth (.step t.loc s .post e)
      | none => return e

def arguments : Nat → ReaderOf S (List (Expr τ))
  | 0 => tooDeep
  | depth + 1 => do
    if ← accept (.punct .rParen) then return []
    else argumentList depth []

/-- Read at least one more argument, onto those already read (newest first). -/
def argumentList : Nat → List (Expr τ) → ReaderOf S (List (Expr τ))
  | 0, _ => tooDeep
  | depth + 1, done => do
    let arg ← expression depth
    if ← accept (.punct .comma) then argumentList depth (arg :: done)
    else
      expect .rParen "after arguments"
      return (arg :: done).reverse

def typeName : Nat → ReaderOf S τ
  | 0 => tooDeep
  | depth + 1 => do
    let (_, base) ← specifiers false depth
    let type ← stars depth base
    let lengths ← arrayLengths depth []
    makeArray type lengths

/-- Read the lengths in brackets behind a declared name, onto those already read (newest first). -/
def arrayLengths : Nat → List ArraySize → ReaderOf S (List ArraySize)
  | 0, _ => tooDeep
  | depth + 1, done => do
    if ← accept (.punct .lBracket) then
      if ← accept (.punct .rBracket) then arrayLengths depth (.unsized :: done)
      else
        let e ← conditional depth
        let length ← lengthOf e
        expect .rBracket "after array size"
        arrayLengths depth (length :: done)
    else return done.reverse

end

end Cof.Grammar
