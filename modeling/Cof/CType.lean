/-
  The C types.

  A type is a finite tree, compared by its structure.  Sizes are counted in 64 bits and stop at the
  largest number of that width instead of wrapping around, so a huge array is huge and never small.
  `encoding` is total: a function has no storage of its own and is annotated as a code address.

  Equality is decided by hand, one function for types and one for parameter lists, because a function
  type holds a list of types.
-/
import Cof.Encoding

namespace Cof

/-- The widths of integers. -/
inductive IntWidth where
  | w8 | w16 | w32 | w64
deriving DecidableEq, Repr

def IntWidth.bytes : IntWidth → Nat
  | w8 => 1 | w16 => 2 | w32 => 4 | w64 => 8

/-- The widths of floating numbers. -/
inductive FloatWidth where
  | f32 | f64
deriving DecidableEq, Repr

def FloatWidth.bytes : FloatWidth → Nat
  | f32 => 4 | f64 => 8

/-- The length of an array. -/
inductive ArraySize where
  | fixed (count : UInt64)
  /-- No length is given, or one that is not a literal. -/
  | unsized
deriving DecidableEq, Repr

/-- A type. -/
inductive CType where
  | void
  | integral (width : IntWidth) (signed : Bool)
  | floating (width : FloatWidth)
  | pointer (target : CType)
  | array (element : CType) (size : ArraySize)
  | function (result : CType) (params : List CType) (variadic : Bool)
deriving Repr, Inhabited

namespace CType

/-! ## Equality -/

mutual

/-- Types are equal when they have the same shape and equal parts. -/
def decEq : (a b : CType) → Decidable (a = b)
  | void, void => isTrue rfl
  | integral w s, integral w' s' =>
    if h : w = w' ∧ s = s' then isTrue (by rw [h.1, h.2])
    else isFalse fun e => h (by injection e with hw hs; exact ⟨hw, hs⟩)
  | floating w, floating w' =>
    if h : w = w' then isTrue (by rw [h]) else isFalse fun e => h (by injection e)
  | pointer a, pointer b =>
    match decEq a b with
    | isTrue h => isTrue (by rw [h])
    | isFalse h => isFalse fun e => h (by injection e)
  | array a n, array b m =>
    match decEq a b with
    | isFalse h => isFalse fun e => h (by injection e)
    | isTrue h =>
      if hn : n = m then isTrue (by rw [h, hn]) else isFalse fun e => hn (by injection e)
  | function r ps v, function r' ps' v' =>
    match decEq r r', decEqAll ps ps' with
    | isFalse h, _ => isFalse fun e => h (by injection e)
    | _, isFalse h => isFalse fun e => h (by injection e)
    | isTrue hr, isTrue hps =>
      if hv : v = v' then isTrue (by rw [hr, hps, hv]) else isFalse fun e => hv (by injection e)
  | void, integral .. | void, floating .. | void, pointer .. | void, array ..
  | void, function .. => isFalse nofun
  | integral .., void | integral .., floating .. | integral .., pointer ..
  | integral .., array .. | integral .., function .. => isFalse nofun
  | floating .., void | floating .., integral .. | floating .., pointer ..
  | floating .., array .. | floating .., function .. => isFalse nofun
  | pointer .., void | pointer .., integral .. | pointer .., floating ..
  | pointer .., array .. | pointer .., function .. => isFalse nofun
  | array .., void | array .., integral .. | array .., floating .. | array .., pointer ..
  | array .., function .. => isFalse nofun
  | function .., void | function .., integral .. | function .., floating ..
  | function .., pointer .. | function .., array .. => isFalse nofun

def decEqAll : (as bs : List CType) → Decidable (as = bs)
  | [], [] => isTrue rfl
  | [], _ :: _ => isFalse nofun
  | _ :: _, [] => isFalse nofun
  | a :: as, b :: bs =>
    match decEq a b, decEqAll as bs with
    | isFalse h, _ => isFalse fun e => h (by injection e)
    | _, isFalse h => isFalse fun e => h (by injection e)
    | isTrue h, isTrue hs => isTrue (by rw [h, hs])

end

instance : DecidableEq CType := decEq

/-! ## Named types -/

def char : CType := .integral .w8 true
def int : CType := .integral .w32 true
def long : CType := .integral .w64 true
def unsignedLong : CType := .integral .w64 false
def float : CType := .floating .f32
def double : CType := .floating .f64

/-! ## Classes of types -/

def isVoid : CType → Bool
  | void => true
  | _ => false

def isIntegral : CType → Bool
  | integral .. => true
  | _ => false

def isFloating : CType → Bool
  | floating _ => true
  | _ => false

def isArithmetic (t : CType) : Bool := t.isIntegral || t.isFloating

def isPointer : CType → Bool
  | pointer _ => true
  | _ => false

def isArray : CType → Bool
  | array .. => true
  | _ => false

def isFunction : CType → Bool
  | function .. => true
  | _ => false

/-- A type whose values fit in one variable: a number or a pointer. -/
def isScalar (t : CType) : Bool := t.isArithmetic || t.isPointer

def isUnsigned : CType → Bool
  | integral _ signed => !signed
  | pointer _ => true
  | _ => false

/-! ## Parts -/

def pointee? : CType → Option CType
  | pointer target => some target
  | array element _ => some element
  | _ => none

def result? : CType → Option CType
  | function result .. => some result
  | _ => none

/-- The type of a value: an array becomes a pointer to its element type, and a function a pointer to
itself. -/
def decay : CType → CType
  | array element _ => pointer element
  | function result params variadic => pointer (function result params variadic)
  | t => t

/-! ## Sizes -/

def saturatingMul (a b : UInt64) : UInt64 :=
  UInt64.ofNat (min (a.toNat * b.toNat) (2 ^ 64 - 1))

/-- The size in bytes.  `void`, functions and arrays without a length have none. -/
def size : CType → UInt64
  | void => 0
  | integral width _ => UInt64.ofNat width.bytes
  | floating width => UInt64.ofNat width.bytes
  | pointer _ => 8
  | array element (.fixed count) => saturatingMul element.size count
  | array _ .unsized => 0
  | function .. => 0

def clampWord32 (n : UInt64) : UInt32 := UInt32.ofNat (min n.toNat (2 ^ 32 - 1))

def integralTag : IntWidth → Bool → TypeTag
  | .w8, true => .i8
  | .w16, true => .i16
  | .w32, true => .i32
  | .w64, true => .i64
  | .w8, false => .u8
  | .w16, false => .u16
  | .w32, false => .u32
  | .w64, false => .u64

def encoding : CType → Encoding
  | void => .void
  | integral width signed => ⟨integralTag width signed, UInt32.ofNat width.bytes⟩
  | floating .f32 => ⟨.f32, 4⟩
  | floating .f64 => ⟨.f64, 8⟩
  | pointer _ => .ptr
  | function .. => .ptr
  | array element size => ⟨.array, clampWord32 (CType.array element size).size⟩

/-! ## Spelling -/

def integralWord : IntWidth → String
  | .w8 => "char"
  | .w16 => "short"
  | .w32 => "int"
  | .w64 => "long"

mutual

def display : CType → String
  | void => "void"
  | integral width true => integralWord width
  | integral width false => "unsigned " ++ integralWord width
  | floating .f32 => "float"
  | floating .f64 => "double"
  | pointer target => target.display ++ " *"
  | array element (.fixed count) => element.display ++ s!" [{count}]"
  | array element .unsized => element.display ++ " []"
  | function result params variadic =>
    result.display ++ " (" ++ ", ".intercalate (displayAll params ++ if variadic then ["..."] else [])
      ++ ")"

def displayAll : List CType → List String
  | [] => []
  | t :: ts => t.display :: displayAll ts

end

/-! ## Conversions -/

def promote : CType → CType
  | integral .w8 _ => int
  | integral .w16 _ => int
  | t => t

/-- The common type of two numbers.  A floating type wins over an integer and the wider floating type
over the narrower; of two promoted integers the wider wins, and at equal width the unsigned one. -/
def common (a b : CType) : CType :=
  if a.isFloating || b.isFloating then
    if a.isFloating && b.isFloating then
      if a.size ≤ b.size then b else a
    else if a.isFloating then a else b
  else
    let a := a.promote
    let b := b.promote
    if a = b then a
    else if a.size ≠ b.size then (if a.size > b.size then a else b)
    else if a.isUnsigned then a else b

def conditional (a b : CType) : CType :=
  let a := a.decay
  let b := b.decay
  if a.isArithmetic && b.isArithmetic then a.common b
  else if a.isVoid || b.isVoid then void
  else if a.isPointer then a
  else b

/-- The type of an integer literal: the first of `int`, `long` and `unsigned long` that holds it. -/
def ofLiteral (value : UInt64) : CType :=
  if value.toNat < 2 ^ 31 then int
  else if value.toNat < 2 ^ 63 then long
  else unsignedLong

end CType

end Cof
