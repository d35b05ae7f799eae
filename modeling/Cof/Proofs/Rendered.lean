/-
  Writing expressions as tokens, with no more parentheses than the grammar needs.

  Every expression has a level, from the loosest to the tightest:

    0       assignments
    1       `c ? x : y`
    2..11   the binary operators, `||` first
    12      operators in front of their operand, casts, `sizeof`
    13      operators behind their operand, literals, names
-/
import Cof.Program.Translate
import Cof.Token

namespace Cof

/-! ## Marks and levels -/

def BinOp.mark : BinOp → Punct
  | add => .plus | sub => .minus | mul => .star | div => .slash | rem => .percent
  | eq => .eqEq | ne => .notEq | lt => .lt | le => .le | gt => .gt | ge => .ge
  | and => .andAnd | or => .orOr
  | bitAnd => .amp | bitOr => .pipe | bitXor => .caret | shl => .ltLt | shr => .gtGt

def BinOp.level : BinOp → Nat
  | or => 2
  | and => 3
  | bitOr => 4
  | bitXor => 5
  | bitAnd => 6
  | eq | ne => 7
  | lt | le | gt | ge => 8
  | shl | shr => 9
  | add | sub => 10
  | mul | div | rem => 11

def BinOp.assignMark? : BinOp → Option Punct
  | add => some .plusEq
  | sub => some .minusEq
  | mul => some .starEq
  | div => some .slashEq
  | rem => some .percentEq
  | bitAnd => some .ampEq
  | bitOr => some .pipeEq
  | bitXor => some .caretEq
  | shl => some .ltLtEq
  | shr => some .gtGtEq
  | _ => none

/-- The mark of an assignment; where there is none, that of a plain one stands in. -/
def assignMark : Option BinOp → Punct
  | none => .eq
  | some op => op.assignMark?.getD .eq

def UnOp.mark : UnOp → Punct
  | plus => .plus | neg => .minus | bitNot => .tilde | not => .bang | addrOf => .amp | deref => .star

def Step.mark : Step → Punct
  | inc => .plusPlus
  | dec => .minusMinus

def Expr.level : Expr → Nat
  | .assign .. => 0
  | .conditional .. => 1
  | .binary _ op .. => op.level
  | .unary .. | .step _ _ .pre _ | .cast .. | .sizeofType .. | .sizeofExpr .. => 12
  | .int .. | .float .. | .char .. | .string .. | .ident .. => 13
  | .step _ _ .post _ | .call .. | .index .. | .member .. => 13

/-- Whether a token can go on with an expression of some level that stands before it: by an operator
behind it, by a binary operator that is tighter, by a `?` or an assignment where the level is no tighter,
or, since adjacent strings are one, by a string. -/
def TokenKind.continues (level : Nat) : TokenKind → Bool
  | .string _ => true
  | .punct p =>
    match p with
    | .lParen | .lBracket | .dot | .arrow | .plusPlus | .minusMinus => true
    | .star | .slash | .percent => level ≤ 10
    | .plus | .minus => level ≤ 9
    | .ltLt | .gtGt => level ≤ 8
    | .lt | .le | .gt | .ge => level ≤ 7
    | .eqEq | .notEq => level ≤ 6
    | .amp => level ≤ 5
    | .caret => level ≤ 4
    | .pipe => level ≤ 3
    | .andAnd => level ≤ 2
    | .orOr | .question => level ≤ 1
    | .eq | .plusEq | .minusEq | .starEq | .slashEq | .percentEq => level = 0
    | .ampEq | .pipeEq | .caretEq | .ltLtEq | .gtGtEq => level = 0
    | _ => false
  | _ => false

def TokenKind.opens : TokenKind → Bool
  | .punct .rParen | .punct .lBrace | .punct .rBrace | .punct .semicolon | .eof => false
  | .keyword word => word = .sizeof
  | _ => true

theorem TokenKind.continues_mono {k : TokenKind} {m n : Nat} (le : m ≤ n) (h : k.continues m = false) :
    k.continues n = false := by
  cases k with
  | punct p =>
    cases p <;> first
      | exact h
      | exact decide_eq_false fun low => of_decide_eq_false h (by omega)
  | _ => exact h

/-! ## Type names -/

def ArraySize.tokens : ArraySize → List TokenKind
  | .fixed n => [.punct .lBracket, .int n, .punct .rBracket]
  | .unsized => [.punct .lBracket, .punct .rBracket]

namespace CType

def words : CType → List Keyword
  | void => [.void]
  | integral .w8 true => [.char]
  | integral .w8 false => [.unsigned, .char]
  | integral .w16 true => [.short]
  | integral .w16 false => [.unsigned, .short]
  | integral .w32 true => [.int]
  | integral .w32 false => [.unsigned, .int]
  | integral .w64 true => [.long]
  | integral .w64 false => [.unsigned, .long]
  | floating .f32 => [.float]
  | floating .f64 => [.double]
  | _ => []

def starredTokens : CType → List TokenKind
  | pointer target => target.starredTokens ++ [.punct .star]
  | type => type.words.map .keyword

def innermost : CType → CType
  | array element _ => element.innermost
  | type => type

def lengths : CType → List ArraySize
  | array element size => size :: element.lengths
  | _ => []

def tokens (type : CType) : List TokenKind := type.innermost.starredTokens ++ type.lengths.flatMap ArraySize.tokens

def Starred : CType → Prop
  | void | integral .. | floating .. => True
  | pointer target => target.Starred
  | array .. | function .. => False

/-- A type that has a name.  Lengths are literals, which stay below 2⁶³ here. -/
def Nameable (type : CType) : Prop := type.innermost.Starred ∧ ∀ n, .fixed n ∈ type.lengths → n.toNat < 2 ^ 63

end CType

/-! ## Expressions -/

def Expr.place (level : Nat) (e : Expr) (tokens : List TokenKind) : List TokenKind :=
  if e.level < level then .punct .lParen :: (tokens ++ [.punct .rParen]) else tokens

def Expr.placeSizeof (e : Expr) (tokens : List TokenKind) : List TokenKind :=
  match e with
  | .cast .. => .punct .lParen :: (tokens ++ [.punct .rParen])
  | _ => e.place 12 tokens

mutual

def Expr.tokens : Expr → List TokenKind
  | .int _ value => [.int value]
  | .float _ value => [.float value]
  | .char _ value => [.char value]
  | .string _ value => [.string value]
  | .ident _ name => [.ident name]
  | .binary _ op left right =>
    left.place op.level left.tokens ++ .punct op.mark :: right.place (op.level + 1) right.tokens
  | .unary _ op operand => .punct op.mark :: operand.place 12 operand.tokens
  | .step _ step .pre operand => .punct step.mark :: operand.place 12 operand.tokens
  | .step _ step .post operand => operand.place 13 operand.tokens ++ [.punct step.mark]
  | .assign _ target op value =>
    target.place 1 target.tokens ++ .punct (assignMark op) :: value.place 0 value.tokens
  | .call _ callee args =>
    callee.place 13 callee.tokens ++ .punct .lParen :: (argTokens args ++ [.punct .rParen])
  | .index _ base index =>
    base.place 13 base.tokens ++ .punct .lBracket :: (index.place 0 index.tokens ++ [.punct .rBracket])
  | .member _ object arrow name =>
    object.place 13 object.tokens ++ [.punct (if arrow then .arrow else .dot), .ident name]
  | .conditional _ cond yes no =>
    cond.place 2 cond.tokens ++ .punct .question :: (yes.place 0 yes.tokens ++ .punct .colon :: no.place 1 no.tokens)
  | .cast _ type operand =>
    .punct .lParen :: (type.tokens ++ .punct .rParen :: operand.place 12 operand.tokens)
  | .sizeofType _ type => .keyword .sizeof :: .punct .lParen :: (type.tokens ++ [.punct .rParen])
  | .sizeofExpr _ operand => .keyword .sizeof :: operand.placeSizeof operand.tokens

def argTokens : List Expr → List TokenKind
  | [] => []
  | [arg] => arg.place 0 arg.tokens
  | arg :: next :: args => arg.place 0 arg.tokens ++ .punct .comma :: argTokens (next :: args)

end

mutual

def Expr.Writable : Expr → Prop
  | .int .. | .float .. | .char .. | .string .. | .ident .. => True
  | .binary _ _ left right => left.Writable ∧ right.Writable
  | .unary _ _ operand | .step _ _ _ operand => operand.Writable
  | .assign _ target op value => target.Writable ∧ (∀ o ∈ op, o.assignMark?.isSome) ∧ value.Writable
  | .call _ callee args => callee.Writable ∧ AllWritable args
  | .index _ base index => base.Writable ∧ index.Writable
  | .member _ object _ _ => object.Writable
  | .conditional _ cond yes no => cond.Writable ∧ yes.Writable ∧ no.Writable
  | .cast _ type operand => type.Nameable ∧ operand.Writable
  | .sizeofType _ type => type.Nameable
  | .sizeofExpr _ operand => operand.Writable

def AllWritable : List Expr → Prop
  | [] => True
  | arg :: args => arg.Writable ∧ AllWritable args

end

/-- All positions set to the start. -/
abbrev unplaced : Translation CType Signature CType Signature := .moving fun _ => .start

def Expr.unlocated : Expr → Expr := Expr.translate unplaced

def unlocatedAll : List Expr → List Expr := Expr.translateAll unplaced

end Cof
