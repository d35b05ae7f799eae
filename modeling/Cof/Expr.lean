/-
  Expressions.

  Every node carries the position of the token it is named after: an operator for operators, the
  opening bracket for calls, indexing and casts, the literal or the name itself otherwise.  Since no two
  nodes are named after the same token, a position also identifies a node, and facts about nodes (such
  as the type that was found for one) can be kept beside the tree, under positions.

  Parentheses leave no node behind.
-/
import Cof.Binary64
import Cof.CType
import Cof.Location

namespace Cof

/-! ## Operators -/

/-- The operators with two operands. -/
inductive BinOp where
  | add | sub | mul | div | rem
  | eq | ne | lt | le | gt | ge
  | and | or
  | bitAnd | bitOr | bitXor | shl | shr
deriving DecidableEq, Repr

namespace BinOp

def symbol : BinOp → String
  | add => "+" | sub => "-" | mul => "*" | div => "/" | rem => "%"
  | eq => "==" | ne => "!=" | lt => "<" | le => "<=" | gt => ">" | ge => ">="
  | and => "&&" | or => "||"
  | bitAnd => "&" | bitOr => "|" | bitXor => "^" | shl => "<<" | shr => ">>"

def isComparison : BinOp → Bool
  | eq | ne | lt | le | gt | ge => true
  | _ => false

def isLogical : BinOp → Bool
  | and | or => true
  | _ => false

end BinOp

/-- The operators in front of one operand that leave it as it is. -/
inductive UnOp where
  | plus | neg | bitNot | not | addrOf | deref
deriving DecidableEq, Repr

/-- The two steps by one. -/
inductive Step where
  | inc | dec
deriving DecidableEq, Repr

/-- Whether a step stands in front of its operand, and gives the new value, or behind it, and gives
the old one. -/
inductive Fixity where
  | pre | post
deriving DecidableEq, Repr

/-! ## Trees -/

/-- An expression.  `τ` stands for the types it mentions. -/
inductive Expr (τ : Type := CType) where
  | int (loc : Location) (value : UInt64)
  | float (loc : Location) (value : Binary64)
  | char (loc : Location) (value : UInt8)
  | string (loc : Location) (value : Bytes)
  | ident (loc : Location) (name : Name)
  | binary (loc : Location) (op : BinOp) (left right : Expr τ)
  | unary (loc : Location) (op : UnOp) (operand : Expr τ)
  | step (loc : Location) (step : Step) (fixity : Fixity) (operand : Expr τ)
  /-- An assignment; with an operator, the target's value is the left operand. -/
  | assign (loc : Location) (target : Expr τ) (op : Option BinOp) (value : Expr τ)
  | call (loc : Location) (callee : Expr τ) (args : List (Expr τ))
  | index (loc : Location) (base index : Expr τ)
  /-- A member, of an object or, by `->`, of what a pointer points at. -/
  | member (loc : Location) (object : Expr τ) (arrow : Bool) (name : Name)
  | conditional (loc : Location) (cond yes no : Expr τ)
  | cast (loc : Location) (type : τ) (operand : Expr τ)
  | sizeofType (loc : Location) (type : τ)
  | sizeofExpr (loc : Location) (operand : Expr τ)
deriving Repr

namespace Expr

def loc {τ : Type} : Expr τ → Location
  | int loc .. | float loc .. | char loc .. | string loc .. | ident loc .. => loc
  | binary loc .. | unary loc .. | step loc .. | assign loc .. | call loc .. => loc
  | index loc .. | member loc .. | conditional loc .. | cast loc .. => loc
  | sizeofType loc .. | sizeofExpr loc .. => loc

end Expr

end Cof
