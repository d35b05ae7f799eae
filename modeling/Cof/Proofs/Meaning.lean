/-
  What expressions mean that have to do with `int` only.

  `IntExpr` singles them out: literals that an `int` holds, names of automatic variables, and the
  operators on numbers, with assignments and steps whose target is such a name.  `eval` evaluates them
  from left to right over a store, and gives the value together with the store that is left behind:

    * `&&` and `||` leave their right operand alone if the left one decides, and of the last two operands
      of `c ? x : y` only one is evaluated;
    * a compound assignment reads its target before its right side is evaluated;
    * a step behind its operand gives the old value.
-/
import Cof.Expr
import Cof.Proofs.Machine
import Cof.Scopes

namespace Cof

/-! ## Operators -/

def truth (b : Bool) : Int32 := if b then 1 else 0

namespace Alu

def apply (alu : Alu) (op : BinOp) (a b : Int32) : Int32 :=
  match op with
  | .add => alu.add a b
  | .sub => alu.sub a b
  | .mul => alu.mul a b
  | .div => alu.div a b
  | .rem => alu.rem a b
  | .bitAnd => alu.and a b
  | .bitOr => alu.or a b
  | .bitXor => alu.xor a b
  | .shl => alu.shl a b
  | .shr => alu.shr a b
  | .eq => truth (a = b)
  | .ne => truth (a ≠ b)
  | .lt => truth (a < b)
  | .le => truth (a ≤ b)
  | .gt => truth (a > b)
  | .ge => truth (a ≥ b)
  | .and => truth (a ≠ 0 ∧ b ≠ 0)
  | .or => truth (a ≠ 0 ∨ b ≠ 0)

def applyUnary? (alu : Alu) (op : UnOp) (a : Int32) : Option Int32 :=
  match op with
  | .plus => some a
  | .neg => some (alu.neg a)
  | .bitNot => some (alu.not a)
  | .not => some (truth (a = 0))
  | .addrOf | .deref => none

def step (alu : Alu) (s : Step) (a : Int32) : Int32 :=
  match s with
  | .inc => alu.add a 1
  | .dec => alu.sub a 1

end Alu

/-- The result of a logical operator, if the left operand decides it. -/
def BinOp.decided? (op : BinOp) (a : Int32) : Option Int32 :=
  match op with
  | .and => if a = 0 then some 0 else none
  | .or => if a = 0 then none else some 1
  | _ => none

/-! ## Expressions -/

def Scopes.intSlot? (scopes : Scopes) (name : Name) : Option UInt32 :=
  match scopes.lookup name with
  | some ⟨_, type, _, .slot id⟩ => if type = .int then some id else none
  | _ => none

/-- The variable that an expression names as the target of an assignment. -/
def Expr.intTarget? (scopes : Scopes) : Expr → Option UInt32
  | .ident _ name => scopes.intSlot? name
  | _ => none

/-- Expressions over automatic `int`s. -/
inductive IntExpr (scopes : Scopes) : Expr → Prop
  | int {loc n} (small : n.toNat < 2 ^ 31) : IntExpr scopes (.int loc n)
  | ident {loc name id} (bound : scopes.intSlot? name = some id) : IntExpr scopes (.ident loc name)
  | unary {loc op operand} (numeric : op ≠ .addrOf ∧ op ≠ .deref) (inner : IntExpr scopes operand) :
    IntExpr scopes (.unary loc op operand)
  | binary {loc op left right} (first : IntExpr scopes left) (second : IntExpr scopes right) :
    IntExpr scopes (.binary loc op left right)
  | step {loc s fixity target id} (bound : target.intTarget? scopes = some id) :
    IntExpr scopes (.step loc s fixity target)
  | assign {loc target op source id} (bound : target.intTarget? scopes = some id)
    (numeric : ∀ o ∈ op, o.isComparison = false ∧ o.isLogical = false) (inner : IntExpr scopes source) :
    IntExpr scopes (.assign loc target op source)
  | conditional {loc cond yes no} (first : IntExpr scopes cond) (second : IntExpr scopes yes)
    (third : IntExpr scopes no) : IntExpr scopes (.conditional loc cond yes no)

/-- The value of an expression and the store after it.  Only expressions over automatic `int`s have
one. -/
def eval (alu : Alu) (scopes : Scopes) : Expr → Store → Option (Int32 × Store)
  | .int _ n, σ => some (.ofNat n.toNat, σ)
  | .ident _ name, σ => do
    let id ← scopes.intSlot? name
    return (σ id, σ)
  | .unary _ op operand, σ => do
    let (a, σ) ← eval alu scopes operand σ
    let n ← alu.applyUnary? op a
    return (n, σ)
  | .binary _ op left right, σ => do
    let (a, σ) ← eval alu scopes left σ
    match op.decided? a with
    | some n => return (n, σ)
    | none =>
      let (b, σ) ← eval alu scopes right σ
      return (alu.apply op a b, σ)
  | .step _ s fixity target, σ => do
    let id ← target.intTarget? scopes
    let old := σ id
    let new := alu.step s old
    return (match fixity with | .pre => new | .post => old, Function.update σ id new)
  | .assign _ target op source, σ => do
    let id ← target.intTarget? scopes
    let old := σ id
    let (b, σ) ← eval alu scopes source σ
    let n := match op with | none => b | some op => alu.apply op old b
    return (n, Function.update σ id n)
  | .conditional _ cond yes no, σ => do
    let (c, σ) ← eval alu scopes cond σ
    if c ≠ 0 then eval alu scopes yes σ else eval alu scopes no σ
  | _, _ => none

section Lemmas

variable {scopes : Scopes}

variable {id : UInt32}

theorem Scopes.lookup_of_intSlot? {name : Name} (h : scopes.intSlot? name = some id) :
    ∃ symbol, scopes.lookup name = some symbol ∧ symbol.type = .int ∧ symbol.storage = .slot id := by
  unfold Scopes.intSlot? at h
  split at h
  · rename_i found
    obtain ⟨int, same⟩ := Option.ite_none_right_eq_some.1 h
    obtain rfl := Option.some.inj same
    exact ⟨_, found, int, rfl⟩
  · cases h

theorem Expr.eq_ident_of_intTarget? {e : Expr} (h : e.intTarget? scopes = some id) :
    ∃ loc name, e = .ident loc name ∧ scopes.intSlot? name = some id := by
  cases e with
  | ident loc name => exact ⟨loc, name, rfl, h⟩
  | _ => cases h

end Lemmas

end Cof
