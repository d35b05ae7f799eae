/-
  What statements mean that have to do with `int` only.

  A statement changes the store and comes to an end in one of four ways: it is through, or a `break`, a
  `continue` or a `return` has been met.  `Exec` relates a statement and a store to each outcome and store
  that it can end with, so a statement that goes on forever is related to nothing.
-/
import Cof.Program
import Cof.Proofs.Meaning

namespace Cof

/-! ## Names -/

def Scopes.slotAt (t : Scopes) (number : Nat) : UInt32 :=
  match t.log.reverse[number]? with
  | some ⟨_, _, _, _, .slot id⟩ => id
  | _ => 0

def Scopes.declare (t : Scopes) (name : Name) (id : UInt32) : Scopes := (t.add name .int (.slot id)).2

section After

variable (slots : Nat → UInt32)

def Declaration.after (t : Scopes) (d : Declaration) : Scopes := t.declare d.name (slots t.log.length)

def ForInit.after (t : Scopes) : ForInit → Scopes
  | .expr .. => t
  | .decls _ ds => ds.foldl (Declaration.after slots) t

def afterInit (t : Scopes) (init : Option ForInit) : Scopes := init.elim t (ForInit.after slots t)

mutual

def Stmt.after (t : Scopes) : Stmt → Scopes
  | .block _ body => (afterAll t.enter body).exit
  | .ifThen _ _ yes => yes.after t
  | .ifElse _ _ yes no => no.after (yes.after t)
  | .whileLoop _ _ body | .doWhile _ body _ => body.after t
  | .forLoop _ init _ _ body => (body.after (afterInit slots t.enter init)).exit
  | .decls _ ds => ds.foldl (Declaration.after slots) t
  | .expr .. | .ret .. | .brk _ | .cont _ | .empty _ => t

def Stmt.afterAll (t : Scopes) : List Stmt → Scopes
  | [] => t
  | s :: rest => afterAll (s.after t) rest

end

end After

/-! ## Outcomes and loops -/

/-- How a statement ends. -/
inductive Outcome where
  | normal
  | broke
  | continued
  | returned (value : Option Int32)
deriving DecidableEq, Repr

/-- The outcome of a loop whose body ends like this, unless the loop goes on. -/
def Outcome.ofBody? : Outcome → Option Outcome
  | normal | continued => none
  | broke => some normal
  | returned value => some (returned value)

/-- Rounds of a loop, each of which gives the outcome of the loop or asks for another round. -/
inductive Rounds (round : Store → Option Outcome → Store → Prop) : Store → Outcome → Store → Prop
  | last {σ o σ'} (one : round σ (some o) σ') : Rounds round σ o σ'
  | more {σ σ₁ o σ'} (one : round σ none σ₁) (rest : Rounds round σ₁ o σ') : Rounds round σ o σ'

def testFirst (test : Store → Option (Bool × Store)) (body : Store → Outcome → Store → Prop)
    (step : Store → Option Store) (σ : Store) (r : Option Outcome) (σ' : Store) : Prop :=
  test σ = some (false, σ') ∧ r = some .normal ∨
  ∃ σ₁ o σ₂, test σ = some (true, σ₁) ∧ body σ₁ o σ₂ ∧ r = o.ofBody? ∧ if r.isSome then σ' = σ₂ else step σ₂ = some σ'

def testLast (body : Store → Outcome → Store → Prop) (test : Store → Option (Bool × Store)) (σ : Store)
    (r : Option Outcome) (σ' : Store) : Prop :=
  ∃ o σ₁, body σ o σ₁ ∧ match o.ofBody? with
    | some o' => r = some o' ∧ σ' = σ₁
    | none => ∃ again, test σ₁ = some (again, σ') ∧ r = if again then none else some .normal

/-! ## Statements -/

section Exec

variable (alu : Alu) (slots : Nat → UInt32)

def evalTest (t : Scopes) : Option Expr → Store → Option (Bool × Store)
  | none, σ => some (true, σ)
  | some e, σ => (eval alu t e σ).map fun (a, σ') => (a ≠ 0, σ')

def evalEffect (t : Scopes) : Option Expr → Store → Option Store
  | none, σ => some σ
  | some e, σ => (eval alu t e σ).map (·.2)

def Declaration.exec (t : Scopes) (d : Declaration) (σ : Store) : Option Store :=
  match d with
  | .var ⟨_, _, some init, _, _⟩ =>
    (eval alu (d.after slots t) init σ).map fun (a, σ') =>
      Function.update σ' (slots t.log.length) a
  | _ => none

def execDeclarations (t : Scopes) : List Declaration → Store → Option Store
  | [], σ => some σ
  | d :: ds, σ => (d.exec alu slots t σ).bind (execDeclarations (d.after slots t) ds)

def execInit (t : Scopes) : Option ForInit → Store → Option Store
  | none => some
  | some (.expr _ e) => evalEffect alu t (some e)
  | some (.decls _ ds) => execDeclarations alu slots t ds

mutual

/-- From a store, a statement comes to an end with an outcome and another store. -/
def Exec (t : Scopes) : Stmt → Store → Outcome → Store → Prop
  | .expr _ e, σ, o, σ' => evalEffect alu t (some e) σ = some σ' ∧ o = .normal
  | .block _ body, σ, o, σ' => ExecAll t.enter body σ o σ'
  | .ifThen _ cond yes, σ, o, σ' => ∃ holds σ₁, evalTest alu t (some cond) σ = some (holds, σ₁) ∧
      if holds then Exec t yes σ₁ o σ' else o = .normal ∧ σ' = σ₁
  | .ifElse _ cond yes no, σ, o, σ' => ∃ holds σ₁, evalTest alu t (some cond) σ = some (holds, σ₁) ∧
      if holds then Exec t yes σ₁ o σ' else Exec (yes.after slots t) no σ₁ o σ'
  | .whileLoop _ cond body, σ, o, σ' =>
      Rounds (testFirst (evalTest alu t (some cond)) (Exec t body) some) σ o σ'
  | .doWhile _ body cond, σ, o, σ' =>
      Rounds (testLast (Exec t body) (evalTest alu (body.after slots t) (some cond))) σ o σ'
  | .forLoop _ init cond step body, σ, o, σ' =>
      ∃ σ₁, execInit alu slots t.enter init σ = some σ₁ ∧
        Rounds (testFirst (evalTest alu (afterInit slots t.enter init) cond) (Exec (afterInit slots t.enter init) body)
          (evalEffect alu (body.after slots (afterInit slots t.enter init)) step)) σ₁ o σ'
  | .ret _ none, σ, o, σ' => o = .returned none ∧ σ' = σ
  | .ret _ (some e), σ, o, σ' => ∃ a, eval alu t e σ = some (a, σ') ∧ o = .returned (some a)
  | .decls _ ds, σ, o, σ' => execDeclarations alu slots t ds σ = some σ' ∧ o = .normal
  | .brk _, σ, o, σ' => o = .broke ∧ σ' = σ
  | .cont _, σ, o, σ' => o = .continued ∧ σ' = σ
  | .empty _, σ, o, σ' => o = .normal ∧ σ' = σ

/-- Statements in order, up to the first that does not get through. -/
def ExecAll (t : Scopes) : List Stmt → Store → Outcome → Store → Prop
  | [], σ, o, σ' => o = .normal ∧ σ' = σ
  | s :: rest, σ, o, σ' => ∃ o₁ σ₁, Exec t s σ o₁ σ₁ ∧
      if o₁ = .normal then ExecAll (s.after slots t) rest σ₁ o σ' else o = o₁ ∧ σ' = σ₁

end

end Exec

/-! ## Statements over `int` -/

section IntStmt

variable (slots : Nat → UInt32) (result : Option CType)

/-- A declaration of an automatic `int` with a value, of a name that is new in its scope. -/
def IntDeclaration (t : Scopes) (d : Declaration) : Prop :=
  match d with
  | .var ⟨name, type, some init, linkage, _⟩ =>
    type = .int ∧ linkage = .plain ∧ t.lookupCurrent name = none ∧ IntExpr (d.after slots t) init
  | _ => False

def IntDeclarations (t : Scopes) : List Declaration → Prop
  | [] => True
  | d :: ds => IntDeclaration slots t d ∧ IntDeclarations (d.after slots t) ds

/-- What a `for` loop over automatic `int`s opens with. -/
def IntInit (t : Scopes) : Option ForInit → Prop
  | none => True
  | some (.expr _ e) => IntExpr t e
  | some (.decls _ ds) => IntDeclarations slots t ds

mutual

/-- Statements over automatic `int`s, in a function with this result.  Outside of loops there is no
`break` and no `continue`. -/
def IntStmt (inLoop : Bool) (t : Scopes) : Stmt → Prop
  | .expr _ e => IntExpr t e
  | .block _ body => IntStmts inLoop t.enter body
  | .ifThen _ cond yes => IntExpr t cond ∧ IntStmt inLoop t yes
  | .ifElse _ cond yes no =>
    IntExpr t cond ∧ IntStmt inLoop t yes ∧ IntStmt inLoop (yes.after slots t) no
  | .whileLoop _ cond body => IntExpr t cond ∧ IntStmt true t body
  | .doWhile _ body cond => IntStmt true t body ∧ IntExpr (body.after slots t) cond
  | .forLoop _ init cond step body =>
    IntInit slots t.enter init ∧ (∀ e ∈ cond, IntExpr (afterInit slots t.enter init) e) ∧
      IntStmt true (afterInit slots t.enter init) body ∧
      ∀ e ∈ step, IntExpr (body.after slots (afterInit slots t.enter init)) e
  | .ret _ none => result = some .void
  | .ret _ (some e) => result = some .int ∧ IntExpr t e
  | .decls _ ds => IntDeclarations slots t ds
  | .brk _ | .cont _ => inLoop = true
  | .empty _ => True

/-- Statements over automatic `int`s, one after another. -/
def IntStmts (inLoop : Bool) (t : Scopes) : List Stmt → Prop
  | [] => True
  | s :: rest => IntStmt inLoop t s ∧ IntStmts inLoop (s.after slots t) rest

end

end IntStmt

end Cof
