/-
  Statements, declarations and programs.

  A declaration that names several things is several declarations.  Only at file scope may a function
  have a body, so a body is not part of `FunctionDecl`: it stands beside it in `TopLevel.define`.  The
  statement that opens a `for` loop is an expression or declarations and never a loop itself, and has
  a type of its own.

  Types stand in a program as themselves, or as something that stands for them: the parameter `τ` is what a
  type is written as and `φ` what the type of a function is.
-/
import Cof.Expr

namespace Cof

/-! ## Declarations -/

/-- The storage class a declaration is written with. -/
inductive Linkage where
  /-- None. -/
  | plain
  | static
  /-- `extern`. -/
  | external
deriving DecidableEq, Repr

/-- Two storage classes together: one of them repeated is no more than that, and the two different ones
exclude each other. -/
def Linkage.join? : Linkage → Linkage → Option Linkage
  | static, external | external, static => none
  | _, given => some given

/-- A variable. -/
structure VarDecl (τ : Type := CType) where
  name : Name
  type : τ
  init : Option (Expr τ)
  linkage : Linkage
  loc : Location
deriving Repr

/-- The type of a function.  Those of its parameters have already decayed. -/
structure Signature where
  result : CType
  params : List CType
  variadic : Bool
deriving DecidableEq, Repr

/-- A function without its body.  `φ` stands for its type; the names of its parameters are kept apart. -/
structure FunctionDecl (φ : Type := Signature) where
  name : Name
  signature : φ
  names : List (Option Name)
  linkage : Linkage
  loc : Location
deriving DecidableEq, Repr

/-- A parameter. -/
structure Param where
  name : Option Name
  type : CType
deriving DecidableEq, Repr

namespace FunctionDecl

variable (f : FunctionDecl)

def result : CType := f.signature.result

def type : CType := .function f.signature.result f.signature.params f.signature.variadic

def params : List Param := f.names.zipWith Param.mk f.signature.params

end FunctionDecl

/-- What may be declared anywhere. -/
inductive Declaration (τ : Type := CType) (φ : Type := Signature) where
  | var (v : VarDecl τ)
  | proto (f : FunctionDecl φ)
deriving Repr

section

variable {τ φ : Type}

def Declaration.name : Declaration τ φ → Name
  | var v => v.name
  | proto f => f.name

/-! ## Statements -/

/-- What a `for` loop opens with. -/
inductive ForInit (τ : Type := CType) (φ : Type := Signature) where
  | expr (loc : Location) (e : Expr τ)
  | decls (loc : Location) (declarations : List (Declaration τ φ))
deriving Repr

/-- A statement. -/
inductive Stmt (τ : Type := CType) (φ : Type := Signature) where
  | expr (loc : Location) (e : Expr τ)
  | block (loc : Location) (body : List (Stmt τ φ))
  | ifThen (loc : Location) (cond : Expr τ) (yes : Stmt τ φ)
  | ifElse (loc : Location) (cond : Expr τ) (yes no : Stmt τ φ)
  | whileLoop (loc : Location) (cond : Expr τ) (body : Stmt τ φ)
  | doWhile (loc : Location) (body : Stmt τ φ) (cond : Expr τ)
  | forLoop (loc : Location) (init : Option (ForInit τ φ)) (cond step : Option (Expr τ)) (body : Stmt τ φ)
  | ret (loc : Location) (value : Option (Expr τ))
  | decls (loc : Location) (declarations : List (Declaration τ φ))
  | brk (loc : Location)
  | cont (loc : Location)
  | empty (loc : Location)
deriving Repr

def Stmt.loc : Stmt τ φ → Location
  | expr loc _ | block loc _ | ifThen loc .. | ifElse loc .. | whileLoop loc .. | doWhile loc .. => loc
  | forLoop loc .. | ret loc _ | decls loc _ | brk loc | cont loc | empty loc => loc

/-! ## Programs -/

/-- What stands at file scope. -/
inductive TopLevel (τ : Type := CType) (φ : Type := Signature) where
  | declare (d : Declaration τ φ)
  | define (f : FunctionDecl φ) (body : List (Stmt τ φ))
deriving Repr

def TopLevel.name : TopLevel τ φ → Name
  | declare d => d.name
  | define f _ => f.name

end

/-- A program: the declarations and definitions at file scope, in order. -/
abbrev Program (τ : Type := CType) (φ : Type := Signature) := List (TopLevel τ φ)

def entryName : Name := ascii "main"

def Program.start? (p : Program) : Option Location :=
  p.findSome? fun
    | .define f _ => if f.name = entryName then some f.loc else none
    | .declare _ => none

end Cof
