/-
  Programs with other positions, names and types.

  What a program says about positions, names and types can be told in another way, part by part.  Members are not
  declared, and keep their names.

  Reading a program into an arena leaves numbers wherever a type is mentioned.  Given the type under each number this
  is a program like any other (`Program.resolve`).
-/
import Cof.CType.Arena
import Cof.Program

namespace Cof

/-- Another way to tell positions, names, types and the types of functions. -/
structure Translation (τ φ τ' φ' : Type) where
  loc : Location → Location
  name : Name → Name
  type : τ → τ'
  signature : φ → φ'

section

variable {τ φ τ' φ' : Type} (ρ : Translation τ φ τ' φ')

mutual

def Expr.translate : Expr τ → Expr τ'
  | .int loc n => .int (ρ.loc loc) n
  | .float loc x => .float (ρ.loc loc) x
  | .char loc c => .char (ρ.loc loc) c
  | .string loc bytes => .string (ρ.loc loc) bytes
  | .ident loc name => .ident (ρ.loc loc) (ρ.name name)
  | .binary loc op left right => .binary (ρ.loc loc) op left.translate right.translate
  | .unary loc op operand => .unary (ρ.loc loc) op operand.translate
  | .step loc way fixity operand => .step (ρ.loc loc) way fixity operand.translate
  | .assign loc target op source => .assign (ρ.loc loc) target.translate op source.translate
  | .call loc callee args => .call (ρ.loc loc) callee.translate (Expr.translateAll args)
  | .index loc base place => .index (ρ.loc loc) base.translate place.translate
  | .member loc object arrow name => .member (ρ.loc loc) object.translate arrow name
  | .conditional loc cond yes no => .conditional (ρ.loc loc) cond.translate yes.translate no.translate
  | .cast loc type operand => .cast (ρ.loc loc) (ρ.type type) operand.translate
  | .sizeofType loc type => .sizeofType (ρ.loc loc) (ρ.type type)
  | .sizeofExpr loc operand => .sizeofExpr (ρ.loc loc) operand.translate

def Expr.translateAll : List (Expr τ) → List (Expr τ')
  | [] => []
  | e :: rest => e.translate :: Expr.translateAll rest

end

def VarDecl.translate (v : VarDecl τ) : VarDecl τ' where
  name := ρ.name v.name
  type := ρ.type v.type
  init := v.init.map (·.translate ρ)
  linkage := v.linkage
  loc := ρ.loc v.loc

def FunctionDecl.translate (f : FunctionDecl φ) : FunctionDecl φ' where
  name := ρ.name f.name
  signature := ρ.signature f.signature
  names := f.names.map (·.map ρ.name)
  linkage := f.linkage
  loc := ρ.loc f.loc

def Declaration.translate : Declaration τ φ → Declaration τ' φ'
  | var v => .var (v.translate ρ)
  | proto f => .proto (f.translate ρ)

def ForInit.translate : ForInit τ φ → ForInit τ' φ'
  | expr loc e => .expr (ρ.loc loc) (e.translate ρ)
  | decls loc ds => .decls (ρ.loc loc) (ds.map (·.translate ρ))

mutual

def Stmt.translate : Stmt τ φ → Stmt τ' φ'
  | .expr loc e => .expr (ρ.loc loc) (e.translate ρ)
  | .block loc body => .block (ρ.loc loc) (Stmt.translateAll body)
  | .ifThen loc cond yes => .ifThen (ρ.loc loc) (cond.translate ρ) yes.translate
  | .ifElse loc cond yes no => .ifElse (ρ.loc loc) (cond.translate ρ) yes.translate no.translate
  | .whileLoop loc cond body => .whileLoop (ρ.loc loc) (cond.translate ρ) body.translate
  | .doWhile loc body cond => .doWhile (ρ.loc loc) body.translate (cond.translate ρ)
  | .forLoop loc init cond step body => .forLoop (ρ.loc loc) (init.map (·.translate ρ)) (cond.map (·.translate ρ))
      (step.map (·.translate ρ)) body.translate
  | .ret loc value => .ret (ρ.loc loc) (value.map (·.translate ρ))
  | .decls loc ds => .decls (ρ.loc loc) (ds.map (·.translate ρ))
  | .brk loc => .brk (ρ.loc loc)
  | .cont loc => .cont (ρ.loc loc)
  | .empty loc => .empty (ρ.loc loc)

def Stmt.translateAll : List (Stmt τ φ) → List (Stmt τ' φ')
  | [] => []
  | st :: rest => st.translate :: Stmt.translateAll rest

end

def TopLevel.translate : TopLevel τ φ → TopLevel τ' φ'
  | declare d => .declare (d.translate ρ)
  | define f body => .define (f.translate ρ) (Stmt.translateAll ρ body)

def Program.translate (p : Program τ φ) : Program τ' φ' := p.map (·.translate ρ)

theorem Expr.translateAll_eq_map (es : List (Expr τ)) : Expr.translateAll ρ es = es.map (·.translate ρ) := by
  induction es with
  | nil => rfl
  | cons e es ih => rw [Expr.translateAll, ih, List.map_cons]

theorem Stmt.translateAll_eq_map (sts : List (Stmt τ φ)) : Stmt.translateAll ρ sts = sts.map (·.translate ρ) := by
  induction sts with
  | nil => rfl
  | cons st sts ih => rw [Stmt.translateAll, ih, List.map_cons]

end

/-! ## Positions only -/

abbrev Translation.moving (f : Location → Location) : Translation CType Signature CType Signature :=
  ⟨f, fun name => name, fun type => type, fun signature => signature⟩

/-! ## Types in the place of numbers -/

/-- The type of a function, taken apart.  For another type it is none that a function has: it returns a function. -/
def CType.signature : CType → Signature
  | function result params variadic => ⟨result, params, variadic⟩
  | type => ⟨.function type [] false, [], false⟩

abbrev Translation.resolving (types : UInt32 → CType) : Translation UInt32 UInt32 CType Signature :=
  ⟨fun loc => loc, fun name => name, types, fun n => (types n).signature⟩

def Program.resolve (p : Program UInt32 UInt32) (a : Arena) : Program := p.translate (.resolving a.tree)

end Cof
