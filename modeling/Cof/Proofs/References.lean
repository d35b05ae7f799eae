/-
  What the code of an expression calls, and what it refers to.

  The calls of an expression can be read off the tree.  `Expr.callees` lists them in the order in which
  they are made: the operands of a node from left to right, and the call of a node behind its arguments.
  What is under `sizeof` is not evaluated, so nothing is called there.
-/
import Cof.Proofs.Reach
import Mathlib.Data.List.Forall2
import Mathlib.Data.Set.Basic

namespace Cof

/-! ## Calls of expressions -/

mutual

def Expr.callees : Expr → List Expr
  | .int .. | .float .. | .char .. | .string .. | .ident .. | .sizeofType .. | .sizeofExpr .. => []
  | .binary _ _ left right => left.callees ++ right.callees
  | .unary _ _ operand | .step _ _ _ operand | .cast _ _ operand => operand.callees
  | .assign _ target _ value => target.callees ++ value.callees
  | .call _ callee args => callee.callees ++ (argCallees args ++ [callee])
  | .index _ base index => base.callees ++ index.callees
  | .member _ object _ _ => object.callees
  | .conditional _ cond yes no => cond.callees ++ (yes.callees ++ no.callees)

def argCallees : List Expr → List Expr
  | [] => []
  | arg :: args => arg.callees ++ argCallees args

end

def VarDecl.callees (v : VarDecl) : List Expr := (v.init.map Expr.callees).getD []

/-! ## Names in code -/

def Operand.name? : Operand → Option Name
  | .symbol _ name => some name
  | .imm .. | .var .. | .label .. => none

namespace Instr

def call (name : Name) : Instr := ⟨.call, .none, [.symbol Encoding.ptr.tag name]⟩

def isCall (i : Instr) : Bool := i.opcode == .call

/-- Whether an instruction is a directive: it names a place, or holds data. -/
def isDirective (i : Instr) : Bool := i.opcode == .sym || i.opcode == .data

def references (i : Instr) : List Name := if i.isDirective then [] else i.operands.filterMap Operand.name?

theorem references_directive {i : Instr} (h : i.isDirective = true) : i.references = [] := if_pos h

end Instr

/-- A call is made by the instruction that calls the function of that name. -/
def Expr.CalledBy (callee : Expr) (i : Instr) : Prop := ∃ loc name, callee = .ident loc name ∧ i = .call name

/-- The names that code may have to refer to, for what is bound in a table: names of storage, and names of
functions. -/
def Scopes.offered (t : Scopes) : Set Name := fun name => ∃ e ∈ t.log,
  e.symbol.storage = .global name ∨ (e.symbol.name = name ∧ e.symbol.type.isFunction = true)

variable {t : Scopes}

theorem Scopes.offered_mono {t' : Scopes} (h : t.log ⊆ t'.log) : t.offered ⊆ t'.offered :=
  fun _ ⟨e, mem, offers⟩ => ⟨e, h mem, offers⟩

theorem Scopes.name_of_lookup {name : Name} {symbol : Symbol} (h : t.lookup name = some symbol) :
    symbol.name = name := by
  obtain ⟨e, found, rfl⟩ := Option.map_eq_some_iff.1 h
  have here := List.find?_some found
  rw [Bool.and_eq_true, beq_iff_eq] at here
  exact here.1

/-! ## Code that refers to names -/

/-- The calls in code are those of the callees, in order, and the names it refers to are in a set. -/
structure Refers (N : Set Name) (callees : List Expr) (part : List Instr) : Prop where
  names : ∀ i ∈ part, ∀ name ∈ i.references, name ∈ N
  calls : List.Forall₂ Expr.CalledBy callees (part.filter Instr.isCall)

theorem Refers.mono {N N' : Set Name} {callees : List Expr} {part : List Instr} (h : Refers N callees part)
    (sub : N ⊆ N') : Refers N' callees part :=
  ⟨fun i mem name named => sub (h.names i mem name named), h.calls⟩

def Operand.Within (N : Set Name) (o : Operand) : Prop := ∀ name ∈ o.name?, name ∈ N

section Within

variable {N : Set Name} {o : Operand} {os : List Operand}

theorem within_unnamed (h : o.name? = none) : o.Within N := by
  intro name mem
  rw [h] at mem
  cases mem

theorem within_nil : ∀ o ∈ ([] : List Operand), o.Within N := List.forall_mem_nil _

theorem within_cons (first : o.Within N) (rest : ∀ o ∈ os, o.Within N) : ∀ o' ∈ o :: os, o'.Within N :=
  List.forall_mem_cons.2 ⟨first, rest⟩

theorem within_one (h : o.name? = none) : ∀ o' ∈ [o], o'.Within N := within_cons (within_unnamed h) within_nil

theorem within_two {o' : Operand} (h : o.name? = none) (h' : o'.name? = none) :
    ∀ x ∈ [o, o'], x.Within N := within_cons (within_unnamed h) (within_one h')

theorem Instr.references_within {opcode : Opcode} {qualifier : Qualifier} (h : ∀ o ∈ os, o.Within N) :
    ∀ name ∈ Instr.references ⟨opcode, qualifier, os⟩, name ∈ N := by
  intro name mem
  unfold Instr.references at mem
  split at mem
  · cases mem
  · obtain ⟨o, ho, named⟩ := List.mem_filterMap.1 mem
    exact h o ho name named

end Within

end Cof
