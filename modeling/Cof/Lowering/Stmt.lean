/-
  Code for statements.

  Control flow is made of fresh labels and branches on a comparison with zero.  A loop that tests first
  tests again at its start label in each round; `do` runs its body before the first test.  Blocks and
  `for` open a scope, between `scope.begin` and `scope.end`.
-/
import Cof.Lowering.Declaration

namespace Cof.Lowering

def branchIfZero (e : Expr) (label : Int32) : Lower Unit := do
  let v ← conditionValue e
  compareZero v
  branch .eq label

def returnStatement (value? : Option Expr) (loc : Location) : Lower Unit := do
  match (← get).returnType with
  | none => unsupported .returnOutside loc
  | some type =>
    match value? with
    | some e =>
      if type.isVoid then fail .valueReturned e.loc
      else
        let v ← value e
        let v ← convertAssigned v type e.loc
        emit .setret .none [v.operand]
        emit .ret .none []
    | none =>
      if type.isVoid then emit .ret .none [] else fail (.valueMissing type) loc

def forInit : Option ForInit → Lower Unit
  | none => return ()
  | some (.expr _ e) => discard (value e)
  | some (.decls _ ds) => localDeclarations ds

/-- Code for the test of a `for` loop, which leaves the loop if there is one and it fails. -/
def forTest (cond : Option Expr) (done : Int32) : Lower Unit :=
  match cond with
  | some cond => branchIfZero cond done
  | none => return ()

def forStep (step : Option Expr) : Lower Unit :=
  match step with
  | some step => discard (value step)
  | none => return ()

mutual

def statement : Stmt → Lower Unit
  | .expr _ e => discard (value e)
  | .block _ body => do
    enterScope
    emit .scopeBegin .none []
    statements body
    emit .scopeEnd .none []
    exitScope
  | .ifThen _ cond yes => do
    let c ← conditionValue cond
    let elseLabel ← freshLabel
    let endLabel ← freshLabel
    compareZero c
    branch .eq elseLabel
    statement yes
    jump endLabel
    defineLabel elseLabel
    defineLabel endLabel
  | .ifElse _ cond yes no => do
    let c ← conditionValue cond
    let elseLabel ← freshLabel
    let endLabel ← freshLabel
    compareZero c
    branch .eq elseLabel
    statement yes
    jump endLabel
    defineLabel elseLabel
    statement no
    defineLabel endLabel
  | .whileLoop _ cond body => do
    let start ← freshLabel
    let done ← freshLabel
    defineLabel start
    branchIfZero cond done
    inLoop ⟨start, done⟩ (statement body)
    jump start
    defineLabel done
  | .doWhile _ body cond => do
    let start ← freshLabel
    let next ← freshLabel
    let done ← freshLabel
    defineLabel start
    inLoop ⟨next, done⟩ (statement body)
    defineLabel next
    let c ← conditionValue cond
    compareZero c
    branch .ne start
    defineLabel done
  | .forLoop _ init cond step body => do
    enterScope
    emit .scopeBegin .none []
    forInit init
    let start ← freshLabel
    let next ← freshLabel
    let done ← freshLabel
    defineLabel start
    forTest cond done
    inLoop ⟨next, done⟩ (statement body)
    defineLabel next
    forStep step
    jump start
    defineLabel done
    emit .scopeEnd .none []
    exitScope
  | .ret loc value? => returnStatement value? loc
  | .decls _ ds => localDeclarations ds
  | .brk loc => do
    match (← get).loops with
    | labels :: _ => jump labels.onBreak
    | [] => unsupported .breakOutside loc
  | .cont loc => do
    match (← get).loops with
    | labels :: _ => jump labels.onContinue
    | [] => unsupported .continueOutside loc
  | .empty _ => return ()

def statements : List Stmt → Lower Unit
  | [] => return ()
  | s :: rest => do
    statement s
    statements rest

end

end Cof.Lowering
