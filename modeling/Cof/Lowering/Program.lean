/-
  Code for programs.

  A function is a frame around its body: a directive that names it, `prologue`, its parameters, a scope
  for the body, `epilogue` and `ret`.  The body shares the scope of the parameters.  At the end, names
  that were declared and never defined, and never declared static, are listed as external.
-/
import Cof.Lowering.Stmt

namespace Cof.Lowering

/-- Create the parameters of a function, counted from an index on. -/
def bindParameters (loc : Location) : Nat → List Param → Lower Unit
  | _, [] => return ()
  | index, p :: rest => do
    let id ← freshVariable
    bindName (p.name.getD []) p.type (.slot id) loc
    let var ← createVariable id p.type
    emit .bindparam .none [.size (UInt64.ofNat index), var]
    bindParameters loc (index + 1) rest

def functionFrame (f : FunctionDecl) (body : List Stmt) : Lower Unit := do
  enterScope
  emit .prologue .none []
  enterScope
  bindParameters f.loc 0 f.params
  emit .scopeBegin .none []
  statements body
  emit .scopeEnd .none []
  exitScope
  emit .epilogue .none []
  emit .ret .none []
  exitScope

/-- Code for the definition of a function that is declared already. -/
def defineFunction (f : FunctionDecl) (body : List Stmt) : Lower Unit := do
  let start ← offset
  emit .sym .function [.symbol Encoding.ptr.tag f.name]
  let before ← get
  set { before with returnType := some f.result, currentFunction := some f.name }
  functionFrame f body
  modify fun s => { s with
    returnType := before.returnType, currentFunction := before.currentFunction }
  let stop ← offset
  listSymbol {
    name := f.name, value := start, size := stop - start, kind := .function,
    binding := if f.linkage = .static then .internal else .global }

def topLevel : TopLevel → Lower Unit
  | .declare (.proto f) => declareFunction f false
  | .declare (.var v) => globalVariable v
  | .define f body => do
    declareFunction f true
    defineFunction f body

/-- The external symbol for a name that is declared and has no definition here. -/
def external? (g : Global) : Option Listed :=
  if g.defined || g.isStatic then none
  else some {
    name := g.name, value := 0, size := 0, kind := if g.isFunction then .function else .object,
    binding := .external }

def listExternals : Lower Unit :=
  modify fun s => (s.globals.reverse.filterMap external?).foldl State.list s

def program (p : Program) : Lower Unit := do
  p.forM topLevel
  listExternals

end Cof.Lowering
