/-
  Lexically scoped names.

  The table is a log.  Every binding that was ever made stays in it, newest first, together with the
  number of the scope it was made in.  Entering a scope takes a fresh number; leaving one only drops
  its number from the chain of open scopes, and the bindings made in it go out of sight by themselves.

  `lookup` is one search: the newest binding of the name whose scope is still open.  That is the
  innermost one, because a scope can only be written to while it is the innermost open scope, so of two
  open scopes the inner one has the newer bindings.
-/
import Cof.CType
import Cof.Utf8

namespace Cof

/-- Where the value of a name lives. -/
inductive Storage where
  /-- Under a name: objects of static storage and functions. -/
  | global (name : Name)
  /-- In a virtual variable. -/
  | slot (id : UInt32)
deriving DecidableEq, Repr

/-- A name with its type, the depth of its scope and its storage. -/
structure Symbol where
  name : Name
  type : CType
  depth : Nat
  storage : Storage
deriving DecidableEq, Repr

/-- A binding together with the number of its scope. -/
structure Entry where
  scope : Nat
  symbol : Symbol
deriving DecidableEq, Repr

/-- The table of names. -/
structure Scopes where
  /-- All bindings, newest first. -/
  log : List Entry
  /-- The innermost open scope. -/
  current : Nat
  /-- The open scopes around it, from the inside out. -/
  outer : List Nat
  /-- The last scope number that was given out. -/
  last : Nat
deriving DecidableEq, Repr

/-- Why a name can not be bound. -/
inductive ScopeError where
  /-- The scope has a binding of the name already. -/
  | duplicate (name : Name)
deriving DecidableEq, Repr

def ScopeError.message : ScopeError → String
  | duplicate name => "'" ++ Utf8.lossy name ++ "' is already declared in this scope"

namespace Scopes

def empty : Scopes := ⟨[], 0, [], 0⟩

def depth (t : Scopes) : Nat := t.outer.length

def atFileScope (t : Scopes) : Bool := t.depth == 0

def enter (t : Scopes) : Scopes :=
  { t with current := t.last + 1, outer := t.current :: t.outer, last := t.last + 1 }

def exit (t : Scopes) : Scopes :=
  match t.outer with
  | [] => t
  | scope :: rest => { t with current := scope, outer := rest }

def isOpen (t : Scopes) (scope : Nat) : Bool := scope == t.current || t.outer.contains scope

def lookup (t : Scopes) (name : Name) : Option Symbol :=
  (t.log.find? fun e => e.symbol.name == name && t.isOpen e.scope).map (·.symbol)

def lookupCurrent (t : Scopes) (name : Name) : Option Symbol :=
  (t.log.find? fun e => e.symbol.name == name && e.scope == t.current).map (·.symbol)

/-- Bind a name in the current scope, unless it has a binding there already. -/
def add (t : Scopes) (name : Name) (type : CType) (storage : Storage) : Except ScopeError Symbol × Scopes :=
  match t.lookupCurrent name with
  | some _ => (.error (.duplicate name), t)
  | none =>
    let symbol : Symbol := ⟨name, type, t.depth, storage⟩
    (.ok symbol, { t with log := ⟨t.current, symbol⟩ :: t.log })

def symbols (t : Scopes) : List Symbol := t.log.reverse.map (·.symbol)

end Scopes

end Cof
