/-
  What can be wrong with a program that has the right form.

  Each cause carries the names and types that its message mentions, and `Fault.message` is the only
  place where the wording stands.  Every fault has a position; a failure to encode an instruction has
  none.
-/
import Cof.Expr
import Cof.Module.Writer
import Cof.Utf8

namespace Cof.Lowering

/-- Why a declaration disagrees with an earlier one of the same name. -/
inductive Conflict where
  /-- A function was declared as a variable before. -/
  | wasVariable
  | typeDiffers (now before : CType)
  | alreadyDefined
  /-- A variable was declared with another type, or as a function. -/
  | redeclared (now : CType)
deriving DecidableEq, Repr

def Conflict.message : Conflict → String
  | wasVariable => "previously declared as a variable"
  | typeDiffers now before => "type '" ++ now.display ++ "' differs from earlier '" ++ before.display ++ "'"
  | alreadyDefined => "function is already defined"
  | redeclared now => "redeclared with type '" ++ now.display ++ "'"

/-- What there is no code for. -/
inductive Unsupported where
  | memberAccess (name : Name)
  | indirectCall
  /-- A call of a variable. -/
  | callThrough (name : Name)
  | callOfNonFunction
  | initializer (name : Name) (type : CType)
  | nonConstantInitializer (name : Name)
  | arrayInitializer (name : Name)
  /-- A block-scope `extern` with a value. -/
  | externalInitializer (name : Name)
  | incompleteVariable (name : Name) (type : CType)
  | breakOutside
  | continueOutside
  | returnOutside
deriving DecidableEq, Repr

def Unsupported.text : Unsupported → String
  | memberAccess name => "member access '" ++ Utf8.lossy name ++ "'"
  | indirectCall => "indirect call"
  | callThrough name => "call through '" ++ Utf8.lossy name ++ "', which is not a function"
  | callOfNonFunction => "call of a non-function"
  | initializer name type =>
    "initializer for '" ++ Utf8.lossy name ++ "' of type '" ++ type.display ++ "'"
  | nonConstantInitializer name => "non-constant initializer for '" ++ Utf8.lossy name ++ "'"
  | arrayInitializer name => "initializer for array '" ++ Utf8.lossy name ++ "'"
  | externalInitializer name =>
    "initializer on block-scope extern '" ++ Utf8.lossy name ++ "'"
  | incompleteVariable name type =>
    "variable '" ++ Utf8.lossy name ++ "' of incomplete type '" ++ type.display ++ "'"
  | breakOutside => "'break' outside of a loop"
  | continueOutside => "'continue' outside of a loop"
  | returnOutside => "'return' outside of a function"

/-- The operands that an operator does not take. -/
inductive Operands where
  | one (type : CType)
  | two (left right : CType)
  | cast (source target : CType)
  /-- Something that has no address. -/
  | notPlace
deriving DecidableEq, Repr

def Operands.text : Operands → String
  | one type => type.display
  | two left right => left.display ++ ", " ++ right.display
  | cast source target => source.display ++ " to " ++ target.display
  | notPlace => "a value that is not an lvalue"

/-- Why a program has no code. -/
inductive Fault where
  | undefinedVariable (name : Name)
  | undefinedFunction (name : Name)
  /-- The name is bound in the same scope already. -/
  | duplicateSymbol (name : Name)
  | conflictingDeclaration (name : Name) (why : Conflict)
  | unsupported (what : Unsupported)
  | invalidOperand (operator : String) (operands : Operands)
  | argumentCount (function : Name) (expected got : Nat)
  | notAssignable
  /-- A `void` function returns a value. -/
  | valueReturned
  /-- A function of this type returns none. -/
  | valueMissing (type : CType)
deriving DecidableEq, Repr

def Fault.message (fault : Fault) (loc : Location) : String :=
  let place := " at " ++ loc.describe
  match fault with
  | undefinedVariable name => "use of undeclared identifier '" ++ Utf8.lossy name ++ "'" ++ place
  | undefinedFunction name => "call to undeclared function '" ++ Utf8.lossy name ++ "'" ++ place
  | duplicateSymbol name => "redeclaration of '" ++ Utf8.lossy name ++ "'" ++ place
  | conflictingDeclaration name why =>
    "conflicting declaration of '" ++ Utf8.lossy name ++ "'" ++ place ++ ": " ++ why.message
  | unsupported what => "unsupported " ++ what.text ++ place
  | invalidOperand operator operands =>
    "invalid operands to '" ++ operator ++ "' (" ++ operands.text ++ ")" ++ place
  | argumentCount f expected got =>
    "'" ++ Utf8.lossy f ++ s!"' expects {expected} argument(s), got {got}" ++ place
  | notAssignable => "expression is not assignable" ++ place
  | valueReturned => "void function returns a value" ++ place
  | valueMissing type => "non-void function must return a '" ++ type.display ++ "'" ++ place

end Cof.Lowering

namespace Cof

/-- An error found while making code. -/
inductive LowerError where
  | fault (cause : Lowering.Fault) (loc : Location)
  /-- An instruction has no encoding. -/
  | write (cause : Module.WriteError)
deriving DecidableEq, Repr

namespace LowerError

def loc? : LowerError → Option Location
  | fault _ loc => some loc
  | write _ => none

def message : LowerError → String
  | fault cause loc => cause.message loc
  | write cause => "failed to write object code: " ++ cause.message

end LowerError

end Cof
