/-
  What can be wrong with a program's form.

  A fault is a cause; its wording is in `Fault.message` and nowhere else.  Reading stops at the first
  error, be it one of form or one in the tokens themselves.
-/
import Cof.Token

namespace Cof.Grammar

/-- What should have come next, with the words that say where. -/
inductive Wanted where
  | mark (p : Punct) (place : String)
  | word (k : Keyword) (place : String)
  | name (place : String)
  | declaration
  | typeSpecifier
  | expression
deriving DecidableEq, Repr

def Wanted.text : Wanted → String
  | mark p place => (TokenKind.punct p).display ++ " " ++ place
  | word k place => (TokenKind.keyword k).display ++ " " ++ place
  | name place => "identifier " ++ place
  | declaration => "declaration"
  | typeSpecifier => "type specifier"
  | expression => "expression"

/-- Why tokens are no program. -/
inductive Fault where
  | expected (wanted : Wanted) (found : TokenKind)
  | nestedFunction
  /-- A function is defined and one of its parameters, counted from one, has no name. -/
  | unnamedParameter (number : Nat) (function : Name)
  | functionInitialized (function : Name)
  | voidVariable (name : Name)
  | initializerList
  | storageNotAllowed (word : Keyword)
  | conflictingStorage
  | unsupportedSpecifier (word : Keyword)
  | unsupportedStatement (word : Keyword)
  | invalidSpecifiers
  | functionParameter
  | arrayResult
  | arrayTooLarge
  | ellipsisFirst
  | voidParameter
  /-- More constructs inside each other than there are tokens for.  It never arises. -/
  | tooDeep
deriving DecidableEq, Repr

def quotedName (name : Name) : String := "'" ++ Utf8.lossy name ++ "'"

def Fault.message : Fault → String
  | expected wanted found => "expected " ++ wanted.text ++ ", found " ++ found.display
  | nestedFunction => "nested function definitions are not supported"
  | unnamedParameter number f => s!"parameter {number} of " ++ quotedName f ++ " has no name"
  | functionInitialized f => "function " ++ quotedName f ++ " cannot be initialized"
  | voidVariable v => "variable " ++ quotedName v ++ " declared void"
  | initializerList => "initializer lists are not supported"
  | storageNotAllowed k => "storage class '" ++ k.spelling ++ "' is not allowed here"
  | conflictingStorage => "conflicting storage classes 'static' and 'extern'"
  | unsupportedSpecifier k => "'" ++ k.spelling ++ "' is not supported"
  | unsupportedStatement k => "'" ++ k.spelling ++ "' statements are not supported"
  | invalidSpecifiers => "invalid combination of type specifiers"
  | functionParameter => "function-typed parameters are not supported"
  | arrayResult => "functions cannot return arrays"
  | arrayTooLarge => "array size is too large"
  | ellipsisFirst => "'...' must follow at least one named parameter"
  | voidParameter => "parameter has void type"
  | tooDeep => "constructs are nested too deeply"

end Cof.Grammar

namespace Cof

/-- Why a source is no program. -/
inductive ParseError where
  | lex (e : LexError)
  | form (fault : Grammar.Fault) (loc : Location)
deriving DecidableEq, Repr

namespace ParseError

def loc : ParseError → Location
  | lex e => e.loc
  | form _ loc => loc

def short : ParseError → String
  | lex e => e.fault.message
  | form fault _ => fault.message

def message : ParseError → String
  | lex e => e.message
  | form fault loc => s!"syntax error at {loc.describe}: {fault.message}"

end ParseError

end Cof
