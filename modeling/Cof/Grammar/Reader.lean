/-
  Reading tokens in order.

  A `Reader` consumes tokens from the front or fails.  The end of the source counts as a token, and it
  can be looked at but not passed.  A lexical error in the source takes the place of the token it stands
  at: it is raised when that token becomes the next one, which is when the token before it is passed.
-/
import Cof.Grammar.Store

namespace Cof.Grammar

def start (source : Bytes) : Except ParseError Tokens :=
  match Tokens.ofSource source with
  | ⟨[], .error e⟩ => .error (.lex e)
  | ts => .ok ts

variable {S τ φ α : Type} [Store S τ φ]

abbrev peek : ReaderOf S Token := Store.peek

abbrev advance : ReaderOf S Token := Store.advance

def peekKind : ReaderOf S TokenKind := do return (← peek).kind

def here : ReaderOf S Location := do return (← peek).loc

def failAt (fault : Fault) (loc : Location) : ReaderOf S α := throw (.form fault loc)

def fail (fault : Fault) : ReaderOf S α := do failAt fault (← here)

def failExpected (wanted : Wanted) : ReaderOf S α := do
  fail (.expected wanted (← peekKind))

def comes (kind : TokenKind) : ReaderOf S Bool := do return (← peekKind) = kind

/-- Pass a token of this kind if it comes next, and say whether it did. -/
def accept (kind : TokenKind) : ReaderOf S Bool := do
  if ← comes kind then
    let _ ← advance
    return true
  else return false

def expect (p : Punct) (place : String) : ReaderOf S Unit := do
  if ← accept (.punct p) then return () else failExpected (.mark p place)

def expectName (place : String) : ReaderOf S Name := do
  match ← peekKind with
  | .ident name =>
    let _ ← advance
    return name
  | _ => failExpected (.name place)

def tooDeep : ReaderOf S α := fail .tooDeep

end Cof.Grammar
