/-
  Where types are kept while a program is read.

  A reader goes through tokens, and where it comes to a type it does not say how types are kept.  It asks a
  `Store` for one more layer over types that it has, for the type of a function, or whether a type is void.

  Tokens alone are a store, with types as they are.  Tokens and an arena are another one: types are numbers in
  the arena, which fills up as the program is read.  What a reader does with the tokens is the same in both.
-/
import Cof.CType.Arena
import Cof.Grammar.Error
import Cof.Program
import Cof.Token.Stream

namespace Cof

/-- The next token.  Where the tokens are used up it is the end of the source; that a lexical error
stopped them was raised before. -/
def Tokens.next (ts : Tokens) : Token :=
  match ts.ahead, ts.stop with
  | t :: _, _ => t
  | [], .eof loc => ⟨.eof, loc, []⟩
  | [], .error e => ⟨.eof, e.loc, []⟩

namespace Grammar

abbrev ReaderOf (S : Type) := StateT S (Except ParseError)

abbrev Reader := ReaderOf Tokens

def pass : Reader Token := fun ts =>
  match ts with
  | ⟨[_], .error e⟩ => .error (.lex e)
  | ⟨t :: rest, stop⟩ => .ok (t, ⟨rest, stop⟩)
  | ⟨[], _⟩ => .ok (ts.next, ts)

/-- States of readers that keep types as `τ` and types of functions as `φ`. -/
class Store (S : Type) (τ φ : outParam Type) where
  /-- Look at the next token. -/
  peek : ReaderOf S Token
  /-- Pass the next token. -/
  advance : ReaderOf S Token
  make : TypeNode τ → ReaderOf S τ
  makeFunction (result : τ) (params : List τ) (variadic : Bool) : ReaderOf S φ
  decay : τ → ReaderOf S τ
  isVoid : τ → ReaderOf S Bool

/-- Types as they are. -/
@[default_instance] instance : Store Tokens CType Signature where
  peek := fun ts => .ok (ts.next, ts)
  advance := pass
  make node := return node.unfold id
  makeFunction result params variadic := return ⟨result, params, variadic⟩
  decay type := return type.decay
  isVoid type := return type.isVoid

section

variable {α : Type}

@[simp] theorem pointer_bind (type : CType) (g : CType → Reader α) :
    Store.make (.pointer type) >>= g = g (.pointer type) := rfl

@[simp] theorem isVoid_bind (type : CType) (g : Bool → Reader α) : Store.isVoid type >>= g = g type.isVoid := rfl

end

/-- The tokens that are left, and the types so far. -/
structure Reading where
  tokens : Tokens
  arena : Arena

namespace Reading

def advance : ReaderOf Reading Token := fun s =>
  match pass s.tokens with
  | .ok (t, tokens) => .ok (t, { s with tokens })
  | .error e => .error e

def enter (f : Arena → UInt32 × Arena) : ReaderOf Reading UInt32 := fun s =>
  .ok ((f s.arena).1, { s with arena := (f s.arena).2 })

end Reading

/-- Types by number. -/
instance : Store Reading UInt32 UInt32 where
  peek := fun s => .ok (s.tokens.next, s)
  advance := Reading.advance
  make node := Reading.enter (·.intern node)
  makeFunction result params variadic := Reading.enter (·.intern (.function result params variadic))
  decay handle := Reading.enter (·.decay handle)
  isVoid handle := return (← get).arena.node? handle = some .void

end Grammar

end Cof
