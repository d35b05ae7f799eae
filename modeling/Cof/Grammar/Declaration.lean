/-
  Reading declarations.

  A declaration is a list of specifiers and then one or more declarators, each of which adds stars in
  front of a name and a parameter list or array lengths behind it.  Where a function declarator is
  followed by a block, reading stops in front of it and says so: whether a body is welcome depends on
  where the declaration stands.
-/
import Cof.Grammar.Expr

namespace Cof.Grammar

/-! ## Declarators -/

variable {S τ φ : Type} [Store S τ φ]

def qualifiers : Nat → ReaderOf S Unit
  | 0 => tooDeep
  | depth + 1 => do
    match ← peekKind with
    | .keyword .const | .keyword .volatile =>
      let _ ← advance
      qualifiers depth
    | _ => return ()

/-- Read the stars in front of a declared name; qualifiers may follow each. -/
def pointers : Nat → τ → ReaderOf S τ
  | 0, _ => tooDeep
  | depth + 1, type => do
    if ← accept (.punct .star) then
      let type ← Store.make (.pointer type)
      qualifiers depth
      pointers depth type
    else return type

def name? : ReaderOf S (Option Name) := do
  match ← peekKind with
  | .ident name =>
    let _ ← advance
    return some name
  | _ => return none

def parameter (depth : Nat) : ReaderOf S (Option Name × τ) := do
  let (_, base) ← specifiers false depth
  let type ← pointers depth base
  let name ← name?
  if ← comes (.punct .lParen) then fail .functionParameter
  else return (name, ← makeArray type (← arrayLengths depth []))

/-- Types and names of parameters, and whether more may be passed. -/
structure Parameters (τ : Type) where
  types : List τ := []
  names : List (Option Name) := []
  variadic : Bool := false

namespace Parameters

def add (p : Parameters τ) (name : Option Name) (type : τ) : Parameters τ :=
  { p with types := type :: p.types, names := name :: p.names }

def reverse (p : Parameters τ) : Parameters τ :=
  { p with types := p.types.reverse, names := p.names.reverse }

end Parameters

/-- Read parameters, onto those already read (newest first).  `void` alone stands for none. -/
def parameterList : Nat → Parameters τ → ReaderOf S (Parameters τ)
  | 0, _ => tooDeep
  | depth + 1, done => do
    if ← comes (.punct .ellipsis) then
      if done.types.isEmpty then fail .ellipsisFirst
      else
        let _ ← advance
        return { done.reverse with variadic := true }
    else
      let loc ← here
      let (name, type) ← parameter depth
      if ← Store.isVoid type then
        if done.types.isEmpty && name.isNone then
          if ← comes (.punct .rParen) then return {} else failAt .voidParameter loc
        else failAt .voidParameter loc
      else
        let done := done.add name (← Store.decay type)
        if ← accept (.punct .comma) then parameterList depth done
        else return done.reverse

/-- Read what stands between the brackets of a function declarator. -/
def parameters (depth : Nat) : ReaderOf S (Parameters τ) := do
  if ← comes (.punct .rParen) then return {} else parameterList depth {}

/-- What a declarator declares. -/
inductive Declarator (τ φ : Type) where
  | object (loc : Location) (name : Name) (type : τ)
  | function (loc : Location) (name : Name) (signature : φ) (names : List (Option Name))

/-- Read a declarator on top of the type that the specifiers give. -/
def declarator (depth : Nat) (base : τ) : ReaderOf S (Declarator τ φ) := do
  let type ← pointers depth base
  let loc ← here
  let name ← expectName "in declarator"
  if ← accept (.punct .lParen) then
    let params ← parameters depth
    expect .rParen "after parameters"
    if ← comes (.punct .lBracket) then fail .arrayResult
    else return .function loc name (← Store.makeFunction type params.types params.variadic) params.names
  else return .object loc name (← makeArray type (← arrayLengths depth []))

/-! ## Declarations -/

/-- A declaration, as far as it was read. -/
inductive Declared (τ : Type := CType) (φ : Type := Signature) where
  /-- All of it, through the semicolon. -/
  | complete (declarations : List (Declaration τ φ))
  /-- A block comes next, after this function and the declarations before it. -/
  | bodyAhead (earlier : List (Declaration τ φ)) (f : FunctionDecl φ)

def initializer (depth : Nat) : ReaderOf S (Option (Expr τ)) := do
  if ← accept (.punct .eq) then
    if ← comes (.punct .lBrace) then fail .initializerList
    else return some (← expression depth)
  else return none

/-- Read declarators, onto what is already declared (newest first). -/
def declarators (linkage : Linkage) (base : τ) : Nat → List (Declaration τ φ) → ReaderOf S (Declared τ φ)
  | 0, _ => tooDeep
  | depth + 1, done => do
    match ← declarator depth base with
    | .function loc name signature names =>
      let f : FunctionDecl φ := { name, signature, names, linkage, loc }
      if ← comes (.punct .lBrace) then return .bodyAhead done.reverse f
      else if ← comes (.punct .eq) then fail (.functionInitialized name)
      else if ← accept (.punct .comma) then declarators linkage base depth (.proto f :: done)
      else
        expect .semicolon "after declaration"
        return .complete (.proto f :: done).reverse
    | .object loc name type =>
      if ← Store.isVoid type then failAt (.voidVariable name) loc
      else
        let init ← initializer depth
        let v : VarDecl τ := { name, type, init, linkage, loc }
        if ← accept (.punct .comma) then declarators linkage base depth (.var v :: done)
        else
          expect .semicolon "after declaration"
          return .complete (.var v :: done).reverse

def declaration (depth : Nat) : ReaderOf S (Declared τ φ) := do
  if ← atDeclaration then
    let (linkage, base) ← specifiers true depth
    declarators linkage base depth []
  else failExpected .declaration

/-- Read a declaration inside a block, where no function has a body. -/
def blockDeclaration (depth : Nat) : ReaderOf S (List (Declaration τ φ)) := do
  match ← declaration depth with
  | .complete ds => return ds
  | .bodyAhead .. => fail .nestedFunction

end Cof.Grammar
