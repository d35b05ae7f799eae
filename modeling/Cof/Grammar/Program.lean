/-
  Reading statements and whole programs.

  The first token of a statement says which form it has.  An `else` belongs to the nearest `if`.
-/
import Cof.Grammar.Declaration

namespace Cof.Grammar

/-! ## Parts of statements -/

variable {S τ φ : Type} [Store S τ φ]

def expressionStatement (depth : Nat) : ReaderOf S (Expr τ) := do
  let e ← expression depth
  expect .semicolon "after expression"
  return e

def condition (word : Keyword) (depth : Nat) : ReaderOf S (Expr τ) := do
  expect .lParen s!"after '{word.spelling}'"
  let cond ← expression depth
  expect .rParen s!"after {word.spelling} condition"
  return cond

def forInit (depth : Nat) : ReaderOf S (Option (ForInit τ φ)) := do
  if ← accept (.punct .semicolon) then return none
  else
    let loc ← here
    if ← atDeclaration then return some (.decls loc (← blockDeclaration depth))
    else return some (.expr loc (← expressionStatement depth))

def expressionUnless (p : Punct) (depth : Nat) : ReaderOf S (Option (Expr τ)) := do
  if ← comes (.punct p) then return none else return some (← expression depth)

/-! ## Statements -/

mutual

def statement : Nat → ReaderOf S (Stmt τ φ)
  | 0 => tooDeep
  | depth + 1 => do
    let t ← peek
    match t.kind with
    | .punct .lBrace => return .block t.loc (← block depth)
    | .punct .semicolon =>
      let _ ← advance
      return .empty t.loc
    | .keyword .ifWord =>
      let _ ← advance
      let cond ← condition .ifWord depth
      let yes ← statement depth
      if ← accept (.keyword .elseWord) then
        return .ifElse t.loc cond yes (← statement depth)
      else return .ifThen t.loc cond yes
    | .keyword .whileWord =>
      let _ ← advance
      let cond ← condition .whileWord depth
      return .whileLoop t.loc cond (← statement depth)
    | .keyword .doWord =>
      let _ ← advance
      let body ← statement depth
      if ← accept (.keyword .whileWord) then
        let cond ← condition .whileWord depth
        expect .semicolon "after do-while"
        return .doWhile t.loc body cond
      else failExpected (.word .whileWord "after do body")
    | .keyword .forWord =>
      let _ ← advance
      expect .lParen "after 'for'"
      let init ← forInit depth
      let cond ← expressionUnless .semicolon depth
      expect .semicolon "after for condition"
      let step ← expressionUnless .rParen depth
      expect .rParen "after for clauses"
      return .forLoop t.loc init cond step (← statement depth)
    | .keyword .returnWord =>
      let _ ← advance
      let value ← expressionUnless .semicolon depth
      expect .semicolon "after return"
      return .ret t.loc value
    | .keyword .breakWord =>
      let _ ← advance
      expect .semicolon "after 'break'"
      return .brk t.loc
    | .keyword .continueWord =>
      let _ ← advance
      expect .semicolon "after 'continue'"
      return .cont t.loc
    | .keyword .switch => fail (.unsupportedStatement .switch)
    | .keyword .caseWord => fail (.unsupportedStatement .caseWord)
    | .keyword .default => fail (.unsupportedStatement .default)
    | .keyword .goto => fail (.unsupportedStatement .goto)
    | _ =>
      if ← atDeclaration then return .decls t.loc (← blockDeclaration depth)
      else return .expr t.loc (← expressionStatement depth)

def block : Nat → ReaderOf S (List (Stmt τ φ))
  | 0 => tooDeep
  | depth + 1 => do
    expect .lBrace "to open block"
    let body ← statements depth []
    expect .rBrace "to close block"
    return body

/-- Read statements up to the end of the block, onto those already read (newest first). -/
def statements : Nat → List (Stmt τ φ) → ReaderOf S (List (Stmt τ φ))
  | 0, _ => tooDeep
  | depth + 1, done => do
    match ← peekKind with
    | .punct .rBrace | .eof => return done.reverse
    | _ =>
      let s ← statement depth
      statements depth (s :: done)

end

/-! ## Programs -/

/-- Read a declaration at file scope, or the definition of one function all of whose parameters have
names. -/
def topLevel (depth : Nat) : ReaderOf S (List (TopLevel τ φ)) := do
  match ← declaration depth with
  | .complete ds => return ds.map .declare
  | .bodyAhead earlier f =>
    if !earlier.isEmpty then failExpected (.mark .semicolon "after declaration")
    else
      match f.names.findIdx? (·.isNone) with
      | some i => failAt (.unnamedParameter (i + 1) f.name) f.loc
      | none => return [.define f (← block depth)]

def topLevels : Nat → List (TopLevel τ φ) → ReaderOf S (Program τ φ)
  | 0, _ => tooDeep
  | depth + 1, done => do
    if ← comes .eof then return done.reverse
    else
      let more ← topLevel depth
      topLevels depth (more.reverse ++ done)

def enough (tokens : Nat) : Nat := 8 * tokens + 16

end Cof.Grammar

namespace Cof

def Program.parse (source : Bytes) : Except ParseError Program := do
  let tokens ← Grammar.start source
  (Grammar.topLevels (Grammar.enough tokens.ahead.length) []).run' tokens

/-- Read a program with its types by number, in an arena of their own. -/
def Program.read (source : Bytes) : Except ParseError (Program UInt32 UInt32 × Arena) := do
  let tokens ← Grammar.start source
  let (p, s) ← Grammar.topLevels (Grammar.enough tokens.ahead.length) [] (Grammar.Reading.mk tokens .empty)
  return (p, s.arena)

end Cof
