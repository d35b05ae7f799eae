/-
  Declaration specifiers: `static unsigned long int` and the like.

  The words come in any order, and qualifiers among them change nothing.  Which type they name depends
  only on how often each word occurs (`baseType?`), so the words are collected first.  Such a type has one layer and
  no parts (`baseNode?`).
-/
import Cof.Grammar.Reader

namespace Cof.Grammar

/-! ## Which type some words name -/

def typeWords : List Keyword := [.void, .char, .short, .int, .long, .float, .double, .signed, .unsigned]

def mostOften : Keyword → Nat
  | .long => 2
  | _ => 1

/-- The layer that words name which occur so often, `signs` of them about signs and `total` in all. -/
def nodeOf? (n : Keyword → Nat) (signs total : Nat) : Option (TypeNode Empty) :=
  let signed := n .unsigned == 0
  if typeWords.any (fun k => mostOften k < n k) || 1 < signs then none
  else if n .void = 1 then
    if total = 1 then some .void else none
  else if n .float = 1 then
    if total = 1 then some (.floating .f32) else none
  else if n .double = 1 then
    if n .long ≤ 1 ∧ total = 1 + n .long then some (.floating .f64) else none
  else if n .char = 1 then
    if total = 1 + signs then some (.integral .w8 signed) else none
  else if n .short = 1 then
    if n .long = 0 then some (.integral .w16 signed) else none
  else if 0 < n .long then some (.integral .w64 signed)
  else some (.integral .w32 signed)

def baseNode? (words : List Keyword) : Option (TypeNode Empty) :=
  nodeOf? words.count (words.count .signed + words.count .unsigned) words.length

def baseType? (words : List Keyword) : Option CType := (baseNode? words).map (·.unfold Empty.elim)

example : baseType? [.long, .unsigned, .int, .long] = some .unsignedLong := by decide
example : baseType? [.long, .double] = some .double := by decide
example : baseType? [.short, .long] = none := by decide

/-! ## Reading the words -/

/-- The words that declarations may start with but that are not supported. -/
def isUnsupportedSpecifier : Keyword → Bool
  | .struct | .union | .enum | .typedef | .auto | .register => true
  | _ => false

variable {S τ φ : Type} [Store S τ φ]

def atDeclaration : ReaderOf S Bool := do
  match ← peekKind with
  | .keyword k => return k.startsDeclaration || isUnsupportedSpecifier k
  | _ => return false

def atTypeName : ReaderOf S Bool := do
  match ← peekKind with
  | .keyword .static | .keyword .external => return false
  | _ => atDeclaration

/-- Specifiers as they are written. -/
structure Specifiers where
  linkage : Linkage := .plain
  /-- The words of the type, newest first. -/
  words : List Keyword := []

def storageClass (allowed : Bool) (k : Keyword) (given : Linkage) (s : Specifiers) : ReaderOf S Specifiers := do
  if !allowed then fail (.storageNotAllowed k)
  else
    match s.linkage.join? given with
    | none => fail .conflictingStorage
    | some linkage =>
      let _ ← advance
      return { s with linkage }

def specifierWords (storage : Bool) : Nat → Specifiers → ReaderOf S Specifiers
  | 0, _ => tooDeep
  | depth + 1, s => do
    match ← peekKind with
    | .keyword k =>
      match k with
      | .static => specifierWords storage depth (← storageClass storage k .static s)
      | .external => specifierWords storage depth (← storageClass storage k .external s)
      | .const | .volatile =>
        let _ ← advance
        specifierWords storage depth s
      | _ =>
        if typeWords.contains k then
          let _ ← advance
          specifierWords storage depth { s with words := k :: s.words }
        else if isUnsupportedSpecifier k then fail (.unsupportedSpecifier k)
        else return s
    | _ => return s

def specifiers (storage : Bool) (depth : Nat) : ReaderOf S (Linkage × τ) := do
  let loc ← here
  let s ← specifierWords storage depth {}
  if s.words.isEmpty then failExpected .typeSpecifier
  else
    match baseNode? s.words with
    | some node => return (s.linkage, ← Store.make (node.map Empty.elim))
    | none => failAt .invalidSpecifiers loc

theorem specifiers_eq (storage : Bool) (depth : Nat) : specifiers storage depth = (do
    let loc ← here
    let s ← specifierWords storage depth {}
    if s.words.isEmpty then failExpected .typeSpecifier
    else
      match baseType? s.words with
      | some type => return (s.linkage, type)
      | none => failAt .invalidSpecifiers loc : Reader (Linkage × CType)) := by
  unfold specifiers
  refine bind_congr fun loc => bind_congr fun s => ?_
  congr 1
  unfold baseType?
  cases baseNode? s.words with
  | none => rfl
  | some node =>
    cases node with
    | function result => exact result.elim
    | pointer target => exact target.elim
    | array element => exact element.elim
    | void | integral | floating => rfl

end Cof.Grammar
