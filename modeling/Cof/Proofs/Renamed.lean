/-
  Names of automatic variables do not reach the module.

  A program declares names of two sorts.  Some are for the module: what is declared at file scope, and in
  blocks functions, `extern` variables and statics.  The others are for automatic variables and parameters,
  and only say which of them is meant.

  So let names be changed, different ones into different ones, and those of the first sort not at all.
  The code stays what it was, and the symbols; if there was an error, it is there again at the same
  position, about the new name.
-/
import Cof.Proofs.RelabeledCode
import Mathlib.Logic.Equiv.Basic

namespace Cof

open Lowering List

/-! ## Names for the module -/

def Declaration.moduleNames : Declaration → List Name
  | .proto f => [f.name]
  | .var v => if v.linkage = .plain then [] else [v.name]

def TopLevel.moduleNames : TopLevel → List Name
  | .declare d => [d.name]
  | .define f body => f.name :: (Stmt.allDeclarations body).flatMap Declaration.moduleNames

/-- The names that a program declares other than for automatic variables and parameters. -/
def Program.moduleNames (p : Program) : List Name := p.flatMap TopLevel.moduleNames

/-! ## Renaming -/

def Relabeling.renaming (r : Name → Name) (injective : Function.Injective r) : Relabeling := ⟨id, r, injective⟩

/-- A program with other names, in declarations and where they are used. -/
def Program.rename (p : Program) (r : Name → Name) (injective : Function.Injective r) : Program :=
  p.relabel (.renaming r injective)

section Keeps

variable {ρ : Relabeling}

/-- A variable of a block that is plain and no function has no part in the module. -/
theorem Declaration.keeps {d : Declaration} (wellFormed : d.WellFormed)
    (fixes : ∀ name ∈ d.moduleNames, ρ.name name = name) : ρ.Keeps d := by
  cases d with
  | proto f => exact fixes f.name (mem_singleton_self _)
  | var v =>
    -- What has a function type is read as a prototype.
    have notFunction := VarDecl.WellFormed.notFunction wellFormed
    rintro (linkage | isFunction)
    · refine fixes v.name ?_
      rw [Declaration.moduleNames, if_neg linkage]
      exact mem_singleton_self _
    · rw [notFunction] at isFunction
      cases isFunction

theorem Param.keeps {p : Param} (named : p.name.isSome = true) (scalar : p.type.isScalar = true) : ρ.KeepsParam p := by
  obtain ⟨name, type⟩ := p
  obtain ⟨name, rfl⟩ := Option.isSome_iff_exists.1 named
  refine ⟨rfl, fun isFunction => ?_⟩
  cases type <;> cases isFunction
  cases scalar

theorem Program.keeps {p : Program} (wellFormed : p.WellFormed) (named : p.Named)
    (fixes : ∀ name ∈ p.moduleNames, ρ.name name = name) : ∀ t ∈ p, ρ.KeepsItem t := by
  intro t mem
  have here : ∀ name ∈ t.moduleNames, ρ.name name = name := fun name listed =>
    fixes name (mem_flatMap.2 ⟨t, mem, listed⟩)
  cases t with
  | declare d => exact here d.name (mem_singleton_self _)
  | define f body =>
    have function : f.WellFormed := wellFormed _ mem (.proto f) (mem_cons_self ..)
    refine ⟨here f.name (mem_cons_self ..), fun param listed => ?_, fun d listed => ?_⟩
    · exact Param.keeps (named f body mem param listed) (function.params param listed)
    · refine Declaration.keeps (wellFormed _ mem d (mem_cons_of_mem _ listed)) fun name mine => ?_
      exact here name (mem_cons_of_mem _ (mem_flatMap.2 ⟨d, listed, mine⟩))

end Keeps

def LowerError.variant : LowerError → Option Nat
  | .fault cause _ => some cause.ctorIdx
  | .write _ => none

theorem LowerError.variant_relabel {ρ : Relabeling} (e : LowerError) : (e.relabel ρ).variant = e.variant := by
  cases e with
  | write cause => rfl
  | fault cause loc => cases cause <;> rfl

/-- Let names be changed that are not for the module.  Then the program has code if it had, the same code
with the same symbols, or it has the same error at the same position, about the new names. -/
theorem program_rename {source : Bytes} {p : Program} (parsed : Program.parse source = .ok p)
    {r : Name → Name} (injective : Function.Injective r) (fixes : ∀ name ∈ p.moduleNames, r name = name) :
    (∃ s s', program p {} = .ok () s ∧ program (p.rename r injective) {} = .ok () s' ∧
      s'.code = s.code ∧ s'.symbols = s.symbols ∧
      s'.module (p.rename r injective).entryPoint = s.module p.entryPoint) ∨
    ∃ e e' s s', program p {} = .error e s ∧ program (p.rename r injective) {} = .error e' s' ∧
      e'.variant = e.variant ∧ e'.loc? = e.loc? ∧ e' = e.relabel (.renaming r injective) := by
  have keeps : ∀ t ∈ p, (Relabeling.renaming r injective).KeepsItem t :=
    Program.keeps (Program.wellFormed_of_parse parsed) (Program.named_of_parse parsed) fixes
  have renamed : program (p.rename r injective) {} =
      relabelResult (.renaming r injective) (program p {}) := program_relabel keeps
  rw [renamed]
  cases run : program p {} with
  | ok u s =>
    left
    refine ⟨s, s.relabel (.renaming r injective), rfl, rfl, rfl, rfl, ?_⟩
    have entry : (p.rename r injective).entryPoint = p.entryPoint := Program.entryPoint_relabel keeps
    rw [entry]
    rfl
  | error e s =>
    right
    refine ⟨e, e.relabel (.renaming r injective), s, _, rfl, rfl, e.variant_relabel, ?_, rfl⟩
    cases e <;> rfl

/-- Two variables exchange their names. -/
theorem program_rename_swap :
    ∃ p, Program.parse (ascii "int f(int a)\x7bint b=a;return b;\x7d") = .ok p ∧
      (p.rename (Equiv.swap (ascii "a") (ascii "b")) (Equiv.injective _)).names = [ascii "f", ascii "a"] ∧
      p.names = [ascii "f", ascii "b"] ∧
      ∃ s s', program p {} = .ok () s ∧
        program (p.rename (Equiv.swap (ascii "a") (ascii "b")) (Equiv.injective _)) {} = .ok () s' ∧
        s'.code = s.code ∧ s'.symbols = s.symbols := by
  have computed : (Program.parse (ascii "int f(int a)\x7bint b=a;return b;\x7d")).toOption.any (fun p =>
      decide (p.moduleNames = [ascii "f"] ∧ p.names = [ascii "f", ascii "b"] ∧
        (p.rename (Equiv.swap (ascii "a") (ascii "b")) (Equiv.injective _)).names = [ascii "f", ascii "a"]) &&
      match program p {} with
      | .ok .. => true
      | .error .. => false) = true := by decide +kernel
  obtain ⟨p, parsed, holds⟩ := ok_of_any computed
  rw [Bool.and_eq_true, decide_eq_true_eq] at holds
  obtain ⟨⟨names, before, after⟩, succeeds⟩ := holds
  have fixes : ∀ name ∈ p.moduleNames, Equiv.swap (ascii "a") (ascii "b") name = name := by
    rw [names]
    exact List.forall_mem_singleton.2 (by decide)
  rcases program_rename parsed (Equiv.injective _) fixes with ⟨s, s', run, run', code, symbols, _⟩ | failed
  · exact ⟨p, parsed, after, before, s, s', run, run', code, symbols⟩
  · obtain ⟨e, e', s, s', run, _⟩ := failed
    simp [run] at succeeds

end Cof
