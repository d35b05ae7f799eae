/-
  Numbers of types are canonical.

  An arena is used by calls that ask for a layer over numbers it has returned, or for the decayed type under
  such a number.  Every call either changes nothing or interns one layer over known numbers
  (`Call.run_cases`), so that an arena in use is in order, has no entry twice, and has returned only numbers
  of its entries (`Usage.Sound`).
-/
import Cof.Proofs.Interned
import Mathlib.Data.List.Nodup

namespace Cof

open List

/-- Layers that unfold to one type are one layer, if their parts are told apart. -/
theorem TypeNode.unfold_inj {f : UInt32 → CType} {node node' : TypeNode UInt32}
    (parts : ∀ n ∈ node.parts, ∀ n' ∈ node'.parts, f n = f n' → n = n') (same : node.unfold f = node'.unfold f) :
    node = node' := by
  cases node <;> cases node' <;> injection same
  case void.void => rfl
  case integral.integral width signed => rw [width, signed]
  case floating.floating width => rw [width]
  case pointer.pointer target target' types =>
    rw [parts target (mem_singleton_self _) target' (mem_singleton_self _) types]
  case array.array element size element' size' types sizes =>
    rw [parts element (mem_singleton_self _) element' (mem_singleton_self _) types, sizes]
  case function.function result params variadic result' params' variadic' results types flags =>
    have long : params.length = params'.length := by simpa using congrArg List.length types
    have given : params = params' := by
      refine ext_getElem long fun i hi hi' => ?_
      refine parts _ (mem_cons_of_mem _ (List.getElem_mem hi)) _ (mem_cons_of_mem _ (List.getElem_mem hi')) ?_
      have place : (params.map f)[i]? = (params'.map f)[i]? := by rw [types]
      simpa [hi, hi'] using place
    rw [parts result mem_cons_self result' mem_cons_self results, given, flags]

namespace Arena

variable {a b : Arena} {handle handle' : UInt32} {node : TypeNode UInt32}

/-- An arena in order, with no entry twice. -/
structure Canonical (a : Arena) : Prop where
  ordered : a.Ordered
  distinct : a.nodes.Nodup

theorem Canonical.tree_inj (h : a.Canonical) (known : a.Has handle) (known' : a.Has handle')
    (same : a.tree handle = a.tree handle') : handle = handle' := by
  induction number : handle.toNat using Nat.strongRecOn generalizing handle handle' with
  | ind _ ih =>
    subst number
    obtain ⟨node, entry⟩ := known.exists_node?
    obtain ⟨node', entry'⟩ := known'.exists_node?
    rw [tree_eq h.ordered entry, tree_eq h.ordered entry'] at same
    have layers : node = node' := by
      refine TypeNode.unfold_inj (fun n mem n' mem' types => ?_) same
      exact ih _ (h.ordered.part_lt entry mem) (h.ordered.has_part entry mem) (h.ordered.has_part entry' mem') types rfl
    subst layers
    obtain ⟨_, first⟩ := List.getElem?_eq_some_iff.1 entry
    obtain ⟨_, second⟩ := List.getElem?_eq_some_iff.1 entry'
    exact UInt32.toNat_inj.1 ((List.Nodup.getElem_inj_iff h.distinct).1 (first.trans second.symm))

theorem Canonical.intern (h : a.Canonical) (known : ∀ part ∈ node.parts, a.Has part) : (a.intern node).2.Canonical := by
  have entered := intern_spec h.ordered known
  refine ⟨entered.ordered, ?_⟩
  unfold Arena.intern
  cases found : a.nodes.idxOf? node with
  | some old => exact h.distinct
  | none =>
    have new : node ∉ a.nodes := by simpa using found
    exact nodup_append'.2 ⟨h.distinct, nodup_singleton _, by simpa using new⟩

/-! ## Calls -/

/-- What is asked of an arena: a layer, or the type of a value. -/
inductive Call where
  | layer (node : TypeNode UInt32)
  | decay (handle : UInt32)
deriving DecidableEq, Repr

namespace Call

def given : Call → List UInt32
  | layer node => node.parts
  | decay handle => [handle]

def type (a : Arena) : Call → CType
  | layer node => node.unfold a.tree
  | decay handle => (a.tree handle).decay

def run (a : Arena) : Call → UInt32 × Arena
  | layer node => a.intern node
  | decay handle => a.decay handle

/-- A call gives back what it was given, or interns a layer over known numbers. -/
theorem run_cases (c : Call) (ordered : a.Ordered) (known : ∀ n ∈ c.given, a.Has n) :
    (∃ n ∈ c.given, c.run a = (n, a) ∧ a.tree n = c.type a) ∨
      ∃ node, c.run a = a.intern node ∧ (∀ part ∈ node.parts, a.Has part) ∧ node.unfold a.tree = c.type a := by
  cases c with
  | layer node => exact .inr ⟨node, rfl, known, rfl⟩
  | decay handle =>
    have inside : a.Has handle := known handle (mem_singleton_self _)
    obtain ⟨node, entry⟩ := inside.exists_node?
    show (∃ n ∈ [handle], a.decay handle = (n, a) ∧ a.tree n = (a.tree handle).decay) ∨
      ∃ node, a.decay handle = a.intern node ∧ _ ∧ node.unfold a.tree = (a.tree handle).decay
    rw [Arena.decay, entry, tree_eq ordered entry]
    cases node with
    | array element size =>
      have part : a.Has element := ordered.has_part entry (mem_singleton_self _)
      exact .inr ⟨.pointer element, rfl, forall_mem_singleton.2 part, rfl⟩
    | function result params variadic =>
      refine .inr ⟨.pointer handle, rfl, forall_mem_singleton.2 inside, ?_⟩
      show CType.pointer (a.tree handle) = _
      rw [tree_eq ordered entry]
      rfl
    | void | integral | floating | pointer =>
      refine .inl ⟨handle, mem_singleton_self _, rfl, ?_⟩
      rw [tree_eq ordered entry]
      rfl

end Call

/-- An arena in use, and the numbers it has returned, the last one first. -/
structure Usage where
  arena : Arena
  returned : List UInt32
deriving DecidableEq, Repr

namespace Usage

variable {u v : Usage} {c : Call} {cs : List Call}

def new : Usage := ⟨.empty, []⟩

def call (u : Usage) (c : Call) : Option Usage :=
  if c.given ⊆ u.returned then some ⟨(c.run u.arena).2, (c.run u.arena).1 :: u.returned⟩ else none

def calls (u : Usage) (cs : List Call) : Option Usage := cs.foldlM call u

/-- A canonical arena that has returned numbers of its entries. -/
structure Sound (u : Usage) : Prop extends u.arena.Canonical where
  returned : ∀ n ∈ u.returned, u.arena.Has n

/-- What has come about between two moments of use. -/
structure Follows (u v : Usage) : Prop where
  sound : v.Sound
  keeps : u.arena.Extends v.arena
  returned : u.returned ⊆ v.returned

theorem Sound.call (h : u.Sound) (made : u.call c = some v) : Follows u v ∧
    ∃ handle, v.returned = handle :: u.returned ∧ (v.arena.Small → v.arena.tree handle = c.type u.arena) := by
  unfold Usage.call at made
  split at made
  case isFalse => cases made
  case isTrue given =>
    obtain rfl := Option.some.inj made
    have known : ∀ n ∈ c.given, u.arena.Has n := fun n hn => h.returned n (given hn)
    rcases c.run_cases h.ordered known with ⟨n, hn, run, type⟩ | ⟨node, run, parts, type⟩
    · rw [run]
      refine ⟨⟨⟨h.toCanonical, ?_⟩, .refl _, subset_cons_self ..⟩, n, rfl, fun _ => type⟩
      exact forall_mem_cons.2 ⟨known n hn, h.returned⟩
    · rw [run]
      have entered := intern_spec h.ordered parts
      refine ⟨⟨⟨h.toCanonical.intern parts, ?_⟩, entered.keeps, subset_cons_self ..⟩, _, rfl, fun small => ?_⟩
      · exact forall_mem_cons.2 ⟨entered.has, fun n mem => (h.returned n mem).of_extends entered.keeps⟩
      · exact (entered.tree h.ordered parts small).trans type

theorem Sound.calls (h : u.Sound) (made : u.calls cs = some v) : Follows u v := by
  induction cs generalizing u with
  | nil =>
    obtain rfl := Option.some.inj made
    exact ⟨h, .refl _, Subset.refl _⟩
  | cons c cs ih =>
    rw [Usage.calls, foldlM_cons, Option.bind_eq_bind, Option.bind_eq_some_iff] at made
    obtain ⟨t, first, rest⟩ := made
    have step := (h.call first).1
    have more := ih step.sound rest
    exact ⟨more.sound, step.keeps.trans more.keeps, List.Subset.trans step.returned more.returned⟩

theorem sound_new : new.Sound where
  ordered := ordered_empty
  distinct := nodup_nil
  returned := forall_mem_nil _

/-- Numbers of types are canonical: the parts of an entry have smaller numbers, and the type under the number
is made of theirs; equal numbers are equal types; and no call changes the type under a number, while it
returns a number of the type it asks for as long as there are no more entries than numbers. -/
theorem numbers_canonical (made : new.calls cs = some u) :
    (∀ handle ∈ u.returned, ∃ node, u.arena.node? handle = some node ∧ (∀ part ∈ node.parts, part < handle) ∧
      u.arena.tree handle = node.unfold u.arena.tree) ∧
    (∀ handle ∈ u.returned, ∀ handle' ∈ u.returned,
      handle = handle' ↔ u.arena.tree handle = u.arena.tree handle') ∧
    (∀ later v, u.calls later = some v → ∀ handle ∈ u.returned,
      handle ∈ v.returned ∧ v.arena.tree handle = u.arena.tree handle) ∧
    ∀ c v, u.call c = some v → ∃ handle, v.returned = handle :: u.returned ∧
      (v.arena.nodes.length ≤ 2 ^ 32 → v.arena.tree handle = c.type u.arena) := by
  have sound : u.Sound := (sound_new.calls made).sound
  refine ⟨fun handle hh => ?_, fun handle hh handle' hh' => ⟨congrArg _, ?_⟩, fun later v more handle hh => ?_,
    fun c v next => (sound.call next).2⟩
  · obtain ⟨node, entry⟩ := (sound.returned handle hh).exists_node?
    refine ⟨node, entry, fun part mem => ?_, tree_eq sound.ordered entry⟩
    exact UInt32.lt_iff_toNat_lt.2 (sound.ordered.part_lt entry mem)
  · exact sound.tree_inj (sound.returned handle hh) (sound.returned handle' hh')
  · have follows := sound.calls more
    refine ⟨follows.returned hh, ?_⟩
    exact tree_of_extends sound.ordered follows.sound.ordered follows.keeps (sound.returned handle hh)

/-- The same holds after an array of `char`, its decayed type and that of a variadic function on it. -/
theorem numbers_canonical_variadic :
    let cs := [.layer (.integral .w8 true), .layer (.array 0 (.fixed 3)), .decay 1, .layer (.function 2 [0, 2] true), .decay 3]
    ∃ u, new.calls cs = some u ∧ u.returned = [4, 3, 2, 1, 0] ∧
      (∀ handle ∈ u.returned, ∀ handle' ∈ u.returned,
        handle = handle' ↔ u.arena.tree handle = u.arena.tree handle') := by
  intro cs
  obtain ⟨u, made⟩ : ∃ u, new.calls cs = some u := Option.isSome_iff_exists.1 (by decide)
  have five : (new.calls cs).map (·.returned) = some [4, 3, 2, 1, 0] := by decide
  rw [made] at five
  exact ⟨u, made, Option.some.inj five, (numbers_canonical made).2.1⟩

end Usage

end Arena

end Cof
