/-
  Names with linkage, as a program declares them.

  Such a name may be declared many times, at file scope and in blocks.  Every declaration says for
  itself whether it defines the name and whether it makes it static; `links` lists what the declarations
  of a program say, in order.  What is kept of a name is what all of them say together:

    1. it is kept once, however often it is declared;
    2. it is defined if one of them defines it, and static if one of them says so;
    3. at most one of them defines it.
-/
import Cof.Lowering.Program
import Cof.Proofs.ProgramReaders
import Mathlib.Data.List.Nodup

namespace Cof

open Lowering List

/-! ## What declarations say -/

def FunctionDecl.link (f : FunctionDecl) (defined : Bool) : Global :=
  ⟨f.name, f.type, true, defined, f.linkage = .static⟩

def VarDecl.link (v : VarDecl) (defined isStatic : Bool) : Global := ⟨v.name, v.type, false, defined, isStatic⟩

def VarDecl.isDefinition (v : VarDecl) : Bool := v.linkage ≠ .external || v.init.isSome

def Declaration.blockLinks : Declaration → List Global
  | .proto f => [f.link false]
  | .var v => if v.linkage = .external then [v.link false false] else []

def Declaration.static? : Declaration → Option Name
  | .var v => if v.linkage = .static then some v.name else none
  | .proto _ => none

def TopLevel.links : TopLevel → List Global
  | .declare (.proto f) => [f.link false]
  | .declare (.var v) => [v.link v.isDefinition (v.linkage = .static)]
  | .define f body => f.link true :: (Stmt.allDeclarations body).flatMap Declaration.blockLinks

def Program.links (p : Program) : List Global := p.flatMap TopLevel.links

theorem Program.name_of_link {p : Program} {g : Global} (h : g ∈ p.links) : g.name ∈ p.names := by
  obtain ⟨t, ht, hg⟩ := mem_flatMap.1 h
  refine mem_flatMap.2 ⟨t, ht, ?_⟩
  match t with
  | .declare (.proto f) =>
    obtain rfl := mem_singleton.1 hg
    exact mem_singleton.2 rfl
  | .declare (.var v) =>
    obtain rfl := mem_singleton.1 hg
    exact mem_singleton.2 rfl
  | .define f body =>
    rcases mem_cons.1 hg with rfl | hg
    · exact mem_cons_self ..
    · obtain ⟨d, hd, hg⟩ := mem_flatMap.1 hg
      refine mem_cons_of_mem _ (mem_map.2 ⟨d, hd, ?_⟩)
      cases d with
      | proto f =>
        obtain rfl := mem_singleton.1 hg
        rfl
      | var v =>
        by_cases external : v.linkage = .external
        · rw [Declaration.blockLinks, if_pos external] at hg
          obtain rfl := mem_singleton.1 hg
          rfl
        · rw [Declaration.blockLinks, if_neg external] at hg
          cases hg

namespace Lowering

/-! ## Taking declarations in -/

def Global.again (k g : Global) : Global :=
  if k.name == g.name then
    { k with defined := k.defined || g.defined, isStatic := k.isStatic || g.isStatic }
  else k

def note (known : List Global) (g : Global) : List Global :=
  match known.find? (·.name == g.name) with
  | some _ => known.map (·.again g)
  | none => g :: known

/-- One more declaration is taken in.  It agrees with what is known, and does not define the name a
second time. -/
structure Note (known : List Global) (g : Global) (after : List Global) : Prop where
  after : after = note known g
  agrees : ∀ k, known.find? (·.name == g.name) = some k → k.isFunction = g.isFunction ∧ (k.defined && g.defined) = false

/-- Declarations are taken in one after the other. -/
inductive Notes : List Global → List Global → List Global → Prop
  | nil {known : List Global} : Notes known [] known
  | cons {known mid after links : List Global} {g : Global} (first : Note known g mid)
    (rest : Notes mid links after) : Notes known (g :: links) after

variable {known after : List Global}

theorem Note.notes {g : Global} (h : Note known g after) : Notes known [g] after := .cons h .nil

theorem Notes.append {mid links more : List Global} (h : Notes known links mid)
    (h' : Notes mid more after) : Notes known (links ++ more) after := by
  induction h with
  | nil => exact h'
  | cons first _ ih => exact .cons first (ih h')

@[simp] theorem Global.again_name (k g : Global) : (k.again g).name = k.name := by
  unfold Global.again
  split <;> rfl

@[simp] theorem Global.again_isFunction (k g : Global) : (k.again g).isFunction = k.isFunction := by
  unfold Global.again
  split <;> rfl

theorem Global.again_defined (k g : Global) : (k.again g).defined = (k.defined || (g.name == k.name && g.defined)) := by
  unfold Global.again
  by_cases same : k.name = g.name
  · simp [same]
  · simp [same, Ne.symm same]

theorem Global.again_isStatic (k g : Global) :
    (k.again g).isStatic = (k.isStatic || (g.name == k.name && g.isStatic)) := by
  unfold Global.again
  by_cases same : k.name = g.name
  · simp [same]
  · simp [same, Ne.symm same]

/-! ## What is known in the end -/

/-- What is known of the names that some declarations declare. -/
structure Recorded (links known : List Global) : Prop where
  once : (known.map (·.name)).Nodup
  all : ∀ g ∈ links, ∃ k ∈ known, k.name = g.name
  only : ∀ k ∈ known, ∃ g ∈ links, g.name = k.name
  defined : ∀ k ∈ known, k.defined = links.any fun g => g.name == k.name && g.defined
  isStatic : ∀ k ∈ known, k.isStatic = links.any fun g => g.name == k.name && g.isStatic
  isFunction : ∀ k ∈ known, ∀ g ∈ links, g.name = k.name → g.isFunction = k.isFunction
  definitions : ((links.filter (·.defined)).map (·.name)).Nodup

theorem recorded_nil : Recorded [] [] := ⟨nodup_nil, nofun, nofun, nofun, nofun, nofun, nodup_nil⟩

section Step

variable {links known after : List Global} {g : Global}

theorem Recorded.first (h : Recorded links known) (fresh : ∀ k ∈ known, k.name ≠ g.name) :
    Recorded (links ++ [g]) (g :: known) := by
  have unlinked : ∀ l ∈ links, l.name ≠ g.name := by
    intro l hl same
    obtain ⟨k, hk, named⟩ := h.all l hl
    exact fresh k hk (named.trans same)
  have quiet : ∀ f : Global → Bool, (links.any fun l => l.name == g.name && f l) = false := by
    intro f
    rw [any_eq_false]
    intro l hl
    simp [unlinked l hl]
  have kept : ∀ k ∈ known, ∀ f : Global → Bool, ((links ++ [g]).any fun l => l.name == k.name && f l) =
      links.any fun l => l.name == k.name && f l := by
    intro k hk f
    simp [Ne.symm (fresh k hk)]
  refine ⟨?_, ?_, ?_, ?_, ?_, ?_, ?_⟩
  · refine nodup_cons.2 ⟨fun mem => ?_, h.once⟩
    obtain ⟨k, hk, same⟩ := mem_map.1 mem
    exact fresh k hk same
  · intro l hl
    rcases mem_append.1 hl with hl | hl
    · obtain ⟨k, hk, same⟩ := h.all l hl
      exact ⟨k, mem_cons_of_mem _ hk, same⟩
    · obtain rfl := mem_singleton.1 hl
      exact ⟨l, mem_cons_self .., rfl⟩
  · intro k hk
    rcases mem_cons.1 hk with rfl | hk
    · exact ⟨k, mem_append_right _ (mem_singleton.2 rfl), rfl⟩
    · obtain ⟨l, hl, same⟩ := h.only k hk
      exact ⟨l, mem_append_left _ hl, same⟩
  · intro k hk
    rcases mem_cons.1 hk with rfl | hk
    · simp [quiet]
    · rw [kept k hk, h.defined k hk]
  · intro k hk
    rcases mem_cons.1 hk with rfl | hk
    · simp [quiet]
    · rw [kept k hk, h.isStatic k hk]
  · intro k hk l hl same
    rcases mem_cons.1 hk with rfl | hk <;> rcases mem_append.1 hl with old | new
    · exact absurd same (unlinked l old)
    · rw [mem_singleton.1 new]
    · exact h.isFunction k hk l old same
    · rw [mem_singleton.1 new] at same
      exact absurd same.symm (fresh k hk)
  · rw [filter_append, map_append]
    refine List.Nodup.append h.definitions ?_ ?_
    · by_cases defines : g.defined = true <;> simp [defines]
    · intro name first second
      obtain ⟨l, hl, rfl⟩ := mem_map.1 first
      obtain ⟨l', hl', same⟩ := mem_map.1 second
      obtain rfl := mem_singleton.1 (mem_filter.1 hl').1
      exact unlinked l (mem_filter.1 hl).1 same.symm

theorem Recorded.again (h : Recorded links known) {k₀ : Global} (mem : k₀ ∈ known)
    (named : k₀.name = g.name) (kind : k₀.isFunction = g.isFunction)
    (single : (k₀.defined && g.defined) = false) : Recorded (links ++ [g]) (known.map (·.again g)) := by
  have more : ∀ (f : Global → Bool) (name : Name),
      ((links ++ [g]).any fun l => l.name == name && f l) =
        ((links.any fun l => l.name == name && f l) || (g.name == name && f g)) := by
    intro f name
    simp
  refine ⟨?_, ?_, ?_, ?_, ?_, ?_, ?_⟩
  · rw [map_map]
    have same : (fun k : Global => k.name) ∘ (fun k : Global => k.again g) = fun k => k.name :=
      funext fun k => k.again_name g
    rw [same]
    exact h.once
  · intro l hl
    rcases mem_append.1 hl with hl | hl
    · obtain ⟨k, hk, same⟩ := h.all l hl
      exact ⟨k.again g, mem_map_of_mem hk, (k.again_name g).trans same⟩
    · obtain rfl := mem_singleton.1 hl
      exact ⟨k₀.again l, mem_map_of_mem mem, (k₀.again_name l).trans named⟩
  · intro _ mem'
    obtain ⟨k, hk, rfl⟩ := mem_map.1 mem'
    obtain ⟨l, hl, same⟩ := h.only k hk
    exact ⟨l, mem_append_left _ hl, same.trans (k.again_name g).symm⟩
  · intro _ mem'
    obtain ⟨k, hk, rfl⟩ := mem_map.1 mem'
    rw [Global.again_name, more, Global.again_defined, h.defined k hk]
  · intro _ mem'
    obtain ⟨k, hk, rfl⟩ := mem_map.1 mem'
    rw [Global.again_name, more, Global.again_isStatic, h.isStatic k hk]
  · intro _ mem' l hl same
    obtain ⟨k, hk, rfl⟩ := mem_map.1 mem'
    rw [Global.again_name] at same
    rw [Global.again_isFunction]
    rcases mem_append.1 hl with hl | hl
    · exact h.isFunction k hk l hl same
    · obtain rfl := mem_singleton.1 hl
      -- Names are kept once, so this is the one that was found.
      obtain rfl := inj_on_of_nodup_map h.once hk mem (same.symm.trans named.symm)
      exact kind.symm
  · rw [filter_append, map_append]
    refine List.Nodup.append h.definitions ?_ ?_
    · by_cases defines : g.defined = true <;> simp [defines]
    · intro name first second
      obtain ⟨l, hl, rfl⟩ := mem_map.1 first
      obtain ⟨l', hl', same⟩ := mem_map.1 second
      obtain ⟨hl, defined⟩ := mem_filter.1 hl
      obtain ⟨hl', defined'⟩ := mem_filter.1 hl'
      obtain rfl := mem_singleton.1 hl'
      have before : k₀.defined = true := by
        rw [h.defined k₀ mem, any_eq_true]
        exact ⟨l, hl, by simp [← same, named, defined]⟩
      rw [before, defined'] at single
      cases single

theorem Recorded.note (h : Recorded links known) (step : Note known g after) : Recorded (links ++ [g]) after := by
  obtain ⟨rfl, agrees⟩ := step
  unfold Lowering.note
  cases found : known.find? (·.name == g.name) with
  | none =>
    refine h.first fun k hk same => ?_
    simpa [same] using find?_eq_none.1 found k hk
  | some k =>
    obtain ⟨kind, single⟩ := agrees k found
    have named : k.name = g.name := by simpa using find?_some found
    exact h.again (mem_of_find?_eq_some found) named kind single

theorem Notes.recorded (h : Notes [] links known) : Recorded links known := by
  suffices general : ∀ {before start more finish}, Recorded before start → Notes start more finish →
      Recorded (before ++ more) finish from general recorded_nil h
  intro before start more finish start_recorded steps
  induction steps generalizing before with
  | nil => simpa using start_recorded
  | cons first _ ih => simpa using ih (start_recorded.note first)

end Step

end Lowering

end Cof
