/-
  A variable that is created before it is used, whichever way is taken through code.

  `CreatedFirst` says this of one variable and all paths.  As for variables that are written before they
  are read, it is shown by a certificate: what each label promises whoever arrives there, which for one
  variable is no more than whether it was created.  Down the text this is carried from instruction to
  instruction.  An instruction is *guarded* if it names the variable only where the variable was created,
  and if no label that it leads to promises too much.
-/
import Cof.Proofs.Decimal
import Cof.Proofs.Paths

namespace Cof

open List

namespace Instr

def CreatedAt (code : List Instr) (passed : List Nat) (id : UInt32) : Prop :=
  ∃ m ∈ passed, ∃ j, code[m]? = some j ∧ j.created? = some id

instance decidableCreatedAt (code : List Instr) (passed : List Nat) (id : UInt32) :
    Decidable (CreatedAt code passed id) :=
  decidable_of_iff (∃ m ∈ passed, code[m]?.bind Instr.created? = some id)
    (by simp only [CreatedAt, Option.bind_eq_some_iff])

/-- On every path, an instruction that names a variable creates it or comes behind one that does. -/
def CreatedFirst (code : List Instr) (id : UInt32) : Prop :=
  ∀ passed n i, Path code passed n → code[n]? = some i → id ∈ i.names → i.created? = some id ∨ CreatedAt code passed id

variable {code : List Instr} {id : UInt32}

theorem CreatedAt.later {passed : List Nat} (n : Nat)
    (h : CreatedAt code passed id) : CreatedAt code (n :: passed) id := by
  obtain ⟨m, mem, creates⟩ := h
  exact ⟨m, mem_cons_of_mem _ mem, creates⟩

theorem CreatedFirst.normal (h : CreatedFirst code id) : CreatedFirst (code.map Instr.normal) id := by
  intro passed n i path here names
  rw [List.getElem?_map, Option.map_eq_some_iff] at here
  obtain ⟨i, here, rfl⟩ := here
  rw [normal_names] at names
  rw [normal_created?]
  refine (h passed n i path.of_normal here names).imp_right ?_
  rintro ⟨m, mem, j, there, creates⟩
  refine ⟨m, mem, j.normal, ?_, ?_⟩
  · rw [List.getElem?_map, there, Option.map_some]
  · rw [normal_created?, creates]

/-! ## Certificates -/

section Certificates

variable (Λ : Int32 → Prop) (id : UInt32)

/-- Whether the variable was created behind an instruction, if `d` says so in front of it.  No path comes
from a jump or a `ret`. -/
def createdBehind (d : Prop) (i : Instr) : Prop :=
  match i.definedLabel? with
  | some l => Λ l
  | none => d ∨ (i.opcode = .jmp ∨ i.opcode = .ret) ∨ i.created? = some id

def createdAfter (d : Prop) (code : List Instr) : Prop := code.foldl (createdBehind Λ id) d

/-- An instruction that names the variable where it was created, and leads to labels that promise no more
than is known. -/
structure Guarded (d : Prop) (i : Instr) : Prop where
  names : id ∈ i.names → d ∨ i.created? = some id
  targets : ∀ l ∈ i.targets, Λ l → d
  label : ∀ l, i.definedLabel? = some l → (Λ l → d) ∧ (id ∈ i.names → Λ l)

def AllGuarded : Prop → List Instr → Prop
  | _, [] => True
  | d, i :: rest => Guarded Λ id d i ∧ AllGuarded (createdBehind Λ id d i) rest

variable {Λ id}

variable {d V W : Prop} {i : Instr} {l : Int32} {part part' code : List Instr} {n : Nat}

theorem createdBehind_label (defines : i.definedLabel? = some l) : createdBehind Λ id d i ↔ Λ l := by
  simp only [createdBehind, defines]

theorem createdBehind_other (other : i.definedLabel? = none) :
    createdBehind Λ id d i ↔ d ∨ (i.opcode = .jmp ∨ i.opcode = .ret) ∨ i.created? = some id := by
  simp only [createdBehind, other]

theorem allGuarded_append : AllGuarded Λ id d (part ++ part') ↔
      AllGuarded Λ id d part ∧ AllGuarded Λ id (createdAfter Λ id d part) part' := by
  induction part generalizing d with
  | nil => simp [AllGuarded, createdAfter]
  | cons i part ih => exact (and_congr_right' ih).trans and_assoc.symm

theorem createdAfter_append :
    createdAfter Λ id d (part ++ part') = createdAfter Λ id (createdAfter Λ id d part) part' :=
  foldl_append

theorem AllGuarded.get (h : AllGuarded Λ id d code) (here : code[n]? = some i) :
    Guarded Λ id (createdAfter Λ id d (code.take n)) i ∧ createdAfter Λ id d (code.take (n + 1)) =
        createdBehind Λ id (createdAfter Λ id d (code.take n)) i := by
  induction code generalizing d n with
  | nil => cases here
  | cons j code ih =>
    cases n with
    | zero =>
      obtain rfl := Option.some.inj here
      exact ⟨h.1, rfl⟩
    | succ n => exact ih h.2 here

theorem AllGuarded.certificate (guarded : AllGuarded Λ id False code) :
    Certificate code (fun n => createdAfter Λ id False (code.take n)) Λ (CreatedAt code · id) where
  start := False.elim
  later n created := created.later n
  label here defines := by
    obtain ⟨guard, behind⟩ := guarded.get here
    rw [behind, createdBehind_label defines]
    exact ⟨(·), (guard.label _ defines).1⟩
  next here other falls known := by
    rw [(guarded.get here).2, createdBehind_other other] at known
    rcases known with before | away | creates
    · exact .inl before
    · exact absurd away (not_or.2 falls)
    · exact .inr ⟨_, mem_cons_self .., _, here, creates⟩
  targets here := (guarded.get here).1.targets _

theorem createdFirst_of_allGuarded (guarded : AllGuarded Λ id False code) : CreatedFirst code id := by
  intro passed n i path here names
  have guard := (guarded.get here).1
  rcases guarded.certificate.carried path with carried | ⟨j, l, there, defines, promised⟩
  · exact (guard.names names).symm.imp_right carried
  · obtain rfl : j = i := Option.some.inj (there.symm.trans here)
    exact .inr (promised ((guard.label l defines).2 names))

/-! ## Parts of code -/

/-- Code into which `V` is carried at least is guarded, and `W` is carried out of it. -/
def Guides (Λ : Int32 → Prop) (id : UInt32) (V : Prop) (part : List Instr) (W : Prop) : Prop :=
  ∀ d, (V → d) → AllGuarded Λ id d part ∧ (W → createdAfter Λ id d part)

theorem guides_nil : Guides Λ id V [] V := fun _ carried => ⟨trivial, carried⟩

theorem Guides.append {X : Prop} (h : Guides Λ id V part W)
    (h' : Guides Λ id W part' X) : Guides Λ id V (part ++ part') X := by
  intro d carried
  obtain ⟨guarded, between⟩ := h d carried
  obtain ⟨guarded', after⟩ := h' _ between
  rw [createdAfter_append]
  exact ⟨allGuarded_append.2 ⟨guarded, guarded'⟩, after⟩

theorem Guides.mono {V' W' : Prop} (h : Guides Λ id V part W) (before : V → V')
    (after : W' → W) : Guides Λ id V' part W' := by
  intro d carried
  obtain ⟨guarded, behind⟩ := h d fun v => carried (before v)
  exact ⟨guarded, fun w => behind (after w)⟩

/-- Code that names the variable only if it was created before, and whose labels promise just that. -/
theorem guides_quiet (names : ∀ i ∈ part, id ∈ i.names → V)
    (defines : ∀ i ∈ part, ∀ l, i.definedLabel? = some l → (Λ l ↔ V))
    (targets : ∀ i ∈ part, ∀ l ∈ i.targets, Λ l → V) : Guides Λ id V part V := by
  induction part with
  | nil => exact guides_nil
  | cons i part ih =>
    have rest : Guides Λ id V part V :=
      ih (fun j mem => names j (mem_cons_of_mem _ mem)) (fun j mem => defines j (mem_cons_of_mem _ mem))
        fun j mem => targets j (mem_cons_of_mem _ mem)
    have names := names i (mem_cons_self ..)
    have defines := defines i (mem_cons_self ..)
    have targets := targets i (mem_cons_self ..)
    intro d carried
    have behind : V → createdBehind Λ id d i := by
      intro v
      cases label : i.definedLabel? with
      | some l => exact (createdBehind_label label).2 ((defines l label).2 v)
      | none => exact (createdBehind_other label).2 (.inl (carried v))
    obtain ⟨guarded, after⟩ := rest _ behind
    have guard : Guarded Λ id d i :=
      { names := fun named => .inl (carried (names named))
        targets := fun l target promised => carried (targets l target promised)
        label := fun l label =>
          ⟨fun promised => carried ((defines l label).1 promised), fun named => (defines l label).2 (names named)⟩ }
    exact ⟨⟨guard, guarded⟩, after⟩

theorem guides_plain (opcode : Opcode) : Guides Λ id V [⟨opcode, .none, []⟩] V := by
  refine guides_quiet (forall_mem_singleton.2 fun named => by cases named) ?_ ?_
  · refine forall_mem_singleton.2 fun l label => ?_
    simp [definedLabel?] at label
  · refine forall_mem_singleton.2 fun l target => ?_
    simp [targets, labels] at target

theorem guides_label (promised : Λ l → V) : Guides Λ id V [label l] (Λ l) := by
  intro d carried
  refine ⟨⟨⟨nofun, forall_mem_nil _, fun l' label => ?_⟩, trivial⟩, fun known => ?_⟩
  · obtain rfl : l = l' := Option.some.inj ((definedLabel?_label l).symm.trans label)
    exact ⟨fun known => carried (promised known), nofun⟩
  · exact (createdBehind_label (definedLabel?_label l)).2 known

theorem guides_jump (promised : Λ l → V) : Guides Λ id V [⟨.jmp, .none, [.label l]⟩] V :=
  guides_quiet (forall_mem_singleton.2 fun named => by cases named)
    (forall_mem_singleton.2 fun _ label => by cases label)
    (forall_mem_singleton.2 (forall_mem_singleton.2 promised))

theorem guides_branch {condition : Qualifier} (promised : Λ l → V) : Guides Λ id V [⟨.br, condition, [.label l]⟩] V :=
  guides_quiet (forall_mem_singleton.2 fun named => by cases named)
    (forall_mem_singleton.2 fun _ label => by cases label)
    (forall_mem_singleton.2 (forall_mem_singleton.2 promised))

theorem guides_create (enc : Encoding) (created : UInt32) (size : UInt64) :
    Guides Λ id V [⟨.var, .none, [.var enc created, .size size]⟩] (V ∨ id = created) := by
  intro d carried
  refine ⟨⟨⟨fun named => ?_, forall_mem_nil _, fun l label => by cases label⟩, trivial⟩, ?_⟩
  · obtain rfl := mem_singleton.1 named
    exact .inr rfl
  · rintro (v | rfl)
    · exact .inl (carried v)
    · exact .inr (.inr rfl)

end Certificates

end Instr

end Cof
