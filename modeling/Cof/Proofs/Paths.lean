/-
  Variables that are written before they are read, whichever way is taken through code.

  A path goes from instruction to instruction: to the next one, unless the instruction jumps away or
  returns, or to where a label is defined that the instruction may go to.  It keeps the places it has
  passed.  `DefinedFirst` says of code that on every path from its start a variable that is read, and
  that no instruction of the code creates, was written at a place passed before.
-/
import Cof.Proofs.Decoded
import Mathlib.Data.Set.Basic

namespace Cof

open List

/-! ## Reading and writing -/

def Opcode.writes : Opcode → Bool
  | .mov | .load | .lea | .cvt | .add | .sub | .mul | .div | .mod | .neg => true
  | .and | .or | .xor | .not | .shl | .shr | .result => true
  | _ => false

def Operand.id? : Operand → Option UInt32
  | .var _ id => some id
  | _ => none

@[simp] theorem Operand.normal_id? (o : Operand) : o.normal.id? = o.id? := by
  cases o <;> rfl

namespace Instr

def destination? (i : Instr) : Option UInt32 := if i.opcode.writes then i.operands.head?.bind Operand.id? else none

def created? (i : Instr) : Option UInt32 := if i.opcode = .var then i.operands.head?.bind Operand.id? else none

/-- The variables that an instruction reads: all that it names, but for the one that it writes or
creates. -/
def reads (i : Instr) : List UInt32 :=
  if i.opcode.writes = true ∨ i.opcode = .var then i.operands.tail.filterMap Operand.id?
  else i.operands.filterMap Operand.id?

@[simp] theorem normal_destination? (i : Instr) : i.normal.destination? = i.destination? := by
  obtain ⟨opcode, qualifier, operands⟩ := i
  cases operands <;> simp [normal, destination?]

@[simp] theorem normal_created? (i : Instr) : i.normal.created? = i.created? := by
  obtain ⟨opcode, qualifier, operands⟩ := i
  cases operands <;> simp [normal, created?]

@[simp] theorem normal_reads (i : Instr) : i.normal.reads = i.reads := by
  have same : Operand.id? ∘ Operand.normal = Operand.id? := funext Operand.normal_id?
  have whole : ∀ os : List Operand, (os.map Operand.normal).filterMap Operand.id? = os.filterMap Operand.id? := by
    intro os
    rw [filterMap_map, same]
  show (if i.opcode.writes = true ∨ i.opcode = .var then
    (i.operands.map Operand.normal).tail.filterMap Operand.id?
    else (i.operands.map Operand.normal).filterMap Operand.id?) = i.reads
  rw [← map_tail, whole, whole]
  rfl

def names (i : Instr) : List UInt32 := i.operands.filterMap Operand.id?

@[simp] theorem normal_names (i : Instr) : i.normal.names = i.names := by
  show (i.operands.map Operand.normal).filterMap Operand.id? = i.operands.filterMap Operand.id?
  rw [filterMap_map, show Operand.id? ∘ Operand.normal = Operand.id? from funext Operand.normal_id?]

variable {i : Instr} {code : List Instr} {n m : Nat} {passed : List Nat}

theorem mem_names_of_created {id : UInt32} (h : i.created? = some id) : id ∈ i.names := by
  unfold created? at h
  split at h
  · obtain ⟨o, first, names⟩ := Option.bind_eq_some_iff.1 h
    exact mem_filterMap.2 ⟨o, mem_of_mem_head? first, names⟩
  · cases h

theorem targets_of_definedLabel? {l : Int32} (h : i.definedLabel? = some l) : i.targets = [] := by
  obtain ⟨opcode, qualifier, operands⟩ := i
  have directive : opcode = .sym := by
    unfold definedLabel? at h
    split at h
    · rename_i same
      exact (Instr.mk.inj same).1
    · cases h
  subst directive
  rfl

def createdIn (code : List Instr) : Set UInt32 := {id | ∃ i ∈ code, i.created? = some id}

theorem createdIn_cons (i : Instr) (code : List Instr) : createdIn code ⊆ createdIn (i :: code) := by
  rintro id ⟨j, mem, creates⟩
  exact ⟨j, mem_cons_of_mem _ mem, creates⟩

/-! ## Paths -/

/-- Where code goes on behind the instruction at a place. -/
inductive Edge (code : List Instr) (n : Nat) : Nat → Prop
  | next {i : Instr} (here : code[n]? = some i) (falls : i.opcode ≠ .jmp ∧ i.opcode ≠ .ret) :
    Edge code n (n + 1)
  | goto {i j : Instr} {l : Int32} {m : Nat} (here : code[n]? = some i) (target : l ∈ i.targets)
    (there : code[m]? = some j) (defines : j.definedLabel? = some l) : Edge code n m

/-- A way from the start of code to a place, with the places passed before it. -/
inductive Path (code : List Instr) : List Nat → Nat → Prop
  | start : Path code [] 0
  | step {passed : List Nat} {n m : Nat} (path : Path code passed n) (edge : Edge code n m) :
    Path code (n :: passed) m

theorem edge_iff : Edge code n m ↔ (m = n + 1 ∧ ∃ i ∈ code[n]?, i.opcode ≠ .jmp ∧ i.opcode ≠ .ret) ∨
      ∃ i ∈ code[n]?, ∃ l ∈ i.targets, code[m]?.bind Instr.definedLabel? = some l := by
  constructor
  · rintro (⟨here, falls⟩ | ⟨here, target, there, defines⟩)
    · exact .inl ⟨rfl, _, here, falls⟩
    · exact .inr ⟨_, here, _, target, by rw [there]; exact defines⟩
  · rintro (⟨rfl, i, here, falls⟩ | ⟨i, here, l, target, defines⟩)
    · exact .next here falls
    · obtain ⟨j, there, defines⟩ := Option.bind_eq_some_iff.1 defines
      exact .goto here target there defines

theorem path_cons : Path code (n :: passed) m ↔ Path code passed n ∧ Edge code n m := by
  constructor
  · rintro (_ | ⟨path, edge⟩)
    exact ⟨path, edge⟩
  · rintro ⟨path, edge⟩
    exact .step path edge

instance decidableEdge (code : List Instr) (n m : Nat) : Decidable (Edge code n m) := decidable_of_iff _ edge_iff.symm

instance decidablePath (code : List Instr) : ∀ passed n, Decidable (Path code passed n)
  | [], n => decidable_of_iff (n = 0) ⟨fun zero => zero ▸ .start, fun path => by cases path; rfl⟩
  | m :: passed, n =>
    have := decidablePath code passed m
    decidable_of_iff (Path code passed m ∧ Edge code m n) path_cons.symm

/-- What is carried to each place of code, and what each label promises, such that `W` holds of every path that
leads to where it is said to. -/
structure Certificate (code : List Instr) (K : Nat → Prop) (Λ : Int32 → Prop) (W : List Nat → Prop) : Prop where
  start : K 0 → W []
  later : ∀ {passed} n, W passed → W (n :: passed)
  label : ∀ {n i l}, code[n]? = some i → i.definedLabel? = some l → (K (n + 1) → Λ l) ∧ (Λ l → K n)
  next : ∀ {n i passed}, code[n]? = some i → i.definedLabel? = none → i.opcode ≠ .jmp ∧ i.opcode ≠ .ret →
    K (n + 1) → K n ∨ W (n :: passed)
  targets : ∀ {n i l}, code[n]? = some i → l ∈ i.targets → Λ l → K n

/-- What is carried to an instruction holds on the path that came there, or else the path came by a jump, and
that is so for what its label promises. -/
theorem Certificate.carried {K : Nat → Prop} {Λ : Int32 → Prop} {W : List Nat → Prop} (h : Certificate code K Λ W)
    (path : Path code passed n) : (K n → W passed) ∨
      ∃ j l, code[n]? = some j ∧ j.definedLabel? = some l ∧ (Λ l → W passed) := by
  induction path with
  | start => exact .inl h.start
  | @step passed n m path edge ih =>
    cases edge with
    | @next i here falls =>
      refine .inl fun carried => ?_
      cases defines : i.definedLabel? with
      | some l =>
        -- Both ways into a label know what it promises.
        obtain ⟨promised, known⟩ := h.label here defines
        rcases ih with ih | ⟨j, l', there, defines', ih⟩
        · exact h.later n (ih (known (promised carried)))
        · obtain rfl : j = i := Option.some.inj (there.symm.trans here)
          obtain rfl : l' = l := Option.some.inj (defines'.symm.trans defines)
          exact h.later n (ih (promised carried))
      | none =>
        rcases ih with ih | ⟨j, l, there, defines', _⟩
        · exact (h.next here defines falls carried).elim (fun before => h.later n (ih before)) id
        · obtain rfl : j = i := Option.some.inj (there.symm.trans here)
          rw [defines] at defines'
          cases defines'
    | @goto i j l m here target there defines =>
      refine .inr ⟨j, l, there, defines, fun promised => ?_⟩
      rcases ih with ih | ⟨i', l', here', defines', _⟩
      · exact h.later n (ih (h.targets here target promised))
      · obtain rfl : i' = i := Option.some.inj (here'.symm.trans here)
        rw [targets_of_definedLabel? defines'] at target
        cases target

def writtenAt (code : List Instr) (passed : List Nat) : Set UInt32 :=
  {id | ∃ k ∈ passed, ∃ j, code[k]? = some j ∧ j.destination? = some id}

/-- On every path, a variable that the code does not create is written before it is read. -/
def DefinedFirst (code : List Instr) : Prop :=
  ∀ passed n i, Path code passed n → code[n]? = some i →
    ∀ id ∈ i.reads, (∀ j ∈ code, j.created? ≠ some id) → id ∈ writtenAt code passed

theorem writtenAt_cons (code : List Instr) (n : Nat) (passed : List Nat) :
    writtenAt code passed ⊆ writtenAt code (n :: passed) := by
  rintro id ⟨k, mem, written⟩
  exact ⟨k, mem_cons_of_mem _ mem, written⟩

theorem Edge.of_normal (h : Edge (code.map normal) n m) : Edge code n m := by
  cases h with
  | next here falls =>
    rw [List.getElem?_map, Option.map_eq_some_iff] at here
    obtain ⟨i, here, rfl⟩ := here
    exact .next here falls
  | goto here target there defines =>
    rw [List.getElem?_map, Option.map_eq_some_iff] at here there
    obtain ⟨i, here, rfl⟩ := here
    obtain ⟨j, there, rfl⟩ := there
    rw [normal_targets] at target
    rw [normal_definedLabel?] at defines
    exact .goto here target there defines

theorem Path.of_normal (h : Path (code.map normal) passed n) : Path code passed n := by
  induction h with
  | start => exact .start
  | step _ edge ih => exact .step ih edge.of_normal

theorem DefinedFirst.normal (h : DefinedFirst code) : DefinedFirst (code.map Instr.normal) := by
  intro passed n i path here id reads uncreated
  rw [List.getElem?_map, Option.map_eq_some_iff] at here
  obtain ⟨i, here, rfl⟩ := here
  rw [normal_reads] at reads
  have uncreated : ∀ j ∈ code, j.created? ≠ some id := fun j mem => by
    have := uncreated j.normal (mem_map_of_mem mem)
    rwa [normal_created?] at this
  obtain ⟨k, mem, j, there, writes⟩ := h passed n i path.of_normal here id reads uncreated
  refine ⟨k, mem, j.normal, ?_, ?_⟩
  · rw [List.getElem?_map, there, Option.map_some]
  · rw [normal_destination?, writes]

/-! ## Certificates -/

section Certificates

variable (Λ : Int32 → Set UInt32)

/-- What is settled behind an instruction, if `A` is settled in front of it. -/
def settledBehind (A : Set UInt32) (i : Instr) : Set UInt32 :=
  match i.definedLabel? with
  | some l => Λ l
  | none => if i.opcode = .jmp ∨ i.opcode = .ret then .univ else A ∪ {id | i.destination? = some id}

variable {A V V' : Set UInt32} {i : Instr} {code : List Instr} {n : Nat}

theorem subset_settledBehind (other : i.definedLabel? = none) : A ⊆ settledBehind Λ A i := by
  intro id settled
  simp only [settledBehind, other]
  split
  · trivial
  · exact .inl settled

theorem destination_mem_settledBehind {id : UInt32}
    (other : i.definedLabel? = none) (writes : i.destination? = some id) : id ∈ settledBehind Λ A i := by
  simp only [settledBehind, other]
  split
  · trivial
  · exact .inr writes

theorem settledBehind_label {l : Int32} (defines : i.definedLabel? = some l) : settledBehind Λ A i = Λ l := by
  simp only [settledBehind, defines]

def settled : List Instr → Set UInt32
  | [] => ∅
  | i :: older => settledBehind Λ (settled older) i

/-- An instruction that reads, and promises at labels, only what is settled in front of it or given. -/
structure Checked (V A : Set UInt32) (i : Instr) : Prop where
  reads : ∀ id ∈ i.reads, id ∈ A ∪ V
  targets : ∀ l ∈ i.targets, Λ l ⊆ A ∪ V
  label : ∀ l, i.definedLabel? = some l → Λ l ⊆ A ∪ V ∧ i.reads = []

/-- Code, newest first, of which every instruction is checked. -/
def AllChecked (V : Set UInt32) : List Instr → Prop
  | [] => True
  | i :: older => Checked Λ V (settled Λ older) i ∧ AllChecked V older

variable {Λ}

theorem Checked.mono (h : Checked Λ V A i) (more : V ⊆ V') : Checked Λ V' A i where
  reads id mem := Set.union_subset_union_right A more (h.reads id mem)
  targets l mem := (h.targets l mem).trans (Set.union_subset_union_right A more)
  label l defines := ⟨(h.label l defines).1.trans (Set.union_subset_union_right A more), (h.label l defines).2⟩

theorem AllChecked.mono (h : AllChecked Λ V code) (more : V ⊆ V') : AllChecked Λ V' code := by
  induction code with
  | nil => trivial
  | cons i older ih => exact ⟨h.1.mono more, ih h.2⟩

theorem AllChecked.middle {before after : List Instr}
    (h : AllChecked Λ V (before ++ i :: after).reverse) : Checked Λ V (settled Λ before.reverse) i := by
  rw [reverse_append, reverse_cons, append_assoc] at h
  generalize after.reverse = newer at h
  induction newer with
  | nil => exact h.1
  | cons _ newer ih => exact ih h.2

theorem AllChecked.get (h : AllChecked Λ V code.reverse) (here : code[n]? = some i) :
    Checked Λ V (settled Λ (code.take n).reverse) i ∧
      settled Λ (code.take (n + 1)).reverse = settledBehind Λ (settled Λ (code.take n).reverse) i := by
  obtain ⟨lt, same⟩ := List.getElem?_eq_some_iff.1 here
  have split : code = code.take n ++ i :: code.drop (n + 1) := by
    rw [← same, List.getElem_cons_drop, take_append_drop]
  constructor
  · rw [split] at h
    exact h.middle
  · rw [← take_append_getElem lt, same, reverse_append]
    rfl

theorem AllChecked.certificate (checked : AllChecked Λ V code.reverse) (id : UInt32) :
    Certificate code (fun n => id ∈ settled Λ (code.take n).reverse ∪ V) (fun l => id ∈ Λ l ∪ V)
      fun passed => id ∈ writtenAt code passed ∪ V where
  start known := known.imp_left False.elim
  later _ known := known.imp_left fun written => writtenAt_cons _ _ _ written
  label here defines := by
    obtain ⟨check, behind⟩ := checked.get here
    rw [behind, settledBehind_label Λ defines]
    exact ⟨(·), fun known => known.elim (fun promised => (check.label _ defines).1 promised) .inr⟩
  next here other falls known := by
    rw [(checked.get here).2] at known
    simp only [settledBehind, other, if_neg (not_or.2 falls)] at known
    rcases known with (before | writes) | given
    · exact .inl (.inl before)
    · exact .inr (.inl ⟨_, mem_cons_self .., _, here, writes⟩)
    · exact .inl (.inr given)
  targets here target known := known.elim (fun promised => (checked.get here).1.targets _ target promised) .inr

theorem definedFirst_of_allChecked (checked : AllChecked Λ (createdIn code) code.reverse) : DefinedFirst code := by
  intro passed n i path here id reads uncreated
  have check := (checked.get here).1
  have given : id ∉ createdIn code := fun ⟨j, mem, creates⟩ => uncreated j mem creates
  rcases (checked.certificate id).carried path with carried | ⟨j, l, there, defines, _⟩
  · exact (carried (check.reads id reads)).resolve_right given
  · obtain rfl : j = i := Option.some.inj (there.symm.trans here)
    rw [(check.label l defines).2] at reads
    cases reads

end Certificates

end Instr

end Cof
