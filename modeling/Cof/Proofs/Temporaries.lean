/-
  Temporaries are written before they are read.

  While code is made, some operands are *held*: on every path to where code is being added, the variable
  of a held operand has been written, or an instruction of the function creates it.  An instruction may
  read what is held, and what it writes is held from then on.  At a label several paths meet, and what is
  held behind it is what was promised when the label was numbered: whoever goes there must hold it.
-/
import Cof.Proofs.Decimal
import Cof.Proofs.Nesting

namespace Cof

open List

/-! ## Operands and their variables -/

def Operand.ids (os : List Operand) : Set UInt32 := {id | ∃ o ∈ os, o.id? = some id}

/-- An operand whose variable, if it has one, is among the first so many. -/
def Operand.Numbered (count : Nat) (o : Operand) : Prop := ∀ id, o.id? = some id → ∃ k < count, id = UInt32.ofNat k

namespace Lowering

/-- A variable that the code names or that a name is bound to. -/
def State.Uses (s : State) (id : UInt32) : Prop :=
  (∃ i ∈ s.code, ∃ o ∈ i.operands, o.id? = some id) ∨ ∃ e ∈ s.scopes.log, e.symbol.storage = .slot id

def State.Numbered (s : State) : Prop := ∀ id, s.Uses id → ∃ k < s.variableCount, id = UInt32.ofNat k

theorem numbered_empty : State.Numbered {} := by
  rintro id (⟨i, mem, _⟩ | ⟨e, mem, _⟩)
  · cases mem
  · cases mem

/-! ## The invariant -/

/-- What stays known while the code of a function is made. -/
structure Context where
  /-- The code in front of the function. -/
  base : List Instr
  /-- How many labels were numbered before the function. -/
  first : Nat
  /-- Variables that are there without being created. -/
  given : Set UInt32
  /-- Labels, with what is held wherever they are reached. -/
  promised : List (Int32 × List Operand)
  /-- Operands that may be written, though they need not have been. -/
  numbered : List Operand
  /-- How many variables were numbered before. -/
  early : Nat
  /-- Variables that were in sight before. -/
  seen : Set UInt32

def Context.promise (C : Context) (l : Int32) (os : List Operand) : Context :=
  { C with promised := (l, os) :: C.promised }

def Context.number (C : Context) (os : List Operand) : Context := { C with numbered := os ++ C.numbered }

/-- The variables that code may name: those in sight before, and those numbered since. -/
def Context.known (C : Context) (count : Nat) : Set UInt32 :=
  C.seen ∪ {id | ∃ k, C.early ≤ k ∧ k < count ∧ id = UInt32.ofNat k}

/-- An operand whose variable, if it has one, may be named. -/
def Context.Knows (C : Context) (count : Nat) (o : Operand) : Prop := ∀ id, o.id? = some id → id ∈ C.known count

variable {C : Context} {count : Nat}

theorem Context.known_mono {count' : Nat} (more : count ≤ count') : C.known count ⊆ C.known count' := by
  refine Set.union_subset_union_right _ ?_
  rintro id ⟨k, early, small, same⟩
  exact ⟨k, early, Nat.lt_of_lt_of_le small more, same⟩

theorem Context.knows_none {o : Operand} (none : o.id? = none) : C.Knows count o := by
  intro id names
  rw [none] at names
  cases names

/-- The labels numbered from `first` on stand for what was promised. -/
def Honours (promise : Nat → List Operand) (first count : Nat) (Λ : Int32 → Set UInt32) : Prop :=
  ∀ k, first ≤ k → k < count → Λ (.ofNat k) = Operand.ids (promise k)

/-- Code, newest first, that is checked, behind which some operands are held. -/
structure Certified (Λ : Int32 → Set UInt32) (given : Set UInt32) (held : List Operand) (body : List Instr) : Prop where
  checked : Instr.AllChecked Λ (Instr.createdIn body ∪ given) body
  held : Operand.ids held ⊆ Instr.settled Λ body ∪ (Instr.createdIn body ∪ given)

/-- A state in which the code of a function is `body` so far. -/
structure Part (C : Context) (held : List Operand) (promise : Nat → List Operand) (body : List Instr)
    (s : State) : Prop where
  code : s.code = body ++ C.base
  since : C.first ≤ s.labelCount
  made : s.scopes.Made
  used : s.Numbered
  early : C.early ≤ s.variableCount
  seen : ∀ id ∈ C.seen, ∃ k < s.variableCount, id = UInt32.ofNat k
  named : ∀ i ∈ body, ∀ o ∈ i.operands, C.Knows s.variableCount o
  numbered : ∀ o ∈ C.numbered ++ held, C.Knows s.variableCount o
  promised : ∀ l os, (l, os) ∈ C.promised → ∃ k, C.first ≤ k ∧ k < s.labelCount ∧ l = .ofNat k ∧ promise k = os
  slots : ∀ id, s.scopes.Sees id → id ∈ Instr.createdIn body ∪ C.given
  sight : ∀ id, s.scopes.Sees id → id ∈ C.known s.variableCount
  certified : ∀ Λ, Honours promise C.first s.labelCount Λ → Certified Λ C.given held body
  loops : ∀ Λ, Honours promise C.first s.labelCount Λ → ∀ labels ∈ s.loops,
    Λ labels.onContinue ⊆ C.given ∧ Λ labels.onBreak ⊆ C.given

def Ready (C : Context) (held : List Operand) (s : State) : Prop := ∃ promise body, Part C held promise body s

def Has (held : List Operand) (o : Operand) : Prop := o ∈ held ∨ o.id? = none

section Has

variable {held : List Operand} {o : Operand}

theorem Has.mem_ids {id : UInt32} (h : Has held o) (names : o.id? = some id) : id ∈ Operand.ids held := by
  rcases h with mem | none
  · exact ⟨o, mem, names⟩
  · rw [none] at names
    cases names

def HasAll (held os : List Operand) : Prop := ∀ o ∈ os, Has held o

theorem hasAll_nil : HasAll held [] := forall_mem_nil _

variable {os : List Operand}

theorem hasAll_cons (h : Has held o) (hs : HasAll held os) : HasAll held (o :: os) := forall_mem_cons.2 ⟨h, hs⟩

theorem hasAll_of_subset (h : os ⊆ held) : HasAll held os := fun _ mem => .inl (h mem)

end Has

/-! ## Changes of the state -/

section Part

variable {C : Context} {held : List Operand} {promise : Nat → List Operand} {body : List Instr}
variable {s : State} {Λ : Int32 → Set UInt32}

variable {l : Int32} {os : List Operand}

theorem Part.stands (h : Part C held promise body s) (honours : Honours promise C.first s.labelCount Λ)
    (known : (l, os) ∈ C.promised) : Λ l = Operand.ids os := by
  obtain ⟨k, since, small, rfl, rfl⟩ := h.promised l os known
  exact honours k since small

theorem Part.weaken {less : List Operand} (h : Part C held promise body s) (sub : HasAll held less) :
    Part C less promise body s := by
  refine { h with numbered := fun o mem => ?_, certified := fun Λ honours => ⟨(h.certified Λ honours).checked, ?_⟩ }
  · rcases mem_append.1 mem with known | mem
    · exact h.numbered o (mem_append_left _ known)
    · rcases sub o mem with held | none
      · exact h.numbered o (mem_append_right _ held)
      · exact Context.knows_none none
  · rintro id ⟨o, mem, names⟩
    exact (h.certified Λ honours).held ((sub o mem).mem_ids names)

theorem Part.forget (h : Part (C.promise l os) held promise body s) : Part C held promise body s :=
  { h with promised := fun l' os' known => h.promised l' os' (mem_cons_of_mem _ known) }

theorem Part.forgetNumbers (h : Part (C.number os) held promise body s) : Part C held promise body s := by
  refine { h with numbered := fun o mem => h.numbered o ?_ }
  rcases mem_append.1 mem with known | held
  · exact mem_append_left _ (mem_append_right _ known)
  · exact mem_append_right _ held

section

variable (h : Part C held promise body s)
include h

theorem Part.hold {o : Operand} (there : ∀ id, o.id? = some id → id ∈ Instr.createdIn body ∪ C.given)
    (numbered : C.Knows s.variableCount o) : Part C (o :: held) promise body s := by
  refine { h with numbered := fun o' mem => ?_, certified := fun Λ honours => ⟨(h.certified Λ honours).checked, ?_⟩ }
  · rcases mem_append.1 mem with known | mem
    · exact h.numbered o' (mem_append_left _ known)
    · rcases mem_cons.1 mem with rfl | mem
      · exact numbered
      · exact h.numbered o' (mem_append_right _ mem)
  · rintro id ⟨o', mem, names⟩
    rcases mem_cons.1 mem with rfl | mem
    · exact .inr (there id names)
    · exact (h.certified Λ honours).held ⟨o', mem, names⟩

theorem Part.transfer {s' : State} (code : s'.code = s.code)
    (scopes : s'.scopes = s.scopes) (counted : s'.variableCount = s.variableCount)
    (labels : s'.labelCount = s.labelCount) (loops : s'.loops = s.loops) :
    Part C held promise body s' := by
  obtain ⟨code', since, made, used, early, seen, named, numbered, promised, slots, sight, certified, loops'⟩ := h
  refine ⟨?_, ?_, ?_, ?_, ?_, ?_, ?_, ?_, ?_, ?_, ?_, ?_, ?_⟩
  · rw [code, code']
  · rwa [labels]
  · rwa [scopes]
  · unfold State.Numbered State.Uses
    rw [code, scopes, counted]
    exact used
  · rwa [counted]
  · rwa [counted]
  · rwa [counted]
  · rwa [counted]
  · rwa [labels]
  · rwa [scopes]
  · rwa [scopes, counted]
  · rwa [labels]
  · rwa [labels, loops]

theorem Part.freshVariable (os : List Operand) (next : ∀ o ∈ os, C.Knows (s.variableCount + 1) o) :
    Part (C.number os) held promise body { s with variableCount := s.variableCount + 1 } where
  code := h.code
  since := h.since
  made := h.made
  used id uses := by
    obtain ⟨k, small, same⟩ := h.used id uses
    exact ⟨k, Nat.lt_succ_of_lt small, same⟩
  early := Nat.le_succ_of_le h.early
  seen id mem := by
    obtain ⟨k, small, same⟩ := h.seen id mem
    exact ⟨k, Nat.lt_succ_of_lt small, same⟩
  named i mem o named id names := Context.known_mono (Nat.le_succ _) (h.named i mem o named id names)
  numbered o mem := by
    have before : ∀ o ∈ C.numbered ++ held, C.Knows (s.variableCount + 1) o := fun o mem id names =>
      Context.known_mono (Nat.le_succ _) (h.numbered o mem id names)
    rcases mem_append.1 mem with known | mem
    · rcases mem_append.1 known with new | known
      · exact next o new
      · exact before o (mem_append_left _ known)
    · exact before o (mem_append_right _ mem)
  promised := h.promised
  slots := h.slots
  sight id sees := Context.known_mono (Nat.le_succ _) (h.sight id sees)
  certified := h.certified
  loops := h.loops

theorem Part.freshLabel (os : List Operand) :
    Part (C.promise (.ofNat s.labelCount) os) held (fun k => if k = s.labelCount then os else promise k)
      body { s with labelCount := s.labelCount + 1 } := by
  -- Labels numbered before keep their promises.
  have before : ∀ {Λ}, Honours (fun k => if k = s.labelCount then os else promise k) C.first
      (s.labelCount + 1) Λ → Honours promise C.first s.labelCount Λ := by
    intro Λ honours k since small
    have same : Λ (.ofNat k) = Operand.ids (if k = s.labelCount then os else promise k) :=
      honours k since (Nat.lt_succ_of_lt small)
    rwa [if_neg (Nat.ne_of_lt small)] at same
  refine ⟨h.code, Nat.le_succ_of_le h.since, h.made, h.used, h.early, h.seen, h.named, h.numbered, ?_,
    h.slots, h.sight, ?_, ?_⟩
  · intro l os' known
    rcases mem_cons.1 known with new | known
    · obtain ⟨rfl, rfl⟩ := Prod.mk.inj new
      exact ⟨s.labelCount, h.since, Nat.lt_succ_self _, rfl, if_pos rfl⟩
    · obtain ⟨k, since, small, same, promised⟩ := h.promised l os' known
      exact ⟨k, since, Nat.lt_succ_of_lt small, same, (if_neg (Nat.ne_of_lt small)).trans promised⟩
  · exact fun Λ honours => h.certified Λ (before honours)
  · exact fun Λ honours => h.loops Λ (before honours)

theorem Part.of_known {id : UInt32} (known : id ∈ C.known s.variableCount) :
    ∃ k < s.variableCount, id = UInt32.ofNat k := by
  rcases known with seen | ⟨k, _, small, same⟩
  · exact h.seen id seen
  · exact ⟨k, small, same⟩

theorem Part.push {i : Instr} {bytes : Bytes} {held' : List Operand}
    (numbered : ∀ o ∈ i.operands, C.Knows s.variableCount o)
    (numbered' : ∀ o ∈ held', C.Knows s.variableCount o)
    (certified : ∀ Λ, Honours promise C.first s.labelCount Λ → Certified Λ C.given held' (i :: body)) :
    Part C held' promise (i :: body) (s.push i bytes) where
  code := congrArg (List.cons i) h.code
  since := h.since
  made := h.made
  used id uses := by
    rcases uses with ⟨j, mem, o, named, names⟩ | bound
    · rcases mem_cons.1 mem with rfl | mem
      · exact h.of_known (numbered o named id names)
      · exact h.used id (.inl ⟨j, mem, o, named, names⟩)
    · exact h.used id (.inr bound)
  early := h.early
  seen := h.seen
  named := forall_mem_cons.2 ⟨numbered, h.named⟩
  numbered o mem := by
    rcases mem_append.1 mem with known | mem
    · exact h.numbered o (mem_append_left _ known)
    · exact numbered' o mem
  promised := h.promised
  slots id sees := Set.union_subset_union_left _ (Instr.createdIn_cons i body) (h.slots id sees)
  sight := h.sight
  certified := certified
  loops := h.loops

theorem Part.has_numbered (known : HasAll held os) : ∀ o ∈ os, C.Knows s.variableCount o := by
  intro o mem
  rcases known o mem with held | none
  · exact h.numbered o (mem_append_right _ held)
  · exact Context.knows_none none

end

theorem Certified.push {given : Set UInt32} (h : Certified Λ given held body) {i : Instr}
    (other : i.definedLabel? = none)
    (check : Instr.Checked Λ (Instr.createdIn (i :: body) ∪ given) (Instr.settled Λ body) i) :
    Certified Λ given held (i :: body) where
  checked := by
    refine ⟨check, h.checked.mono ?_⟩
    exact Set.union_subset_union_left _ (Instr.createdIn_cons i body)
  held id mem := by
    rcases h.held mem with settled | known
    · exact .inl (Instr.subset_settledBehind Λ other settled)
    · exact .inr (Set.union_subset_union_left _ (Instr.createdIn_cons i body) known)

theorem Certified.known {given : Set UInt32} (h : Certified Λ given held body) (i : Instr) :
    Operand.ids held ⊆ Instr.settled Λ body ∪ (Instr.createdIn (i :: body) ∪ given) :=
  h.held.trans (Set.union_subset_union_right _ (Set.union_subset_union_left _ (Instr.createdIn_cons i body)))

end Part

/-! ## Steps -/

section Steps

variable {α β : Type} {C : Context} {held : List Operand}

/-- From a state in which some operands are held, a step leads to one in which others are. -/
abbrev Leaves (C : Context) (held : List Operand) (m : Lower α) (out : α → List Operand) : Prop :=
  Triple (Ready C held) m fun a => Ready C (out a)

variable {i : Instr} {opcode : Opcode} {body : List Instr} {qualifier : Qualifier}
  {operands os : List Operand} {m : Lower α} {type : CType} {n : Nat} {f : Operand → Lower β}
  {out : β → List Operand} {l : Int32}

theorem reads_subset {id : UInt32} (mem : id ∈ i.reads) : ∃ o ∈ i.operands, o.id? = some id := by
  unfold Instr.reads at mem
  split at mem
  · obtain ⟨o, named, names⟩ := mem_filterMap.1 mem
    exact ⟨o, mem_of_mem_tail named, names⟩
  · exact mem_filterMap.1 mem

theorem falls_through (qualifier : Qualifier) (operands : List Operand)
    (falls : opcode ≠ .sym ∧ opcode ≠ .jmp ∧ opcode ≠ .br) :
    Instr.definedLabel? ⟨opcode, qualifier, operands⟩ = none ∧ Instr.targets ⟨opcode, qualifier, operands⟩ = [] := by
  obtain ⟨sym, jmp, br⟩ := falls
  constructor
  · simp [Instr.definedLabel?, sym]
  · simp [Instr.targets, jmp, br]

theorem Certified.fall {Λ : Int32 → Set UInt32} {given : Set UInt32}
    (h : Certified Λ given held body) (other : i.definedLabel? = none)
    (targets : i.targets = []) (reads : ∀ id ∈ i.reads, id ∈ Operand.ids held) :
    Certified Λ given held (i :: body) := by
  refine h.push other ⟨fun id mem => h.known i (reads id mem), ?_, ?_⟩
  · rw [targets]
    exact forall_mem_nil _
  · intro l defines
    rw [other] at defines
    cases defines

theorem HasAll.reads (h : HasAll held i.operands) : ∀ id ∈ i.reads, id ∈ Operand.ids held := by
  intro id mem
  obtain ⟨o, named, names⟩ := reads_subset mem
  exact (h o named).mem_ids names

theorem ready_fall (other : Instr.definedLabel? ⟨opcode, qualifier, operands⟩ = none)
    (targets : Instr.targets ⟨opcode, qualifier, operands⟩ = []) (known : HasAll held operands) :
    Leaves C held (emit opcode qualifier operands) fun _ => held := by
  rintro s u s' ⟨promise, body, part⟩ run
  obtain ⟨bytes, _, rfl⟩ := emit_eq_ok.1 run
  have numbered : ∀ o ∈ held, C.Knows s.variableCount o := fun o mem =>
    part.numbered o (mem_append_right _ mem)
  refine ⟨promise, _, part.push (part.has_numbered known) numbered fun Λ honours => ?_⟩
  exact (part.certified Λ honours).fall other targets (HasAll.reads known)

theorem ready_emit (falls : opcode ≠ .sym ∧ opcode ≠ .jmp ∧ opcode ≠ .br) (known : HasAll held operands) :
    Leaves C held (emit opcode qualifier operands) fun _ => held :=
  ready_fall (falls_through _ _ falls).1 (falls_through _ _ falls).2 known

theorem ready_write {target : Operand}
    (writes : opcode.writes = true) (numbered : target ∈ C.numbered ++ held) (known : HasAll held operands) :
    Leaves C held (emit opcode qualifier (target :: operands)) fun _ => target :: held := by
  rintro s u s' ⟨promise, body, part⟩ run
  obtain ⟨bytes, _, rfl⟩ := emit_eq_ok.1 run
  have falls : opcode ≠ .sym ∧ opcode ≠ .jmp ∧ opcode ≠ .br := by
    refine ⟨?_, ?_, ?_⟩ <;> rintro rfl <;> cases writes
  obtain ⟨other, targets⟩ := falls_through qualifier (target :: operands) falls
  have named : ∀ o ∈ target :: operands, C.Knows s.variableCount o :=
    forall_mem_cons.2 ⟨part.numbered target numbered, part.has_numbered known⟩
  have stays : ∀ o ∈ target :: held, C.Knows s.variableCount o :=
    forall_mem_cons.2 ⟨part.numbered target numbered, fun o mem => part.numbered o (mem_append_right _ mem)⟩
  refine ⟨promise, _, part.push named stays fun Λ honours => ?_⟩
  -- The target itself is not read.
  have reads : Instr.reads ⟨opcode, qualifier, target :: operands⟩ =
      operands.filterMap Operand.id? := if_pos (.inl writes)
  have certified : Certified Λ C.given held (⟨opcode, qualifier, target :: operands⟩ :: body) := by
    refine (part.certified Λ honours).fall other targets fun id mem => ?_
    rw [reads] at mem
    obtain ⟨o, mem, names⟩ := mem_filterMap.1 mem
    exact (known o mem).mem_ids names
  refine ⟨certified.checked, ?_⟩
  rintro id ⟨o, mem, names⟩
  rcases mem_cons.1 mem with rfl | mem
  · refine .inl (Instr.destination_mem_settledBehind Λ other ?_)
    rw [Instr.destination?, if_pos writes]
    exact names
  · exact certified.held ⟨o, mem, names⟩

theorem ready_pure {a : α} {out : α → List Operand} (sub : HasAll held (out a)) :
    Leaves C held (pure a : Lower α) out := by
  refine triple_pure fun s ready => ?_
  obtain ⟨promise, body, part⟩ := ready
  exact ⟨promise, body, part.weaken sub⟩

theorem ready_unseen (h : ∀ s a s', m s = .ok a s' → s'.code = s.code ∧
    s'.scopes = s.scopes ∧ s'.variableCount = s.variableCount ∧ s'.labelCount = s.labelCount ∧
    s'.loops = s.loops) : Leaves C held m fun _ => held := by
  rintro s a s' ⟨promise, body, part⟩ run
  obtain ⟨code, scopes, counted, labels, loops⟩ := h s a s' run
  exact ⟨promise, body, part.transfer code scopes counted labels loops⟩

/-! ## Numbers and labels -/

def numberedOperand (type : CType) (n : Nat) : Operand := .var type.encoding (.ofNat n)

theorem Part.knows_next {promise : Nat → List Operand} {s : State} (h : Part C held promise body s) (type : CType) :
    C.Knows (s.variableCount + 1) (numberedOperand type s.variableCount) := by
  intro id names
  exact .inr ⟨s.variableCount, h.early, Nat.lt_succ_self _, (Option.some.inj names).symm⟩

abbrev ReadyAt (C : Context) (held : List Operand) (n : Nat) (s : State) : Prop := Ready C held s ∧ s.variableCount = n

theorem ready_temporary_at (rest : Leaves (C.number [numberedOperand type n]) held (f (numberedOperand type n)) out) :
    Triple (ReadyAt C held n) (temporary type >>= f) fun b => Ready C (out b) := by
  rintro s b s' ⟨⟨promise, body, part⟩, rfl⟩ run
  obtain ⟨o, t, numbered, run⟩ := bind_eq_ok.1 run
  obtain ⟨rfl, rfl⟩ := temporary_eq_ok.1 numbered
  have next := part.freshVariable [numberedOperand type s.variableCount]
    (forall_mem_singleton.2 (part.knows_next type))
  obtain ⟨promise', body', part'⟩ := rest _ b s' ⟨promise, body, next⟩ run
  exact ⟨promise', body', part'.forgetNumbers⟩

theorem ready_temporary (rest : ∀ o, Leaves (C.number [o]) held (f o) out) :
    Leaves C held (temporary type >>= f) out := fun s b s' ready run =>
  ready_temporary_at (rest _) s b s' ⟨ready, rfl⟩ run

/-- A label is numbered for the rest, with a promise that may name the next variable. -/
theorem ready_freshLabel_at (promise : Nat → List Operand) {f : Int32 → Lower β}
    (rest : ∀ l n, Triple (ReadyAt (C.promise l (promise n)) held n) (f l)
      fun b => Ready (C.promise l (promise n)) (out b)) : Leaves C held (freshLabel >>= f) out := by
  rintro s b s' ⟨before, body, part⟩ run
  obtain ⟨l, t, numbered, run⟩ := bind_eq_ok.1 run
  obtain ⟨rfl, rfl⟩ := freshLabel_eq_ok.1 numbered
  have next := part.freshLabel (promise s.variableCount)
  obtain ⟨after, body', part'⟩ := rest _ s.variableCount _ b s' ⟨⟨_, body, next⟩, rfl⟩ run
  exact ⟨after, body', part'.forget⟩

theorem ready_freshLabel (promise : List Operand) {f : Int32 → Lower β}
    (rest : ∀ l, Leaves (C.promise l promise) held (f l) out) : Leaves C held (freshLabel >>= f) out :=
  ready_freshLabel_at (fun _ => promise) fun l _ s b s' ready run => rest l s b s' ready.1 run

theorem ready_still {held' : List Operand} (h : Leaves C held m fun _ => held')
    (still : ∀ s a s', m s = .ok a s' → s'.variableCount = s.variableCount) :
    Triple (ReadyAt C held n) m fun _ => ReadyAt C held' n := by
  rintro s a s' ⟨ready, same⟩ run
  exact ⟨h s a s' ready run, (still s a s' run).trans same⟩

theorem still_emit (opcode : Opcode) (qualifier : Qualifier) (operands : List Operand) :
    ∀ s u s', emit opcode qualifier operands s = .ok u s' → s'.variableCount = s.variableCount := by
  intro s u s' run
  obtain ⟨_, _, rfl⟩ := emit_eq_ok.1 run
  rfl

theorem ready_goto (known : (l, os) ∈ C.promised) (sub : os ⊆ held) :
    Leaves C held (emit opcode qualifier [.label l]) fun _ => held := by
  rintro s u s' ⟨promise, body, part⟩ run
  obtain ⟨bytes, _, rfl⟩ := emit_eq_ok.1 run
  have numbered : ∀ o ∈ held, C.Knows s.variableCount o := fun o mem =>
    part.numbered o (mem_append_right _ mem)
  have operands : ∀ o ∈ [Operand.label l], C.Knows s.variableCount o :=
    forall_mem_singleton.2 (Context.knows_none rfl)
  refine ⟨promise, _, part.push operands numbered fun Λ honours => ?_⟩
  have certified := part.certified Λ honours
  have other : Instr.definedLabel? ⟨opcode, qualifier, [.label l]⟩ = none := by
    simp [Instr.definedLabel?]
  have reads : Instr.reads ⟨opcode, qualifier, [.label l]⟩ = [] := by
    unfold Instr.reads
    split <;> rfl
  refine certified.push other ⟨?_, ?_, ?_⟩
  · rw [reads]
    exact forall_mem_nil _
  · intro l' target
    obtain rfl : l' = l := by
      unfold Instr.targets at target
      split at target
      · simpa [Instr.labels] using target
      · cases target
    rw [part.stands honours known]
    rintro id ⟨o, mem, names⟩
    exact certified.known _ ⟨o, sub mem, names⟩
  · intro l' defines
    rw [other] at defines
    cases defines

theorem ready_jump (known : (l, os) ∈ C.promised) (sub : os ⊆ held) : Leaves C held (jump l) fun _ => held :=
  ready_goto known sub

theorem ready_branch (condition : Qualifier)
    (known : (l, os) ∈ C.promised) (sub : os ⊆ held) : Leaves C held (branch condition l) fun _ => held :=
  ready_goto known sub

theorem ready_defineLabel (known : (l, os) ∈ C.promised)
    (sub : os ⊆ held) : Leaves C held (defineLabel l) fun _ => os := by
  rintro s u s' ⟨promise, body, part⟩ run
  obtain ⟨bytes, _, rfl⟩ := emit_eq_ok.1 run
  have numbered : ∀ o ∈ os, C.Knows s.variableCount o := fun o mem =>
    part.numbered o (mem_append_right _ (sub mem))
  have operands : ∀ o ∈ (Instr.label l).operands, C.Knows s.variableCount o :=
    forall_mem_singleton.2 (Context.knows_none rfl)
  refine ⟨promise, _, part.push operands numbered fun Λ honours => ?_⟩
  have certified := part.certified Λ honours
  have stands := part.stands honours known
  have defines := Instr.definedLabel?_label l
  have kept : Operand.ids os ⊆ Operand.ids held := by
    rintro id ⟨o, mem, names⟩
    exact ⟨o, sub mem, names⟩
  refine ⟨⟨⟨forall_mem_nil _, forall_mem_nil _, ?_⟩, certified.checked.mono ?_⟩, ?_⟩
  · intro l' defines'
    obtain rfl : l = l' := Option.some.inj (defines.symm.trans defines')
    rw [stands]
    exact ⟨kept.trans (certified.known _), rfl⟩
  · exact Set.union_subset_union_left _ (Instr.createdIn_cons _ _)
  · intro id mem
    left
    show id ∈ Instr.settledBehind Λ (Instr.settled Λ body) (Instr.label l)
    rw [Instr.settledBehind_label Λ defines, stands]
    exact mem

end Steps

/-! ## Steps without labels -/

section Values

variable {C : Context} {held os operands : List Operand} {v : Value} {opcode : Opcode} {qualifier : Qualifier}

abbrev Yields (C : Context) (held : List Operand) (m : Lower Value) : Prop :=
  Leaves C held m fun v => [v.operand] ++ held

theorem has_operand (v : Value) (held : List Operand) : Has ([v.operand] ++ held) v.operand :=
  .inl (mem_cons_self ..)

theorem ready_noteType (loc : Location) (type : CType) : Leaves C held (noteType loc type) fun _ => held := by
  refine ready_unseen fun s u s' run => ?_
  obtain rfl := noteType_eq_ok.1 run
  exact ⟨rfl, rfl, rfl, rfl, rfl⟩

theorem ready_noted (loc : Location) (known : HasAll held (v.operand :: os)) :
    Leaves C held (noted loc v) fun w => [w.operand] ++ os :=
  triple_bind (ready_noteType loc v.type) fun _ => ready_pure known

theorem yields_compute {type : CType} (writes : opcode.writes = true) (known : HasAll held operands) :
    Yields C held (compute opcode qualifier type operands) := by
  refine ready_temporary fun target => ?_
  refine triple_bind (ready_write writes mem_cons_self known) fun _ => ?_
  exact ready_pure (hasAll_of_subset (List.Subset.refl _))

theorem ready_namedPlace (loc : Location) (name : Name) :
    Leaves C held (namedPlace loc name) fun p => [p.operand] ++ held := by
  rintro s p s' ⟨promise, body, part⟩ run
  obtain ⟨symbol, found, rfl, rfl⟩ := namedPlace_eq_ok.1 run
  have sees : ∀ id, (storageOperand symbol).id? = some id → s.scopes.Sees id := by
    intro id names
    unfold storageOperand at names
    split at names
    · rename_i id' storage
      exact part.made.sees_of_lookup found (storage.trans (congrArg _ (Option.some.inj names)))
    · cases names
  have holds := part.hold (fun id names => part.slots id (sees id names)) fun id names => part.sight id (sees id names)
  exact ⟨promise, body, holds.transfer rfl rfl rfl rfl rfl⟩

theorem tracking_ready :
    Tracking .identity .everything fun held out m _ => ∀ C, Leaves C held m fun a => out a ++ held where
  pure has _ := ready_pure fun o mem => (mem_append.1 mem).elim (has o) .inl
  fail _ _ _ := triple_fail
  bind first rest C s b s' ready run := by
    obtain ⟨a, t, ran, run⟩ := bind_eq_ok.1 run
    obtain ⟨promise, body, part⟩ := rest s a t ran C t b s' (first C s a t ready ran) run
    exact ⟨promise, body, part.weaken (hasAll_of_subset (subset_between _ _ _))⟩
  noteType loc type _ := ready_noteType loc type
  emit quiet takes _ := ready_fall ((Option.orElse_eq_none _ _).1 quiet.introduces).1 quiet.targets takes
  compute _ writes takes _ := yields_compute writes takes
  namedPlace loc name _ := ready_namedPlace loc name
  resolveCallee callee loc _ := by
    have known : ∀ {held} (f : Callee), HasAll held ([.symbol Encoding.ptr.tag f.name] ++ held) := fun _ =>
      hasAll_cons (.inr rfl) (hasAll_of_subset (List.Subset.refl _))
    rw [← bind_pure (Lowering.resolveCallee callee loc)]
    refine triple_bind (ready_unseen fun s f s' run => ?_) fun f => ready_pure (known f)
    obtain ⟨_, _, _, _, _, rfl⟩ := resolveCallee_eq_ok run
    exact ⟨rfl, rfl, rfl, rfl, rfl⟩
  inferred e _ := by
    refine ready_unseen fun s type s' run => ?_
    obtain ⟨_, rfl⟩ := inferred_eq_ok.1 run
    exact ⟨rfl, rfl, rfl, rfl, rfl⟩

theorem ready_requireScalar (v : Value) (operator : String) (loc : Location) :
    Leaves C held (requireScalar v operator loc) fun _ => held := tracking_ready.requireScalar _ v operator loc C

theorem ready_compareZero (known : Has held v.operand) : Leaves C held (compareZero v) fun _ => held :=
  tracking_ready.compareZero known C

theorem yields_convertAssigned (known : Has held v.operand) (target : CType) (loc : Location) :
    Yields C held (convertAssigned v target loc) :=
  tracking_ready.convertAssigned ⟨known, fun _ => known⟩ target loc C

/-! ## Steps with labels -/

theorem ready_logicalResult (short full : UInt64) {shortLabel endLabel : Int32}
    {n : Nat} (sub : os ⊆ held) (shortly : (shortLabel, os) ∈ C.promised)
    (ending : (endLabel, numberedOperand .int n :: os) ∈ C.promised) :
    Triple (ReadyAt C held n) (logicalResult short full shortLabel endLabel) fun v =>
      Ready C (v.operand :: os) := by
  have constant : ∀ held n, HasAll held [intConstant n] := fun _ _ => hasAll_cons (.inr rfl) hasAll_nil
  refine ready_temporary_at ?_
  refine triple_bind (ready_write rfl mem_cons_self (constant _ _)) fun _ => ?_
  refine triple_bind (ready_jump ending (cons_subset_cons _ sub)) fun _ => ?_
  refine triple_bind (ready_defineLabel shortly (subset_cons_of_subset _ sub)) fun _ => ?_
  refine triple_bind (ready_write rfl mem_cons_self (constant _ _)) fun _ => ?_
  refine triple_bind (ready_defineLabel ending (List.Subset.refl _)) fun _ => ?_
  exact ready_pure (hasAll_of_subset (List.Subset.refl _))

theorem ready_leaveIf (exit : Qualifier) (known : Has held v.operand)
    {l : Int32} (promised : (l, os) ∈ C.promised) (sub : os ⊆ held) :
    Leaves C held (leaveIf exit v l) fun _ => held :=
  triple_bind (ready_compareZero known) fun _ => ready_branch exit promised sub

theorem still_leaveIf (exit : Qualifier) (v : Value) (l : Int32) :
    ∀ s u s', leaveIf exit v l s = .ok u s' → s'.variableCount = s.variableCount := by
  intro s u s' run
  obtain ⟨_, t, compared, branched⟩ := bind_eq_ok.1 run
  exact (still_emit _ _ _ t u s' branched).trans (still_emit _ _ _ s _ t compared)

/-! ## The branches of `c ? x : y` -/

/-- The variable for the result, if so many variables are numbered before it. -/
def branchOperand (type : CType) (n : Nat) : Option Operand :=
  if type.isVoid then none else some (numberedOperand type n)

theorem ready_branchTarget {β : Type} {type : CType} {n : Nat} {f : Option Operand → Lower β} {out : β → List Operand}
    (rest : Leaves (C.number (branchOperand type n).toList) held (f (branchOperand type n)) out) :
    Triple (ReadyAt C held n) (branchTarget type >>= f) fun b => Ready C (out b) := by
  unfold branchOperand at rest
  rw [branchTarget_bind]
  split
  case isTrue void =>
    rw [if_pos void] at rest
    exact fun s b s' ready run => rest s b s' ready.1 run
  case isFalse other =>
    rw [if_neg other] at rest
    exact ready_temporary_at (f := fun o => f (some o)) rest

theorem ready_deliver {target : Option Operand} (numbered : target.toList ⊆ C.numbered)
    (known : Has held v.operand) (type : CType) (loc : Location) (sub : os ⊆ held) :
    Leaves C held (deliver target v type loc) fun _ => target.toList ++ os := by
  cases target with
  | none => exact ready_pure (hasAll_of_subset sub)
  | some target =>
    refine triple_bind (yields_convertAssigned known type loc) fun w => ?_
    have there : target ∈ C.numbered := numbered (mem_singleton_self _)
    intro s u s' ready run
    have written := ready_write rfl (mem_append_left _ there)
      (hasAll_cons (has_operand w held) hasAll_nil) s u s' ready run
    obtain ⟨promise, body, part⟩ := written
    refine ⟨promise, body, part.weaken (hasAll_of_subset (cons_subset_cons _ ?_))⟩
    exact subset_append_of_subset_right _ sub

theorem ready_branchResult (loc : Location) (target : Option Operand) (type : CType) :
    Leaves C (target.toList ++ os) (branchResult loc target type) fun v => [v.operand] ++ os := by
  cases target with
  | none => exact ready_noted loc (hasAll_cons (.inr rfl) (hasAll_of_subset (List.Subset.refl _)))
  | some target => exact ready_noted loc (hasAll_of_subset (List.Subset.refl _))

end Values

/-! ## Expressions -/

theorem flowTracking_ready :
    FlowTracking .identity .everything fun held out m _ => ∀ C, Leaves C held m fun a => out a ++ held where
  toTracking := tracking_ready
  -- The label of a string is never gone to.
  stringConstant _ _ C := by
    refine ready_freshLabel [] fun label => triple_bind (ready_emit (by decide) ?_) fun _ => ?_
    · exact hasAll_cons (.inr rfl) (hasAll_cons (.inr rfl) hasAll_nil)
    · exact yields_compute rfl (hasAll_cons (.inr rfl) hasAll_nil)
  -- The promise for the end names the variable for the truth value.
  truthOf {held left right} signedness condition hl hr C := by
    have both : HasAll held [left, right] := hasAll_cons hl (hasAll_cons hr hasAll_nil)
    refine ready_freshLabel held fun onFalse => ?_
    refine ready_freshLabel_at (fun n => numberedOperand .int n :: held) fun done n => ?_
    refine triple_bind (ready_still (ready_emit (by decide) both) (still_emit _ _ _)) fun _ => ?_
    have falsely : (onFalse, held) ∈ (done, numberedOperand .int n :: held) :: (onFalse, held) :: C.promised :=
      mem_cons_of_mem _ mem_cons_self
    refine triple_bind (ready_still (ready_branch _ falsely (List.Subset.refl _)) (still_emit _ _ _)) fun _ => ?_
    exact ready_logicalResult 0 1 (List.Subset.refl _) falsely mem_cons_self
  logical {held} op loc leftLoc rightLoc left _ right _ hl hr C := by
    refine triple_bind (hl held C) fun l => triple_bind (ready_requireScalar _ _ _) fun _ => ?_
    let os := [l.operand] ++ held
    refine ready_freshLabel os fun shortLabel => ?_
    have first := has_operand l held
    refine triple_bind (ready_leaveIf _ first mem_cons_self (List.Subset.refl _)) fun _ => ?_
    refine triple_bind (hr os _) fun r => triple_bind (ready_requireScalar _ _ _) fun _ => ?_
    have more : os ⊆ [r.operand] ++ os := subset_append_right _ _
    refine ready_freshLabel_at (fun n => numberedOperand .int n :: os) fun endLabel n => ?_
    have shortly : (shortLabel, os) ∈
        ((C.promise shortLabel os).promise endLabel (numberedOperand .int n :: os)).promised :=
      mem_cons_of_mem _ mem_cons_self
    refine triple_bind (ready_still (ready_leaveIf _ (has_operand r os) shortly more)
      (still_leaveIf _ _ _)) fun _ => ?_
    refine triple_bind (ready_logicalResult _ _ more shortly mem_cons_self) fun v => ?_
    exact ready_noted loc (hasAll_of_subset (cons_subset_cons _ (subset_append_right _ _)))
  branches {held} c type loc yesLoc noLoc yes _ no _ hc hy hn C := by
    -- Both branches start with what is held here, and add the variable for the result to it.
    refine ready_freshLabel held fun elseLabel => ?_
    refine ready_freshLabel_at (fun n => (branchOperand type n).toList ++ held) fun endLabel n => ?_
    refine triple_bind (ready_still (ready_compareZero hc) (still_emit _ _ _)) fun _ => ?_
    have onElse : (elseLabel, held) ∈ (elseLabel, held) :: C.promised := mem_cons_self ..
    refine triple_bind (ready_still (ready_branch _ (mem_cons_of_mem _ onElse)
      (List.Subset.refl _)) (still_emit _ _ _)) fun _ => ?_
    refine ready_branchTarget ?_
    generalize branchOperand type n = target
    have writable : target.toList ⊆ target.toList ++ C.numbered := subset_append_left _ _
    refine triple_bind (hy held _) fun y => ?_
    refine triple_bind (ready_deliver writable (has_operand y held) _ _ (subset_append_right _ _)) fun _ => ?_
    refine triple_bind (ready_jump mem_cons_self (List.Subset.refl _)) fun _ => ?_
    refine triple_bind (ready_defineLabel (mem_cons_of_mem _ onElse)
      (subset_append_right _ _)) fun _ => ?_
    refine triple_bind (hn held _) fun n => ?_
    refine triple_bind (ready_deliver writable (has_operand n held) _ _ (subset_append_right _ _)) fun _ => ?_
    refine triple_bind (ready_defineLabel mem_cons_self (List.Subset.refl _)) fun _ => ?_
    exact ready_branchResult loc target _

theorem yields_value {C : Context} {held : List Operand} (e : Expr) : Yields C held (value e) :=
  flowTracking_ready.value e held C

theorem ready_place {C : Context} {held : List Operand} (e : Expr) :
    Leaves C held (place e) fun p => [p.operand] ++ held := flowTracking_ready.place e held C

end Lowering

end Cof
