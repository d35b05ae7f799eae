/-
  Operands on their way through the code of an expression.

  The code of an expression is made of few kinds of steps.  Types are noted, quiet instructions are added, results
  are computed into new variables, names are looked up; and there are strings, truth values and branches, which take
  labels.  A relation between steps that composes and that holds of each kind therefore holds of the code of every
  expression, and the induction over expressions is made once for all such relations.

  A relation may be about operands.  Then some of them are *held* before a step, and with its result more are held
  behind it.  An account says which operands are followed in this way: those that are handed on as results, or all
  that are ever read.  The steps on both sides may be for two expressions that differ in positions and names; most
  relations are properties of one side, and leave the other aside.
-/
import Cof.Proofs.Emitted
import Cof.Proofs.Growth
import Cof.Proofs.Mirroring
import Cof.Proofs.Paths

namespace Cof

open List

/-! ## Accounts -/

namespace Lowering

def Place.operand : Place → Operand
  | .storage operand _ => operand
  | .memory address _ => address

def Place.address : Place → List Operand
  | .storage .. => []
  | .memory address _ => [address]

/-- Which operands are followed.  Where all are, those that are no variables are free to be read. -/
inductive Account where
  | results
  | everything

namespace Account

def Reads : Account → List Operand → Operand → Prop
  | results, _, _ => True
  | everything, held, o => o ∈ held ∨ o.id? = none

def Has : Account → List Operand → Operand → Prop
  | results, held, o => o ∈ held
  | everything, held, o => o ∈ held ∨ o.id? = none

def kept : Account → Operand → List Operand
  | results, _ => []
  | everything, o => [o]

def value : Account → Value → List Operand
  | results, v => if v.type = .void then [] else [v.operand]
  | everything, v => [v.operand]

def place : Account → Place → List Operand
  | results, p => p.address
  | everything, p => [p.operand]

variable {A : Account} {held : List Operand} {o o' : Operand} {v : Value} {p : Place}

theorem has_of_mem (mem : o ∈ held) : A.Has held o := by
  cases A with
  | results => exact mem
  | everything => exact .inl mem

theorem has_head : A.Has ([o] ++ held) o := has_of_mem (mem_cons_self ..)

theorem Has.reads (h : A.Has held o) : A.Reads held o := by
  cases A with
  | results => trivial
  | everything => exact h

theorem Has.behind (h : A.Has held o) (os : List Operand) : A.Has (os ++ held) o := by
  cases A with
  | results => exact mem_append_right _ h
  | everything => exact h.imp_left fun mem => mem_append_right _ mem

theorem Reads.behind (h : A.Reads held o) (os : List Operand) : A.Reads (os ++ held) o := by
  cases A with
  | results => trivial
  | everything => exact h.imp_left fun mem => mem_append_right _ mem

theorem reads_constant (none : o.id? = none) : A.Reads held o := by
  cases A with
  | results => trivial
  | everything => exact .inr none

theorem Reads.kept (h : A.Reads held o) : ∀ x ∈ A.kept o, A.Has held x := by
  cases A with
  | results => exact forall_mem_nil _
  | everything => exact forall_mem_singleton.2 h

theorem reads_kept (sub : A.kept o ⊆ held) : A.Reads held o := by
  cases A with
  | results => trivial
  | everything => exact .inl (sub (mem_singleton_self o))

theorem kept_subset (o : Operand) : A.kept o ⊆ [o] := by
  cases A with
  | results => exact nil_subset _
  | everything => exact List.Subset.refl _

theorem value_subset (v : Value) : A.value v ⊆ [v.operand] := by
  cases A with
  | results =>
    rw [value]
    split
    · exact nil_subset _
    · exact List.Subset.refl _
  | everything => exact List.Subset.refl _

theorem has_void : ∀ x ∈ A.value .void, A.Has held x := by
  cases A with
  | results => exact forall_mem_nil _
  | everything => exact forall_mem_singleton.2 (.inr rfl)

theorem Has.value (h : A.Has held v.operand) : ∀ x ∈ A.value v, A.Has held x := by
  intro x mem
  rwa [mem_singleton.1 (value_subset v mem)]

theorem Has.memory (h : A.Has held o) (type : CType) : ∀ x ∈ A.place (.memory o type), A.Has held x := by
  cases A <;> exact forall_mem_singleton.2 h

/-- A value that may be read, and handed on if there is one. -/
structure Gives (A : Account) (held : List Operand) (v : Value) : Prop where
  reads : A.Reads held v.operand
  has : v.type ≠ .void → A.Has held v.operand

theorem gives_value (v : Value) (held : List Operand) : A.Gives (A.value v ++ held) v := by
  cases A with
  | results =>
    refine ⟨trivial, fun proper => mem_append_left _ ?_⟩
    rw [value, if_neg proper]
    exact mem_singleton_self _
  | everything => exact ⟨.inl mem_cons_self, fun _ => .inl mem_cons_self⟩

theorem gives_head (v : Value) (held : List Operand) : A.Gives ([v.operand] ++ held) v :=
  ⟨has_head.reads, fun _ => has_head⟩

theorem Gives.behind (h : A.Gives held v) (os : List Operand) : A.Gives (os ++ held) v :=
  ⟨h.reads.behind os, fun proper => (h.has proper).behind os⟩

/-- A place that may be read, and whose address may be handed on if it is in memory. -/
structure Finds (A : Account) (held : List Operand) (p : Place) : Prop where
  reads : A.Reads held p.operand
  has : ∀ address ∈ p.address, A.Has held address

theorem finds_place (p : Place) (held : List Operand) : A.Finds (A.place p ++ held) p := by
  cases A with
  | results => exact ⟨trivial, fun _ mem => mem_append_left _ mem⟩
  | everything =>
    refine ⟨.inl mem_cons_self, fun address mem => .inl ?_⟩
    cases p with
    | storage => cases mem
    | memory => exact mem_append_left _ mem

theorem Finds.behind (h : A.Finds held p) (os : List Operand) : A.Finds (os ++ held) p :=
  ⟨h.reads.behind os, fun address mem => (h.has address mem).behind os⟩

/-- Operands that an instruction may read. -/
abbrev Takes (A : Account) (held os : List Operand) : Prop := ∀ o ∈ os, A.Reads held o

theorem takes_none : A.Takes held [] := forall_mem_nil _

theorem takes_one (h : A.Reads held o) : A.Takes held [o] := forall_mem_singleton.2 h

theorem takes_two (h : A.Reads held o) (h' : A.Reads held o') : A.Takes held [o, o'] :=
  forall_mem_cons.2 ⟨h, takes_one h'⟩

end Account

open Account

/-! ## Steps with labels -/

def logicalCode (op : BinOp) (loc leftLoc rightLoc : Location) (left right : Lower Value) : Lower Value := do
  let (exit, short, full) := shortCircuit op
  let l ← left
  requireScalar l op.symbol leftLoc
  let shortLabel ← freshLabel
  leaveIf exit l shortLabel
  let r ← right
  requireScalar r op.symbol rightLoc
  let endLabel ← freshLabel
  leaveIf exit r shortLabel
  noted loc (← logicalResult short full shortLabel endLabel)

/-- Code for the branches of `c ? x : y`, once the code for `c` is there. -/
def branchCode (c : Value) (type : CType) (loc yesLoc noLoc : Location) (yes no : Lower Value) : Lower Value := do
  let elseLabel ← freshLabel
  let endLabel ← freshLabel
  compareZero c
  branch .eq elseLabel
  let target ← branchTarget type
  let y ← yes
  deliver target y type yesLoc
  jump endLabel
  defineLabel elseLabel
  let n ← no
  deliver target n type noLoc
  defineLabel endLabel
  branchResult loc target type

/-! ## Relations between steps -/

/-- A relation between steps that composes, and that holds of the steps without labels.  It is about the operands
that are held before a step, and about more that come with its result. -/
structure Tracking (ρ : Relabeling) (A : Account)
    (J : ∀ {α : Type}, List Operand → (α → List Operand) → Lower α → Lower α → Prop) : Prop where
  pure : ∀ {α : Type} {held} {out : α → List Operand} {a}, (∀ o ∈ out a, A.Has held o) →
    J held out (Pure.pure a : Lower α) (Pure.pure a)
  fail : ∀ {α : Type} {held} {out : α → List Operand} (cause : Fault) (loc : Location),
    J held out (Lowering.fail cause loc : Lower α) (Lowering.fail (cause.relabel ρ) (ρ.loc loc))
  bind : ∀ {α β : Type} {held out} {out' : β → List Operand} {m m' : Lower α} {f f' : α → Lower β}, J held out m m' →
    (∀ s a t, m s = .ok a t → J (out a ++ held) out' (f a) (f' a)) → J held out' (m >>= f) (m' >>= f')
  noteType : ∀ {held} loc type,
    J held (fun _ => []) (Lowering.noteType loc type) (Lowering.noteType (ρ.loc loc) type)
  emit : ∀ {held opcode qualifier operands}, Instr.Quiet ⟨opcode, qualifier, operands⟩ → A.Takes held operands →
    J held (fun _ => []) (Lowering.emit opcode qualifier operands) (Lowering.emit opcode qualifier operands)
  compute : ∀ {held opcode qualifier type operands},
    (∀ id, Instr.Quiet ⟨opcode, qualifier, .var type.encoding id :: operands⟩) → opcode.writes = true →
    A.Takes held operands → J held (fun v => [v.operand]) (Lowering.compute opcode qualifier type operands)
      (Lowering.compute opcode qualifier type operands)
  namedPlace : ∀ {held} loc name,
    J held A.place (Lowering.namedPlace loc name) (Lowering.namedPlace (ρ.loc loc) (ρ.name name))
  resolveCallee : ∀ {held} callee loc, J held (fun f => A.kept (.symbol Encoding.ptr.tag f.name))
    (Lowering.resolveCallee callee loc) (Lowering.resolveCallee (callee.relabel ρ) (ρ.loc loc))
  inferred : ∀ {held} e, J held (fun _ => []) (Lowering.inferred e) (Lowering.inferred (e.relabel ρ))

/-- One that holds of the steps with labels too. -/
structure FlowTracking (ρ : Relabeling) (A : Account)
    (J : ∀ {α : Type}, List Operand → (α → List Operand) → Lower α → Lower α → Prop) : Prop
    extends Tracking ρ A J where
  stringConstant : ∀ held bytes,
    J held (fun v => [v.operand]) (Lowering.stringConstant bytes) (Lowering.stringConstant bytes)
  truthOf : ∀ {held left right} signedness condition, A.Reads held left → A.Reads held right →
    J held (fun v => [v.operand]) (Lowering.truthOf left right signedness condition)
      (Lowering.truthOf left right signedness condition)
  logical : ∀ {held} op loc leftLoc rightLoc {left left' right right'}, (∀ held, J held A.value left left') →
    (∀ held, J held A.value right right') → J held A.value (logicalCode op loc leftLoc rightLoc left right)
      (logicalCode op (ρ.loc loc) (ρ.loc leftLoc) (ρ.loc rightLoc) left' right')
  branches : ∀ {held} c type loc yesLoc noLoc {yes yes' no no'}, A.Reads held c.operand →
    (∀ held, J held A.value yes yes') → (∀ held, J held A.value no no') →
    J held A.value (branchCode c type loc yesLoc noLoc yes no)
      (branchCode c type (ρ.loc loc) (ρ.loc yesLoc) (ρ.loc noLoc) yes' no')

/-- One that holds of every single step with a label, and of a new variable. -/
structure StepTracking (ρ : Relabeling) (A : Account)
    (J : ∀ {α : Type}, List Operand → (α → List Operand) → Lower α → Lower α → Prop) : Prop
    extends Tracking ρ A J where
  freshLabel : ∀ {held}, J held (fun _ => []) Lowering.freshLabel Lowering.freshLabel
  temporary : ∀ {held} type, J held (fun o => [o]) (Lowering.temporary type) (Lowering.temporary type)
  plain : ∀ {held opcode qualifier operands}, Instr.isPlain ⟨opcode, qualifier, operands⟩ = true →
    A.Takes held operands →
    J held (fun _ => []) (Lowering.emit opcode qualifier operands) (Lowering.emit opcode qualifier operands)

/-- What was held before and comes with the last of two results is there if the first one is held too. -/
theorem subset_between (new middle held : List Operand) : new ++ held ⊆ new ++ (middle ++ held) :=
  append_subset.2 ⟨subset_append_left _ _,
    subset_append_of_subset_right _ (subset_append_right _ _)⟩

theorem opcode?_writes {op : BinOp} {opcode : Opcode} (h : opcode? op = some opcode) : opcode.writes = true := by
  cases op <;> simp [opcode?] at h <;> subst h <;> rfl

theorem ne_void_of_isScalar {type : CType} (h : type.isScalar = true) : type ≠ .void := by
  rintro rfl
  cases h

namespace Tracking

variable {ρ : Relabeling} {A : Account}
  {J : ∀ {α : Type}, List Operand → (α → List Operand) → Lower α → Lower α → Prop}
  {α β : Type} {held : List Operand} {out : α → List Operand}

/-! ### Steps in general -/

variable {m m' : Lower α} {opcode : Opcode} {qualifier : Qualifier} {operands : List Operand} {p : Place}
  {v left right : Value}

theorem seq (h : Tracking ρ A J) {out' : β → List Operand} {f f' : α → Lower β} (first : J held out m m')
    (rest : ∀ a, J (out a ++ held) out' (f a) (f' a)) : J held out' (m >>= f) (m' >>= f') :=
  h.bind first fun _ a _ _ => rest a

theorem weaken (h : Tracking ρ A J) {less : α → List Operand} (first : J held out m m')
    (sub : ∀ a, less a ⊆ out a) : J held less m m' := by
  have both : J held less (m >>= Pure.pure) (m' >>= Pure.pure) :=
    h.seq first fun a => h.pure fun o mem => has_of_mem (mem_append_left _ (sub a mem))
  rwa [bind_pure, bind_pure] at both

theorem ite {c : Prop} [Decidable c] {n n' : Lower α} (hm : c → J held out m m') (hn : ¬ c → J held out n n') :
    J held out (if c then m else n) (if c then m' else n') := by
  split
  · exact hm ‹_›
  · exact hn ‹_›

section

variable (h : Tracking ρ A J)
include h

theorem done : J held (fun _ => []) (Pure.pure () : Lower Unit) (Pure.pure ()) :=
  h.pure (forall_mem_nil _)

theorem hand (has : A.Has held v.operand) :
    J held (fun w : Value => [w.operand]) (Pure.pure v) (Pure.pure v) := h.pure (forall_mem_singleton.2 has)

theorem noted (loc : Location) (has : ∀ o ∈ A.value v, A.Has held o) :
    J held A.value (noted loc v) (noted (ρ.loc loc) v) := h.seq (h.noteType loc v.type) fun _ => h.pure has

theorem noting {out : Value → List Operand} {m m' : Lower Value} (loc : Location)
    (first : J held out m m') (sub : ∀ v, A.value v ⊆ out v) :
    J held A.value (m >>= Lowering.noted loc) (m' >>= Lowering.noted (ρ.loc loc)) :=
  h.seq first fun v => h.noted loc fun _ mem => has_of_mem (mem_append_left _ (sub v mem))

theorem notePlace (loc : Location) (has : ∀ o ∈ A.place p, A.Has held o) :
    J held A.place (notePlace loc p) (notePlace (ρ.loc loc) p) := h.seq (h.noteType loc p.type) fun _ => h.pure has

theorem invalid (operator : String) (operands : Operands) (loc : Location) :
    J held out (invalid operator operands loc : Lower α) (invalid operator operands (ρ.loc loc)) :=
  h.fail (.invalidOperand operator operands) loc

theorem requireScalar (held : List Operand) (v : Value) (operator : String) (loc : Location) :
    J held (fun _ => []) (requireScalar v operator loc) (requireScalar v operator (ρ.loc loc)) :=
  ite (fun _ => h.done) fun _ => h.invalid _ _ _

theorem requireModifiable (p : Place) (loc : Location) :
    J held (fun _ => []) (requireModifiable p loc) (requireModifiable p (ρ.loc loc)) :=
  ite (fun _ => h.fail .notAssignable loc) fun _ => h.done

theorem requireCount (f : Callee) (count : Nat) (loc : Location) :
    J held (fun _ => []) (requireCount f count loc) (requireCount f count (ρ.loc loc)) :=
  ite (fun _ => h.done) fun _ => h.fail (.argumentCount f.name f.params.length count) loc

end

/-! ### Operations -/

section

variable (h : Tracking ρ A J)
include h

theorem operation {type : CType} (quiet : opcode.isQuiet = true)
    (writes : opcode.writes = true) (reads : A.Takes held operands) : J held (fun v => [v.operand])
      (Lowering.compute opcode qualifier type operands) (Lowering.compute opcode qualifier type operands) :=
  h.compute (fun _ => Instr.quiet_of_opcode _ _ quiet) writes reads

theorem instruction (quiet : opcode.isQuiet = true) (reads : A.Takes held operands) :
    J held (fun _ => []) (Lowering.emit opcode qualifier operands) (Lowering.emit opcode qualifier operands) :=
  h.emit (Instr.quiet_of_opcode _ _ quiet) reads

theorem constant (type : CType) (bits : UInt64) :
    J held (fun v => [v.operand]) (constant type bits) (constant type bits) :=
  h.operation rfl rfl (takes_one (reads_constant rfl))

theorem convert (has : A.Has held v.operand) (target : CType) :
    J held (fun w => [w.operand]) (convert v target) (convert v target) :=
  ite (fun _ => h.hand has) fun _ => ite (fun _ => h.hand has) fun _ => h.operation rfl rfl (takes_one has.reads)

theorem convertRead (reads : A.Reads held v.operand) (target : CType) :
    J held (fun w => A.kept w.operand) (Lowering.convert v target) (Lowering.convert v target) := by
  refine ite (fun _ => h.pure reads.kept) fun _ => ite (fun _ => h.pure reads.kept) fun _ => ?_
  exact h.weaken (h.operation rfl rfl (takes_one reads)) fun w => kept_subset w.operand

theorem convertAssigned (given : A.Gives held v) (target : CType) (loc : Location) :
    J held (fun w => [w.operand]) (convertAssigned v target loc) (convertAssigned v target (ρ.loc loc)) := by
  refine ite (fun assignable => h.convert (given.has (ne_void_of_isScalar ?_)) target) fun _ => h.invalid _ _ _
  simp only [Lowering.assignable, Bool.and_eq_true] at assignable
  exact assignable.1.2

theorem readPlace (found : A.Finds held p) (address : p.Addressable) :
    J held (fun v => [v.operand]) (readPlace p) (readPlace p) := by
  cases p with
  | storage operand type =>
    refine ite (fun _ => h.compute (fun _ => quiet_lea address) rfl (takes_one found.reads)) fun _ => ?_
    exact h.operation rfl rfl (takes_one found.reads)
  | memory address type =>
    refine ite (fun _ => h.hand (found.has _ (mem_singleton_self _))) fun _ => ?_
    exact h.operation rfl rfl (takes_one found.reads)

theorem writePlace (found : A.Finds held p) {value : Operand} (reads : A.Reads held value) :
    J held (fun _ => []) (writePlace p value) (writePlace p value) := by
  cases p <;> exact h.instruction rfl (takes_two found.reads reads)

theorem addressOf (found : A.Finds held p) (address : p.Addressable) :
    J held (fun v => [v.operand]) (addressOf p) (addressOf p) := by
  cases p with
  | storage operand type => exact h.compute (fun _ => quiet_lea address) rfl (takes_one found.reads)
  | memory address type => exact h.hand (found.has _ (mem_singleton_self _))

theorem offsetPointer {pointer index : Value} (hp : A.Reads held pointer.operand)
    (hi : A.Reads held index.operand) (moves : opcode = .add ∨ opcode = .sub) : J held (fun v => [v.operand])
      (offsetPointer pointer index opcode) (offsetPointer pointer index opcode) := by
  refine h.seq (h.convertRead hi .long) fun i => ?_
  refine h.seq (h.operation rfl rfl (takes_two (reads_kept (subset_append_left _ _)) (reads_constant rfl))) ?_
  intro scaled
  have reads := takes_two ((hp.behind (A.kept i.operand)).behind [scaled.operand]) has_head.reads
  rcases moves with rfl | rfl <;> exact h.operation rfl rfl reads

theorem convertRight (op : BinOp) (hr : A.Reads held right.operand) (type : CType) :
    J held (fun w => A.kept w.operand) (convertRight op right type) (convertRight op right type) :=
  ite (fun _ => h.pure hr.kept) fun _ => h.convertRead hr type

theorem numeric (op : BinOp) (hl : A.Reads held left.operand) (hr : A.Reads held right.operand) (loc : Location) :
    J held (fun v => [v.operand]) (numeric op left right loc) (numeric op left right (ρ.loc loc)) := by
  unfold Lowering.numeric
  cases resultType? op left.type right.type with
  | none => exact h.invalid _ _ _
  | some type =>
    refine h.seq (h.convertRead hl type) fun l => h.seq (h.convertRight op (hr.behind _) type) fun r => ?_
    cases found : opcode? op with
    | none => exact h.invalid _ _ _
    | some opcode =>
      refine h.operation (opcode?_quiet found) (opcode?_writes found) (takes_two ?_ ?_)
      · exact (reads_kept (subset_append_left _ _)).behind _
      · exact reads_kept (subset_append_left _ _)

theorem arithmetic (op : BinOp) (hl : A.Reads held left.operand) (hr : A.Reads held right.operand) (loc : Location) :
    J held (fun v => [v.operand]) (arithmetic op left right loc) (arithmetic op left right (ρ.loc loc)) := by
  refine ite (fun _ => h.offsetPointer hl hr (.inl rfl)) fun _ => ?_
  refine ite (fun _ => h.offsetPointer hr hl (.inl rfl)) fun _ => ?_
  refine ite (fun _ => h.offsetPointer hl hr (.inr rfl)) fun _ => ite (fun _ => ?_) fun _ => ?_
  · refine h.seq (h.operation rfl rfl (takes_two hl hr)) fun bytes => ?_
    exact h.operation rfl rfl (takes_two has_head.reads (reads_constant rfl))
  · exact ite (fun _ => h.invalid _ _ _) fun _ => h.numeric op hl hr loc

theorem comparable (op : BinOp) (hl : A.Reads held left.operand) (hr : A.Reads held right.operand) (loc : Location) :
    J held (fun pair => A.kept pair.1.operand ++ A.kept pair.2.operand) (comparable op left right loc)
      (comparable op left right (ρ.loc loc)) := by
  have both : ∀ {held} {l r : Value}, A.Reads held l.operand → A.Reads held r.operand →
      J held (fun pair : Value × Value => A.kept pair.1.operand ++ A.kept pair.2.operand) (Pure.pure (l, r))
        (Pure.pure (l, r)) := fun hl hr => h.pure (forall_mem_append.2 ⟨hl.kept, hr.kept⟩)
  have kept : ∀ {held} (w : Value), A.Reads (A.kept w.operand ++ held) w.operand := fun w =>
    reads_kept (subset_append_left _ _)
  refine ite (fun _ => ?_) fun _ => ite (fun _ => both hl hr) fun _ => ?_
  · refine h.seq (h.convertRead hl _) fun l => h.seq (h.convertRead (hr.behind _) _) fun r => ?_
    exact both ((kept l).behind _) (kept r)
  refine ite (fun _ => ?_) fun _ => ite (fun _ => ?_) fun _ => h.invalid _ _ _
  · exact h.seq (h.convertRead hr _) fun r => both (hl.behind _) (kept r)
  · exact h.seq (h.convertRead hl _) fun l => both (kept l) (hr.behind _)

theorem compareZero (reads : A.Reads held v.operand) :
    J held (fun _ => []) (compareZero v) (compareZero v) := h.instruction rfl (takes_two reads (reads_constant rfl))

theorem signed (op : UnOp) (given : A.Gives held v) (loc : Location) :
    J held (fun w => [w.operand]) (signed op v loc) (signed op v (ρ.loc loc)) := by
  refine ite (fun _ => h.invalid _ _ _) fun taken => ?_
  have proper : v.type ≠ .void := by
    intro void
    rw [void] at taken
    split at taken <;> exact taken rfl
  refine h.seq (h.convert (given.has proper) _) fun w => ite (fun _ => h.hand has_head) fun _ => ?_
  refine h.operation ?_ ?_ (takes_one has_head.reads) <;> split <;> rfl

theorem stepPlace (step : Step) (fixity : Fixity) (loc : Location) (found : A.Finds held p) (address : p.Addressable) :
    J held (fun v => [v.operand]) (stepPlace step fixity p loc) (stepPlace step fixity p (ρ.loc loc)) := by
  have one : ∀ {held}, A.Reads held (Lowering.one p.type).operand := by
    unfold Lowering.one
    split <;> exact reads_constant rfl
  refine h.seq (h.requireModifiable p loc) fun _ => h.seq (h.readPlace found address) fun old => ?_
  refine h.seq (h.requireScalar _ _ _ loc) fun _ => h.seq (h.arithmetic _ has_head.reads one loc) fun new => ?_
  refine h.seq (h.convert has_head _) fun new' => ?_
  refine h.seq (h.writePlace (((found.behind _).behind _).behind _) has_head.reads) fun _ => ?_
  cases fixity with
  | pre => exact h.hand has_head
  | post => exact h.hand (has_of_mem (by simp))

theorem castValue (given : A.Gives held v) (target : CType) (loc : Location) :
    J held A.value (castValue v target loc) (castValue v target (ρ.loc loc)) := by
  refine ite (fun _ => h.pure has_void) fun _ => ite (fun both => ?_) fun _ => h.invalid _ _ _
  have proper := ne_void_of_isScalar (Bool.and_eq_true_iff.1 both).2
  exact h.weaken (h.convert (given.has proper) target) value_subset

end

/-! ### Parts of expressions -/

section

variable (h : Tracking ρ A J)
include h

theorem pointedPlace (loc : Location) {pointer : Value} (given : A.Gives held pointer) :
    J held A.place (pointedPlace loc pointer) (pointedPlace (ρ.loc loc) pointer) := by
  unfold Lowering.pointedPlace
  cases points : pointer.type.pointee? with
  | none => exact h.invalid _ _ _
  | some type =>
    have proper : pointer.type ≠ .void := by
      intro void
      rw [void] at points
      cases points
    exact ite (fun _ => h.invalid _ _ _) fun _ => h.notePlace loc ((given.has proper).memory type)

theorem elementPlace (loc : Location) {base index : Value} (hb : A.Reads held base.operand)
    (hi : A.Reads held index.operand) :
    J held A.place (elementPlace loc base index) (elementPlace (ρ.loc loc) base index) := by
  unfold Lowering.elementPlace
  -- The two may change their roles, but both may be read.
  have pair : A.Reads held (if !base.type.isPointer && index.type.isPointer then (index, base)
      else (base, index)).1.operand ∧ A.Reads held (if !base.type.isPointer && index.type.isPointer then
      (index, base) else (base, index)).2.operand := by
    split
    · exact ⟨hi, hb⟩
    · exact ⟨hb, hi⟩
  generalize (if !base.type.isPointer && index.type.isPointer then (index, base) else (base, index)) = parts at pair
  obtain ⟨base, index⟩ := parts
  simp only
  cases base.type.pointee? with
  | none => exact h.invalid _ _ _
  | some type =>
    refine ite (fun _ => ?_) fun _ => h.invalid _ _ _
    exact h.seq (h.offsetPointer pair.1 pair.2 (.inl rfl)) fun _ => h.notePlace loc (has_head.memory type)

theorem convertArgument (given : A.Gives held v) (param : Option CType) (loc : Location) :
    J held (fun w => [w.operand]) (convertArgument v param loc) (convertArgument v param (ρ.loc loc)) := by
  cases param with
  | some type => exact h.convertAssigned given type loc
  | none =>
    refine h.bind (h.requireScalar _ v "..." loc) fun _ _ _ run => ?_
    exact h.convert (given.has (ne_void_of_isScalar (requireScalar_eq_ok.1 run).1)) _

theorem passArguments (index : Nat) {args : List Operand} (reads : A.Takes held args) :
    J held (fun _ => []) (passArguments index args) (passArguments index args) := by
  induction args generalizing index with
  | nil => exact h.done
  | cons arg args ih =>
    obtain ⟨first, rest⟩ := forall_mem_cons.1 reads
    exact h.seq (h.instruction rfl (takes_two (reads_constant rfl) first)) fun _ => ih _ rest

theorem callWith {f : Callee} {args : List Operand} (named : A.Reads held (.symbol Encoding.ptr.tag f.name))
    (reads : A.Takes held args) : J held A.value (callWith f args) (callWith f args) := by
  refine h.seq (h.passArguments 0 reads) fun _ => h.seq (h.instruction rfl (takes_one named)) fun _ => ?_
  refine ite (fun _ => h.pure has_void) fun _ => ?_
  exact h.weaken (h.operation rfl rfl takes_none) value_subset

theorem storeResult (loc : Location) (found : A.Finds held p) (given : A.Gives held v) :
    J held A.value (storeResult loc p v) (storeResult (ρ.loc loc) p v) := by
  refine h.seq (h.convertAssigned given p.type loc) fun w => ?_
  refine h.seq (h.writePlace (found.behind _) has_head.reads) fun _ => h.noted loc ?_
  exact Has.value has_head

theorem deliver {target : Option Operand} (reads : ∀ o ∈ target, A.Reads held o) (given : A.Gives held v)
    (type : CType) (loc : Location) :
    J held (fun _ => []) (deliver target v type loc) (deliver target v type (ρ.loc loc)) := by
  cases target with
  | none => exact h.done
  | some target =>
    refine h.seq (h.convertAssigned given type loc) fun w => h.instruction rfl (takes_two ?_ has_head.reads)
    exact (reads target rfl).behind _

theorem branchResult (loc : Location) {target : Option Operand} (has : ∀ o ∈ target, A.Has held o) (type : CType) :
    J held A.value (branchResult loc target type) (branchResult (ρ.loc loc) target type) := by
  cases target with
  | none => exact h.noted loc has_void
  | some target => exact h.noted loc (Has.value (has target rfl))

end

end Tracking

/-! ## Steps with labels from single ones -/

namespace StepTracking

variable {ρ : Relabeling} {A : Account}
  {J : ∀ {α : Type}, List Operand → (α → List Operand) → Lower α → Lower α → Prop} {held : List Operand}
  (h : StepTracking ρ A J)
include h

theorem labeled {opcode : Opcode} {qualifier : Qualifier} {o : Operand}
    (plain : Instr.isPlain ⟨opcode, qualifier, [o]⟩ = true) (none : o.id? = none) :
    J held (fun _ => []) (emit opcode qualifier [o]) (emit opcode qualifier [o]) :=
  h.plain plain (takes_one (reads_constant none))

theorem defineLabel (l : Int32) : J held (fun _ => []) (defineLabel l) (defineLabel l) :=
  h.labeled rfl rfl

theorem leaveIf {v : Value} (reads : A.Reads held v.operand) (exit : Qualifier) (label : Int32) :
    J held (fun _ => []) (leaveIf exit v label) (leaveIf exit v label) :=
  h.seq (h.compareZero reads) fun _ => h.labeled rfl rfl

theorem logicalResult (short full : UInt64) (shortLabel endLabel : Int32) : J held (fun v => [v.operand])
      (logicalResult short full shortLabel endLabel) (logicalResult short full shortLabel endLabel) := by
  refine h.seq (h.temporary .int) fun target => ?_
  have write : ∀ bits, J ([target] ++ held) (fun _ => []) (emit .mov .none [target, intConstant bits])
      (emit .mov .none [target, intConstant bits]) := fun _ =>
    h.plain rfl (takes_two has_head.reads (reads_constant rfl))
  refine h.seq (write full) fun _ => h.seq (h.labeled rfl rfl) fun _ => h.seq (h.defineLabel _) fun _ => ?_
  exact h.seq (write short) fun _ => h.seq (h.defineLabel _) fun _ => h.hand has_head

theorem branchTarget (type : CType) : J held Option.toList (branchTarget type) (branchTarget type) := by
  refine Tracking.ite (fun _ => h.pure (forall_mem_nil _)) fun _ => h.seq (h.temporary type) fun target => ?_
  exact h.pure (forall_mem_singleton.2 has_head)

theorem flow : FlowTracking ρ A J where
  toTracking := h.toTracking
  stringConstant _ _ := by
    refine h.seq h.freshLabel fun label => h.seq (h.plain rfl ?_) fun _ => ?_
    · exact takes_two (reads_constant rfl) (reads_constant rfl)
    refine h.seq (h.temporary _) fun target => h.seq (h.plain rfl ?_) fun _ => h.hand has_head
    exact takes_two has_head.reads (reads_constant rfl)
  truthOf signedness condition hl hr := by
    refine h.seq h.freshLabel fun onFalse => h.seq h.freshLabel fun done => ?_
    refine h.seq (h.instruction rfl (takes_two hl hr)) fun _ => h.seq (h.labeled rfl rfl) fun _ => ?_
    exact h.logicalResult 0 1 onFalse done
  logical op loc leftLoc rightLoc left _ right _ hl hr := by
    refine h.seq (hl _) fun l => h.seq (h.requireScalar _ _ _ leftLoc) fun _ => h.seq h.freshLabel fun shortLabel => ?_
    refine h.seq (h.leaveIf (gives_value l _).reads _ _) fun _ => h.seq (hr _) fun r => ?_
    refine h.seq (h.requireScalar _ _ _ rightLoc) fun _ => h.seq h.freshLabel fun endLabel => ?_
    refine h.seq (h.leaveIf (gives_value r _).reads _ _) fun _ => ?_
    exact h.noting loc (h.logicalResult _ _ _ _) value_subset
  branches {held} c type loc yesLoc noLoc yes _ no _ reads hy hn := by
    refine h.seq h.freshLabel fun elseLabel => h.seq h.freshLabel fun endLabel => ?_
    refine h.seq (h.compareZero reads) fun _ => h.seq (h.labeled rfl rfl) fun _ => ?_
    refine h.seq (h.branchTarget type) fun target => h.seq (hy _) fun y => ?_
    have has : ∀ {more}, ∀ o ∈ target, A.Has (more ++ (target.toList ++ held)) o := fun o mem =>
      (has_of_mem (mem_append_left _ (Option.mem_toList.2 mem))).behind _
    refine h.seq (h.deliver (fun o mem => (has o mem).reads) (gives_value y _) type yesLoc) fun _ => ?_
    refine h.seq (h.labeled rfl rfl) fun _ => h.seq (h.defineLabel _) fun _ => h.seq (hn _) fun n => ?_
    refine h.seq (h.deliver (fun o mem => ((has o mem).behind _).reads) (gives_value n _) type noLoc) fun _ => ?_
    exact h.seq (h.defineLabel _) fun _ => h.branchResult loc (fun o mem => (has o mem).behind _) type

end StepTracking

end Lowering

end Cof
