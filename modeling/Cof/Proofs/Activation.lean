/-
  A machine inside a call, and what stretches of code do.

  Code for statements has a few instructions more than code for expressions.  Those that create variables
  and open and close scopes do nothing here, since every variable has its place in the store anyway;
  `setret` records the value that the call is going to return, and `ret` stops the machine.
-/
import Cof.Proofs.Machine

namespace Cof

/-! ## Running the code of a function -/

/-- A machine that runs the code of a function. -/
structure Activation extends Machine where
  /-- The value that the call returns, once that is known. -/
  returned : Option Int32

namespace Activation

def act (alu : Alu) (code : List Instr) (i : Instr) (a : Activation) : Option Activation :=
  match i.opcode, i.operands with
  | .var, _ | .scopeBegin, _ | .scopeEnd, _ => some ⟨a.next, a.returned⟩
  | .setret, [o] => some ⟨a.next, some (a.store.read o)⟩
  | .ret, _ => none
  | _, _ => (a.toMachine.act alu code i).map fun m => ⟨m, a.returned⟩

def step (alu : Alu) (code : List Instr) (a : Activation) : Option Activation :=
  code[a.pc]?.bind fun i => a.act alu code i

abbrev Runs (alu : Alu) (code : List Instr) : Activation → Activation → Prop :=
  Relation.ReflTransGen fun a a' => a.step alu code = some a'

/-- A machine gets to a place, with this store and with so much known about the value to be returned. -/
def Gets (alu : Alu) (code : List Instr) (a : Activation) (place : Nat) (τ : Store) (returned : Option Int32) : Prop :=
  ∃ a', a.Runs alu code a' ∧ a'.pc = place ∧ a'.store = τ ∧ a'.returned = returned

variable {alu : Alu} {code : List Instr} {i : Instr} {a : Activation} {m : Machine}

theorem act_of_machine (acts : a.toMachine.act alu code i = some m) : a.act alu code i = some ⟨m, a.returned⟩ := by
  obtain ⟨opcode, q, operands⟩ := i
  have lifts : (a.toMachine.act alu code ⟨opcode, q, operands⟩).map (fun m => (⟨m, a.returned⟩ : Activation)) =
      some ⟨m, a.returned⟩ := by
    rw [acts]
    rfl
  -- The instructions that are new here are none that a plain machine acts on.
  have unknown : opcode = .var ∨ opcode = .scopeBegin ∨ opcode = .scopeEnd ∨ opcode = .setret ∨
      opcode = .ret → a.toMachine.act alu code ⟨opcode, q, operands⟩ = none := by
    rintro (rfl | rfl | rfl | rfl | rfl) <;> unfold Machine.act <;> split <;> first | rfl | simp_all
  cases opcode with
  | var | scopeBegin | scopeEnd | setret | ret => simp [unknown] at acts
  | _ => exact lifts

theorem step_of_act {a' : Activation} (fetched : code[a.pc]? = some i) (acts : a.act alu code i = some a') :
    a.step alu code = some a' := by
  rw [step, fetched]
  exact acts

end Activation

/-! ## Ways of stepping -/

/-- A way of stepping that acts like a plain machine wherever a plain machine can act. -/
structure Stepping (alu : Alu) where
  Step : List Instr → Activation → Activation → Prop
  acts : ∀ {code a i m}, code[a.pc]? = some i → a.toMachine.act alu code i = some m → Step code a ⟨m, a.returned⟩

/-- How a stretch of code is left. -/
inductive WayOut where
  /-- At its end. -/
  | next
  /-- For a label. -/
  | label (l : Int32)
  /-- By a return, with or without a value. -/
  | ret (value : Option Int32)

namespace Stepping

def plain (alu : Alu) : Stepping alu where
  Step code a a' := a.toMachine.step alu code = some a'.toMachine
  acts fetched acts := by
    rw [Machine.step, fetched]
    exact acts

def calling (alu : Alu) : Stepping alu where
  Step code a a' := a.step alu code = some a'
  acts fetched acts := Activation.step_of_act fetched (Activation.act_of_machine acts)

variable {alu : Alu} (go : Stepping alu)

abbrev Runs (code : List Instr) : Activation → Activation → Prop := Relation.ReflTransGen (go.Step code)

def Gets (code : List Instr) (a : Activation) (place : Nat) (τ : Store) (returned : Option Int32) : Prop :=
  ∃ a', go.Runs code a a' ∧ a'.pc = place ∧ a'.store = τ ∧ a'.returned = returned

/-- A machine leaves a stretch that ends before the place `last`. -/
def Leaves (code : List Instr) (a : Activation) (last : Nat) (τ : Store) : WayOut → Prop
  | .next => go.Gets code a last τ none
  | .label l => ∀ place, Instr.labelIndex? code l = some place → go.Gets code a place τ none
  | .ret v => ∃ place, code[place]? = some ⟨.ret, .none, []⟩ ∧ go.Gets code a place τ v

variable {go} {code : List Instr} {a a' : Activation} {place : Nat} {τ : Store} {v : Option Int32}

theorem gets_of_runs (runs : go.Runs code a a') (h : go.Gets code a' place τ v) : go.Gets code a place τ v := by
  obtain ⟨last, more, stop⟩ := h
  exact ⟨last, runs.trans more, stop⟩

theorem leaves_of_runs (runs : go.Runs code a a') {way : WayOut} (h : go.Leaves code a' place τ way) :
    go.Leaves code a place τ way := by
  cases way with
  | next => exact gets_of_runs runs h
  | label l => exact fun place found => gets_of_runs runs (h place found)
  | ret v =>
    obtain ⟨place, fetched, gets⟩ := h
    exact ⟨place, fetched, gets_of_runs runs gets⟩

end Stepping

/-! ## What a stretch of code does -/

section Flows

variable {alu : Alu} (go : Stepping alu)

/-- Wherever a stretch stands, in code that defines labels once, a machine that starts at its first
instruction with this store leaves it in a way and with a store that are in `Q`. -/
def Flows (τ : Store) (part : List Instr) (Q : WayOut → Store → Prop) : Prop :=
  ∀ code (a : Activation), LabelsOnce code → CodeAt code a.pc part → a.store = τ → a.returned = none →
    ∃ way υ, Q way υ ∧ go.Leaves code a (a.pc + part.length) υ way

/-- It gets to the end of the stretch, with a store in `E`. -/
def Leads (τ : Store) (part : List Instr) (E : Store → Prop) : Prop := Flows go τ part fun way υ => way = .next ∧ E υ

/-- What is wanted of a stretch that other code stands behind. -/
def Before (more : List Instr) (Q : WayOut → Store → Prop) : WayOut → Store → Prop
  | .next, υ => Flows go υ more Q
  | way, υ => Q way υ

/-- The same if the code behind it may be reached by a label too. -/
def BeforeLabel (l : Int32) (more : List Instr) (Q : WayOut → Store → Prop) : WayOut → Store → Prop
  | .next, υ => Flows go υ more Q
  | .label k, υ => Q (.label k) υ ∨ k = l ∧ Flows go υ more Q
  | .ret v, υ => Q (.ret v) υ

/-- Code that gives a variable a number that depends on the store, and does nothing else. -/
def Sets (part : List Instr) (id : UInt32) (f : Store → Int32) : Prop :=
  ∀ (σ : Store) (Q : WayOut → Store → Prop), Q .next (Function.update σ id (f σ)) → Flows go σ part Q

variable {go} {code part more rest near far : List Instr} {a a' : Activation} {σ τ υ : Store}
  {Q R : WayOut → Store → Prop} {E : Store → Prop} {place last : Nat} {i : Instr} {l other done : Int32}

theorem Flows.leaves (h : Flows go τ part Q) (once : LabelsOnce code) (gets : go.Gets code a place τ none)
    (here : CodeAt code place part) (ends : place + part.length = last) :
    ∃ way υ, Q way υ ∧ go.Leaves code a last υ way := by
  obtain ⟨a', runs, rfl, store, returned⟩ := gets
  obtain ⟨way, υ, good, leaves⟩ := h code a' once here store returned
  exact ⟨way, υ, good, Stepping.leaves_of_runs runs (ends ▸ leaves)⟩

theorem Flows.mono (h : Flows go τ part R) (sub : ∀ way υ, R way υ → Q way υ) : Flows go τ part Q := by
  intro code a once here store returned
  obtain ⟨way, υ, good, leaves⟩ := h code a once here store returned
  exact ⟨way, υ, sub way υ good, leaves⟩

theorem Leads.flows (h : Leads go τ part E) (ends : ∀ υ, E υ → Q .next υ) : Flows go τ part Q := by
  refine h.mono ?_
  rintro _ υ ⟨rfl, good⟩
  exact ends υ good

theorem flows_nil (h : Q .next τ) : Flows go τ [] Q :=
  fun _ a _ _ store returned => ⟨.next, τ, h, a, .refl, rfl, store, returned⟩

theorem flows_append (h : Flows go τ part (Before go more Q)) : Flows go τ (part ++ more) Q := by
  intro code a once here store returned
  obtain ⟨way, υ, good, leaves⟩ := h code a once here.left store returned
  cases way with
  | next =>
    have total : a.pc + part.length + more.length = a.pc + (part ++ more).length := by
      rw [List.length_append, Nat.add_assoc]
    exact Flows.leaves good once leaves here.right total
  | label l => exact ⟨.label l, υ, good, leaves⟩
  | ret v => exact ⟨.ret v, υ, good, leaves⟩

theorem Leads.append (h : Leads go τ part E) (rest : ∀ υ, E υ → Flows go υ more Q) : Flows go τ (part ++ more) Q :=
  flows_append (h.flows rest)

/-! ### Single instructions -/

theorem flows_step (steps : ∀ code (a : Activation), a.store = τ → code[a.pc]? = some i →
      ∃ m : Machine, go.Step code a ⟨m, a.returned⟩ ∧ m.pc = a.pc + 1 ∧ m.store = υ)
    (h : Flows go υ more Q) : Flows go τ (i :: more) Q := by
  intro code a once here store returned
  obtain ⟨m, step, place, store'⟩ := steps code a store here.head
  have total : a.pc + 1 + more.length = a.pc + (i :: more).length := by
    rw [List.length_cons]
    omega
  exact h.leaves once ⟨_, .single step, place, store', returned⟩ here.tail total

theorem flows_skip (acts : ∀ code (a : Activation), a.act alu code i = some ⟨a.next, a.returned⟩)
    (h : Flows (.calling alu) τ more Q) : Flows (.calling alu) τ (i :: more) Q :=
  flows_step (fun code a store fetched => ⟨a.next, Activation.step_of_act fetched (acts code a), rfl, store⟩) h

theorem sets_of_act {id : UInt32} {f : Store → Int32}
    (acts : ∀ (m : Machine) code, m.act alu code i = some (m.assign id (f m.store))) : Sets go [i] id f := by
  intro σ Q good
  refine flows_step (fun code a store fetched => ?_) (flows_nil good)
  exact ⟨_, go.acts fetched (acts _ code), rfl, by rw [← store]; rfl⟩

variable {id : UInt32} {q sign : Qualifier} {enc : Encoding} {opcode : Opcode} {left right : Operand}

theorem sets_mov {source : Operand} : Sets go [⟨.mov, q, [.var enc id, source]⟩] id fun σ => σ.read source :=
  sets_of_act fun _ _ => rfl

theorem sets_unary {f : Int32 → Int32} (h : alu.unary? opcode = some f) {operand : Operand} :
    Sets go [⟨opcode, q, [.var enc id, operand]⟩] id fun σ => f (σ.read operand) := by
  refine sets_of_act fun m code => ?_
  cases opcode <;> cases h <;> rfl

theorem sets_binary {f : Int32 → Int32 → Int32} (h : alu.binary? opcode = some f) :
    Sets go [⟨opcode, q, [.var enc id, left, right]⟩] id fun σ => f (σ.read left) (σ.read right) := by
  refine sets_of_act fun m code => ?_
  cases opcode <;> cases h <;> rfl

theorem flows_jump (h : Q (.label l) τ) : Flows go τ [⟨.jmp, q, [.label l]⟩] Q := by
  rintro code a once here rfl returned
  refine ⟨.label l, a.store, h, fun place found => ?_⟩
  have acts : a.toMachine.act alu code ⟨.jmp, q, [.label l]⟩ = some { a.toMachine with pc := place } := by
    show a.toMachine.goto code l = _
    rw [Machine.goto, found]
    rfl
  exact ⟨_, .single (go.acts here.head acts), rfl, rfl, returned⟩

theorem flows_branch (taken : q.holds (τ.read left) (τ.read right) = true → Q (.label l) τ)
    (passed : q.holds (τ.read left) (τ.read right) = false → Flows go τ more Q) :
    Flows go τ (⟨.cmp, sign, [left, right]⟩ :: ⟨.br, q, [.label l]⟩ :: more) Q := by
  change Flows go τ ([_, _] ++ more) Q
  apply flows_append
  rintro code a once here rfl returned
  let compared : Activation := ⟨{ a.next with compared := (a.store.read left, a.store.read right) }, a.returned⟩
  have first : go.Runs code a compared := .single (go.acts here.head rfl)
  have fetched : code[compared.pc]? = some ⟨.br, q, [.label l]⟩ := here.tail.head
  have acts : compared.toMachine.act alu code ⟨.br, q, [.label l]⟩ =
      if q.holds (a.store.read left) (a.store.read right) then compared.toMachine.goto code l
      else some compared.next := rfl
  cases holds : q.holds (a.store.read left) (a.store.read right) with
  | true =>
    refine ⟨.label l, a.store, taken holds, fun place found => ?_⟩
    have goes : compared.toMachine.act alu code ⟨.br, q, [.label l]⟩ = some { compared.toMachine with pc := place } := by
      rw [acts, if_pos holds, Machine.goto, found]
      rfl
    exact ⟨_, first.tail (go.acts fetched goes), rfl, rfl, returned⟩
  | false =>
    have goes : compared.toMachine.act alu code ⟨.br, q, [.label l]⟩ = some compared.next := by
      rw [acts, if_neg (by simp [holds])]
    exact ⟨.next, a.store, passed holds, _, first.tail (go.acts fetched goes), rfl, rfl, returned⟩

theorem flows_return (h : Q (.ret none) τ) : Flows go τ [⟨.ret, .none, []⟩] Q := by
  intro code a once here store returned
  exact ⟨.ret none, τ, h, a.pc, here.head, a, .refl, rfl, store, returned⟩

theorem flows_return_value {o : Operand} (h : Q (.ret (some (τ.read o))) τ) :
    Flows (.calling alu) τ [⟨.setret, .none, [o]⟩, ⟨.ret, .none, []⟩] Q := by
  rintro code a once here rfl returned
  have recorded : (Stepping.calling alu).Step code a ⟨a.next, some (a.store.read o)⟩ :=
    Activation.step_of_act here.head rfl
  exact ⟨.ret _, a.store, h, a.pc + 1, here.tail.head, _, .single recorded, rfl, rfl, rfl⟩

/-! ### Labels -/

theorem flows_forward (h : Flows go τ part (BeforeLabel go l more Q)) : Flows go τ (part ++ Instr.label l :: more) Q := by
  intro code a once here store returned
  have found : Instr.labelIndex? code l = some (a.pc + part.length) := here.right.labelIndex? once
  have total : a.pc + part.length + (Instr.label l :: more).length = a.pc + (part ++ Instr.label l :: more).length := by
    rw [List.length_append, Nat.add_assoc]
  have behind : ∀ υ, Flows go υ more Q → go.Gets code a (a.pc + part.length) υ none →
      ∃ way ρ, Q way ρ ∧ go.Leaves code a (a.pc + (part ++ Instr.label l :: more).length) ρ way := by
    intro υ good gets
    have defined : Flows go υ (Instr.label l :: more) Q :=
      flows_step (fun code a store fetched => ⟨a.next, go.acts fetched rfl, rfl, store⟩) good
    exact defined.leaves once gets here.right total
  obtain ⟨way, υ, good, leaves⟩ := h code a once here.left store returned
  cases way with
  | next => exact behind υ good leaves
  | label k =>
    rcases good with good | ⟨rfl, good⟩
    · exact ⟨.label k, υ, good, leaves⟩
    · exact behind υ good (leaves _ found)
  | ret v => exact ⟨.ret v, υ, good, leaves⟩

/-- A label at the start of a loop: whenever the code behind it goes back there, it does so with a store
from which the loop does what is wanted. -/
theorem flows_again (h : Flows go τ (Instr.label l :: rest) fun way υ =>
      Q way υ ∨ way = .label l ∧ Flows go υ (Instr.label l :: rest) Q) : Flows go τ (Instr.label l :: rest) Q := by
  intro code a once here store returned
  obtain ⟨way, υ, good | ⟨rfl, good⟩, leaves⟩ := h code a once here store returned
  · exact ⟨way, υ, good, leaves⟩
  · exact good.leaves once (leaves _ (here.labelIndex? once)) here rfl

/-! ### Branches that meet again -/

/-- Code that gets to its end or leaves for a second branch; both go on at the same place. -/
theorem flows_join (h : Flows go σ near fun way τ => Q way τ ∨ way = .label other ∧ Flows go τ far Q) : Flows go σ
      (near ++ ⟨.jmp, .none, [.label done]⟩ :: Instr.label other :: (far ++ [Instr.label done])) Q := by
  have shape : near ++ ⟨.jmp, .none, [.label done]⟩ :: Instr.label other :: (far ++ [Instr.label done])
      = (near ++ [⟨.jmp, .none, [.label done]⟩] ++ Instr.label other :: far) ++ [Instr.label done] := by
    simp
  rw [shape]
  apply flows_forward
  apply flows_forward
  apply flows_append
  refine h.mono fun way τ good => ?_
  rcases good with good | ⟨rfl, flows⟩
  · cases way with
    | next => exact flows_jump (.inl (.inr ⟨rfl, flows_nil good⟩))
    | label k => exact .inl (.inl good)
    | ret v => exact good
  · -- Whatever gets to the end of the second branch is then behind its label.
    refine .inr ⟨rfl, flows.mono fun way υ good => ?_⟩
    cases way with
    | next => exact flows_nil good
    | label k => exact .inl good
    | ret v => exact good

theorem flows_ifElse (passed : q.holds (σ.read left) (σ.read right) = false → Flows go σ near Q)
    (taken : q.holds (σ.read left) (σ.read right) = true → Flows go σ far Q) :
    Flows go σ (⟨.cmp, sign, [left, right]⟩ :: ⟨.br, q, [.label other]⟩ ::
      (near ++ ⟨.jmp, .none, [.label done]⟩ :: Instr.label other :: (far ++ [Instr.label done]))) Q := by
  rw [← List.cons_append, ← List.cons_append]
  refine flows_join (flows_branch (fun holds => .inr ⟨rfl, taken holds⟩) fun fails => ?_)
  exact (passed fails).mono fun _ _ => .inl

/-- Two comparisons that may leave for the same branch, with code in between that only the second one
sees the effect of. -/
theorem flows_shortCircuit {sign' : Qualifier} {zero zero' : Operand} {between : List Instr}
    (decided : q.holds (σ.read left) (σ.read zero) = true → Flows go σ far Q)
    (undecided : q.holds (σ.read left) (σ.read zero) = false → Leads go σ between fun τ =>
      (q.holds (τ.read right) (τ.read zero') = true → Flows go τ far Q) ∧
      (q.holds (τ.read right) (τ.read zero') = false → Flows go τ near Q)) :
    Flows go σ (⟨.cmp, sign, [left, zero]⟩ :: ⟨.br, q, [.label other]⟩ :: (between ++
      ⟨.cmp, sign', [right, zero']⟩ :: ⟨.br, q, [.label other]⟩ :: (near ++
        ⟨.jmp, .none, [.label done]⟩ :: Instr.label other :: (far ++ [Instr.label done])))) Q := by
  have shape : ⟨.cmp, sign, [left, zero]⟩ :: ⟨.br, q, [.label other]⟩ :: (between ++
      ⟨.cmp, sign', [right, zero']⟩ :: ⟨.br, q, [.label other]⟩ :: (near ++
        ⟨.jmp, .none, [.label done]⟩ :: Instr.label other :: (far ++ [Instr.label done]))) =
      (⟨.cmp, sign, [left, zero]⟩ :: ⟨.br, q, [.label other]⟩ :: (between ++
        ⟨.cmp, sign', [right, zero']⟩ :: ⟨.br, q, [.label other]⟩ :: near)) ++
        ⟨.jmp, .none, [.label done]⟩ :: Instr.label other :: (far ++ [Instr.label done]) := by simp
  rw [shape]
  refine flows_join (flows_branch (fun holds => .inr ⟨rfl, decided holds⟩) fun fails => ?_)
  refine (undecided fails).append fun τ second => ?_
  refine flows_branch (fun holds => .inr ⟨rfl, second.1 holds⟩) fun fails' => ?_
  exact (second.2 fails').mono fun _ _ => .inl

end Flows

end Cof
