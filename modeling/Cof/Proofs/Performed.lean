/-
  Code that does what statements mean.

  The code for a statement keeps intermediate results in variables of its own, so the store of the machine
  and the store that the statement is evaluated in agree on some of the variables only: those that are
  declared.  `Performs` says that code takes stores that agree to stores that agree, and that it is left
  at its end, for the label of a loop or by a return, as the outcome of the evaluation says.
-/
import Cof.Lowering.State
import Cof.Proofs.Activation
import Cof.Proofs.Execution
import Cof.Proofs.Simulation

namespace Cof

open Lowering

/-! ## Expressions -/

/-- From stores that agree, code makes the value of an expression, and an operand stands for it then. -/
def Evaluates (alu : Alu) (V : UInt32 → Prop) (t : Scopes) (e : Expr) (result : Operand) (part : List Instr) : Prop :=
  ∀ σ a σ' τ, eval alu t e σ = some (a, σ') → AgreeOn V τ σ →
    Leads (.calling alu) τ part fun υ => υ.read result = a ∧ AgreeOn V υ σ'

theorem Computes.evaluates {alu : Alu} {V : UInt32 → Prop} {t : Scopes} {e : Expr} {k k' r : Nat} {part : List Instr}
    (h : Computes (.calling alu) V t e k k' r part) (room : Room V k k') : Evaluates alu V t e (intVar r) part := by
  intro σ a σ' τ evaluates agree
  obtain ⟨a', σ₁, evaluates', leads⟩ := h σ
  obtain ⟨rfl, rfl⟩ : a' = a ∧ σ₁ = σ' := by
    simpa using evaluates'.symm.trans evaluates
  exact (leads room τ agree).flows fun υ ends => ⟨rfl, ends.result, ends.declared⟩

/-! ## Code with an outcome -/

def Outcome.wayOut? (loops : List LoopLabels) : Outcome → Option WayOut
  | normal => some .next
  | broke => loops.head?.map fun labels => .label labels.onBreak
  | continued => loops.head?.map fun labels => .label labels.onContinue
  | returned value => some (.ret value)

/-- A stretch is left as an outcome says, with a store that agrees with the one after it. -/
def Ended (V : UInt32 → Prop) (loops : List LoopLabels) (o : Outcome) (σ : Store) (way : WayOut) (υ : Store) : Prop :=
  o.wayOut? loops = some way ∧ AgreeOn V υ σ

/-- From stores that agree, code does what a relation says. -/
def Performs (alu : Alu) (V : UInt32 → Prop) (loops : List LoopLabels)
    (meaning : Store → Outcome → Store → Prop) (part : List Instr) : Prop :=
  ∀ σ o σ' τ, meaning σ o σ' → AgreeOn V τ σ → Flows (.calling alu) τ part (Ended V loops o σ')

def Effect (f : Store → Option Store) (σ : Store) (o : Outcome) (σ' : Store) : Prop := f σ = some σ' ∧ o = .normal

/-- Code goes on if a test succeeds, and to a label if it fails. -/
def Tests (alu : Alu) (V : UInt32 → Prop) (test : Store → Option (Bool × Store)) (onFalse : Int32)
    (part : List Instr) : Prop :=
  ∀ σ holds σ' τ, test σ = some (holds, σ') → AgreeOn V τ σ →
    Flows (.calling alu) τ part fun way υ => way = (if holds then .next else .label onFalse) ∧ AgreeOn V υ σ'

section Performs

variable {alu : Alu} {V : UInt32 → Prop} {loops : List LoopLabels} {part more first second : List Instr}
  {M N : Store → Outcome → Store → Prop} {f : Store → Option Store} {t : Scopes} {e : Expr} {r : Operand}

variable {o : Outcome} {σ σ' τ : Store} {Q : WayOut → Store → Prop} {sign : Qualifier}
  {l onFalse done start next : Int32} {step : Store → Option Store}

theorem Outcome.eq_normal_of_wayOut? (h : o.wayOut? loops = some .next) : o = .normal := by
  cases o with
  | normal => rfl
  | broke | continued =>
    obtain ⟨labels, -, same⟩ := Option.map_eq_some_iff.1 h
    cases same
  | returned v => cases h

theorem Ended.before {υ : Store} {way : WayOut}
    (h : Ended V loops o σ way υ) (through : o = .normal → Flows (.calling alu) υ more Q)
    (left : o ≠ .normal → Q way υ) : Before (.calling alu) more Q way υ := by
  by_cases normal : o = .normal
  · subst normal
    obtain rfl : WayOut.next = way := Option.some.inj h.1
    exact through rfl
  · cases way with
    | next => exact absurd (Outcome.eq_normal_of_wayOut? h.1) normal
    | label l => exact left normal
    | ret v => exact left normal

theorem performs_nil : Performs alu V loops (fun σ o σ' => o = .normal ∧ σ' = σ) [] := by
  rintro σ o σ' τ ⟨rfl, rfl⟩ agree
  exact flows_nil ⟨rfl, agree⟩

theorem performs_effect_nil : Performs alu V loops (Effect some) [] := by
  rintro σ o σ' τ ⟨⟨⟩, rfl⟩ agree
  exact flows_nil ⟨rfl, agree⟩

theorem performs_append (hM : Performs alu V loops M part) (hN : Performs alu V loops N more) :
    Performs alu V loops (fun σ o σ' => ∃ o₁ σ₁, M σ o₁ σ₁ ∧
      if o₁ = .normal then N σ₁ o σ' else o = o₁ ∧ σ' = σ₁) (part ++ more) := by
  rintro σ o σ' τ ⟨o₁, σ₁, one, other⟩ agree
  apply flows_append
  refine (hM σ o₁ σ₁ τ one agree).mono fun way υ ended => ended.before ?_ ?_
  · intro through
    rw [if_pos through] at other
    exact hN σ₁ o σ' υ other ended.2
  · intro left
    rw [if_neg left] at other
    obtain ⟨rfl, rfl⟩ := other
    exact ended

theorem performs_effect_append (hf : Performs alu V loops (Effect f) part) (hN : Performs alu V loops N more) :
    Performs alu V loops (fun σ o σ' => ∃ σ₁, f σ = some σ₁ ∧ N σ₁ o σ') (part ++ more) := by
  rintro σ o σ' τ ⟨σ₁, one, other⟩ agree
  refine performs_append hf hN σ o σ' τ ⟨.normal, σ₁, ⟨one, rfl⟩, ?_⟩ agree
  exact other

theorem performs_scope (h : Performs alu V loops M part) :
    Performs alu V loops M (⟨.scopeBegin, .none, []⟩ :: (part ++ [⟨.scopeEnd, .none, []⟩])) := by
  intro σ o σ' τ meant agree
  apply flows_skip fun _ _ => rfl
  apply flows_append
  refine (h σ o σ' τ meant agree).mono fun way υ ended => ended.before ?_ fun _ => ended
  intro through
  exact flows_skip (fun _ _ => rfl) (flows_nil ⟨by rw [through]; rfl, ended.2⟩)

theorem Evaluates.performs (h : Evaluates alu V t e r part) :
    Performs alu V loops (Effect (evalEffect alu t (some e))) part := by
  rintro σ o σ' τ ⟨effect, rfl⟩ agree
  obtain ⟨⟨a, σ₁⟩, evaluates, rfl⟩ := Option.map_eq_some_iff.1 effect
  exact (h σ a σ₁ τ evaluates agree).flows fun υ good => ⟨rfl, good.2⟩

theorem Evaluates.flows_branch (h : Evaluates alu V t e r part) {q : Qualifier} {holds : Bool}
    (tested : evalTest alu t (some e) σ = some (holds, σ')) (agree : AgreeOn V τ σ)
    (branch : ∀ a υ, holds = decide (a ≠ 0) → AgreeOn V υ σ' →
      (q.holds a 0 = true → Q (.label l) υ) ∧ (q.holds a 0 = false → Q .next υ)) :
    Flows (.calling alu) τ (part ++ [⟨.cmp, sign, [r, intConstant 0]⟩, ⟨.br, q, [.label l]⟩]) Q := by
  obtain ⟨⟨a, σ₁⟩, evaluates, same⟩ := Option.map_eq_some_iff.1 tested
  obtain ⟨decided, rfl⟩ := Prod.mk.inj same
  refine (h σ a σ₁ τ evaluates agree).append ?_
  rintro υ ⟨value, agree₁⟩
  have zero : υ.read (intConstant 0) = 0 := rfl
  obtain ⟨taken, passed⟩ := branch a υ decided.symm agree₁
  refine Cof.flows_branch ?_ fun through => flows_nil ?_
  · rw [value, zero]
    exact taken
  · rw [value, zero] at through
    exact passed through

theorem Evaluates.tests (h : Evaluates alu V t e r part) : Tests alu V (evalTest alu t (some e)) onFalse
      (part ++ [⟨.cmp, sign, [r, intConstant 0]⟩, ⟨.br, .eq, [.label onFalse]⟩]) := by
  intro σ holds σ' τ tested agree
  refine h.flows_branch tested agree fun a υ decided agree₁ => ⟨fun zero => ?_, fun nonzero => ?_⟩
  · have zero : a = 0 := of_decide_eq_true zero
    refine ⟨?_, agree₁⟩
    rw [decided, zero]
    rfl
  · have nonzero : a ≠ 0 := of_decide_eq_false nonzero
    refine ⟨?_, agree₁⟩
    rw [decided, decide_eq_true nonzero]
    rfl

theorem tests_nil : Tests alu V (evalTest alu t none) onFalse [] := by
  rintro σ holds σ' τ ⟨⟩ agree
  exact flows_nil ⟨rfl, agree⟩

theorem Evaluates.performs_return (h : Evaluates alu V t e r part) :
    Performs alu V loops (fun σ o σ' => ∃ a, eval alu t e σ = some (a, σ') ∧ o = .returned (some a))
      (part ++ [⟨.setret, .none, [r]⟩, ⟨.ret, .none, []⟩]) := by
  rintro σ o σ' τ ⟨a, evaluates, rfl⟩ agree
  refine (h σ a σ' τ evaluates agree).append ?_
  rintro υ ⟨value, agree₁⟩
  exact flows_return_value ⟨by rw [value]; rfl, agree₁⟩

theorem performs_return : Performs alu V loops (fun σ o σ' => o = .returned none ∧ σ' = σ) [⟨.ret, .none, []⟩] := by
  rintro σ o σ' τ ⟨rfl, rfl⟩ agree
  exact flows_return ⟨rfl, agree⟩

theorem performs_jump (h : o.wayOut? loops = some (.label l)) :
    Performs alu V loops (fun σ o' σ' => o' = o ∧ σ' = σ) [⟨.jmp, .none, [.label l]⟩] := by
  rintro σ _ σ' τ ⟨rfl, rfl⟩ agree
  exact flows_jump ⟨h, agree⟩

theorem Evaluates.performs_create (h : Evaluates alu V t e r part) (operands : List Operand)
    (enc : Encoding) (id : UInt32) :
    Performs alu V loops (Effect fun σ => (eval alu t e σ).map fun (a, σ') => Function.update σ' id a)
      (⟨.var, .none, operands⟩ :: (part ++ [⟨.mov, .none, [.var enc id, r]⟩])) := by
  rintro σ o σ' τ ⟨effect, rfl⟩ agree
  obtain ⟨⟨a, σ₁⟩, evaluates, rfl⟩ := Option.map_eq_some_iff.1 effect
  apply flows_skip fun _ _ => rfl
  refine (h σ a σ₁ τ evaluates agree).append ?_
  rintro υ ⟨rfl, agree₁⟩
  exact sets_mov υ _ ⟨rfl, agree₁.assign id _⟩

theorem performs_ifElse {other : Int32} (hc : Evaluates alu V t e r part)
    (hM : Performs alu V loops M first) (hN : Performs alu V loops N second) :
    Performs alu V loops (fun σ o σ' => ∃ holds σ₁, evalTest alu t (some e) σ = some (holds, σ₁) ∧
        if holds then M σ₁ o σ' else N σ₁ o σ')
      (part ++ (⟨.cmp, sign, [r, intConstant 0]⟩ :: ⟨.br, .eq, [.label other]⟩ ::
        (first ++ ⟨.jmp, .none, [.label done]⟩ :: .label other :: (second ++ [.label done])))) := by
  rintro σ o σ' τ ⟨holds, σ₁, tested, meant⟩ agree
  obtain ⟨⟨a, _⟩, evaluates, same⟩ := Option.map_eq_some_iff.1 tested
  obtain ⟨rfl, rfl⟩ := Prod.mk.inj same
  refine (hc σ a _ τ evaluates agree).append ?_
  rintro υ ⟨value, agree₁⟩
  apply flows_ifElse
  · intro passed
    rw [value] at passed
    have nonzero : a ≠ 0 := of_decide_eq_false passed
    rw [if_pos (decide_eq_true nonzero)] at meant
    exact hM _ o σ' υ meant agree₁
  · intro taken
    rw [value] at taken
    have zero : a = 0 := of_decide_eq_true taken
    rw [if_neg (by simp [zero])] at meant
    exact hN _ o σ' υ meant agree₁

/-! ## Loops -/

/-- If the code of a loop does in every round what the round means, and then goes back to its start or
leaves the loop, it does what the loop means. -/
theorem performs_rounds {round : Store → Option Outcome → Store → Prop}
    (h : ∀ σ r σ' τ, round σ r σ' → AgreeOn V τ σ → Flows (.calling alu) τ (Instr.label start :: part) fun way υ =>
      (match r with
        | none => way = .label start
        | some o => o.wayOut? loops = some way) ∧ AgreeOn V υ σ') :
    Performs alu V loops (Rounds round) (Instr.label start :: part) := by
  intro σ o σ' τ rounds
  induction rounds generalizing τ with
  | last one => exact fun agree => h _ _ _ τ one agree
  | more one _ ih =>
    intro agree
    apply flows_again
    refine (h _ _ _ τ one agree).mono ?_
    rintro way υ ⟨rfl, agree₁⟩
    exact .inr ⟨rfl, ih υ agree₁⟩

theorem Performs.body {onContinue : Int32} (h : Performs alu V (⟨onContinue, done⟩ :: loops) M part)
    (meant : M σ o σ') (agree : AgreeOn V τ σ)
    (again : ∀ υ, o.ofBody? = none → AgreeOn V υ σ' → Q .next υ ∧ Q (.label onContinue) υ)
    (breaks : ∀ υ, o.ofBody? = some .normal → AgreeOn V υ σ' → Q (.label done) υ)
    (returns : ∀ υ v, o.ofBody? = some (.returned v) → AgreeOn V υ σ' → Q (.ret v) υ) : Flows (.calling alu) τ part Q := by
  refine (h σ o σ' τ meant agree).mono ?_
  rintro way υ ⟨leaves, agree'⟩
  cases o <;> obtain rfl := Option.some.inj leaves
  case normal => exact (again υ rfl agree').1
  case broke => exact breaks υ rfl agree'
  case continued => exact (again υ rfl agree').2
  case returned v => exact returns υ v rfl agree'

/-- The code of a round behind its test: it runs the body, and unless that leaves the loop it does the
step and goes back to the start. -/
def Laps (alu : Alu) (V : UInt32 → Prop) (start done : Int32) (M : Store → Outcome → Store → Prop)
    (step : Store → Option Store) (part : List Instr) : Prop :=
  ∀ σ o σ₁ σ' τ (Q : WayOut → Store → Prop), M σ o σ₁ → AgreeOn V τ σ →
    (o.ofBody? = none → step σ₁ = some σ' ∧ ∀ υ, AgreeOn V υ σ' → Q (.label start) υ) →
    (o.ofBody? = some .normal → ∀ υ, AgreeOn V υ σ₁ → Q (.label done) υ) →
    (∀ v, o.ofBody? = some (.returned v) → ∀ υ, AgreeOn V υ σ₁ → Q (.ret v) υ) → Flows (.calling alu) τ part Q

theorem Performs.laps (h : Performs alu V (⟨start, done⟩ :: loops) M part) :
    Laps alu V start done M some (part ++ [⟨.jmp, .none, [.label start]⟩]) := by
  intro σ o σ₁ σ' τ Q meant agree again breaks returns
  apply flows_append
  refine h.body meant agree (fun υ goesOn agree₁ => ?_) (fun υ left => breaks left υ) fun υ v left => returns v left υ
  obtain ⟨⟨⟩, back⟩ := again goesOn
  exact ⟨flows_jump (back υ agree₁), back υ agree₁⟩

theorem Performs.laps_step (start : Int32)
    (h : Performs alu V (⟨next, done⟩ :: loops) M part) (hs : Performs alu V loops (Effect step) more) :
    Laps alu V start done M step (part ++ Instr.label next :: (more ++ [⟨.jmp, .none, [.label start]⟩])) := by
  intro σ o σ₁ σ' τ Q meant agree again breaks returns
  apply flows_forward
  refine h.body meant agree (fun υ goesOn agree₁ => ?_) (fun υ left agree₁ => .inl (breaks left υ agree₁))
    fun υ v left => returns v left υ
  obtain ⟨stepped, back⟩ := again goesOn
  have behind : Flows (.calling alu) υ (more ++ [⟨.jmp, .none, [.label start]⟩]) Q := by
    apply flows_append
    refine (hs σ₁ .normal σ' υ ⟨stepped, rfl⟩ agree₁).mono fun way ρ ended => ended.before ?_ ?_
    · exact fun _ => flows_jump (back ρ ended.2)
    · exact fun left => absurd rfl left
  exact ⟨behind, .inr ⟨rfl, behind⟩⟩

theorem performs_testFirst {test : Store → Option (Bool × Store)}
    (ht : Tests alu V test done part) (hl : Laps alu V start done M step more) :
    Performs alu V loops (Rounds (testFirst test M step))
      (Instr.label start :: (part ++ (more ++ [Instr.label done]))) := by
  apply performs_rounds
  intro σ r σ' τ round agree
  apply flows_skip fun _ _ => rfl
  rw [← List.append_assoc]
  apply flows_forward
  apply flows_append
  rcases round with ⟨tested, rfl⟩ | ⟨σ₁, o, σ₂, tested, meant, rfl, rest⟩
  · refine (ht σ false σ' τ tested agree).mono ?_
    rintro way υ ⟨rfl, agree₁⟩
    exact .inr ⟨rfl, flows_nil ⟨rfl, agree₁⟩⟩
  · refine (ht σ true σ₁ τ tested agree).mono ?_
    rintro way υ ⟨rfl, agree₁⟩
    refine hl σ₁ o σ₂ σ' υ _ meant agree₁ (fun goesOn => ?_) (fun left ρ agree₂ => ?_) fun v left ρ agree₂ => ?_
    · rw [goesOn] at rest ⊢
      exact ⟨rest, fun ρ agree₂ => .inl ⟨rfl, agree₂⟩⟩
    · rw [left] at rest ⊢
      obtain rfl : σ' = σ₂ := rest
      exact .inr ⟨rfl, flows_nil ⟨rfl, agree₂⟩⟩
    · rw [left] at rest ⊢
      obtain rfl : σ' = σ₂ := rest
      exact ⟨rfl, agree₂⟩

theorem performs_testLast (hb : Performs alu V (⟨next, done⟩ :: loops) M part) (hc : Evaluates alu V t e r more) :
    Performs alu V loops (Rounds (testLast M (evalTest alu t (some e))))
      (Instr.label start :: (part ++ Instr.label next :: (more ++
        ⟨.cmp, sign, [r, intConstant 0]⟩ :: ⟨.br, .ne, [.label start]⟩ :: [Instr.label done]))) := by
  have shape : part ++ Instr.label next :: (more ++
      ⟨.cmp, sign, [r, intConstant 0]⟩ :: ⟨.br, .ne, [.label start]⟩ :: [Instr.label done]) =
      (part ++ Instr.label next :: (more ++
        [⟨.cmp, sign, [r, intConstant 0]⟩, ⟨.br, .ne, [.label start]⟩])) ++ [Instr.label done] := by
    simp
  rw [shape]
  apply performs_rounds
  rintro σ r σ' τ ⟨o, σ₁, meant, rest⟩ agree
  apply flows_skip fun _ _ => rfl
  apply flows_forward
  apply flows_forward
  refine hb.body meant agree (fun υ goesOn agree₁ => ?_) (fun υ left agree₁ => ?_) fun υ v left agree₁ => ?_
  · rw [goesOn] at rest
    obtain ⟨again, tested, rfl⟩ := rest
    refine (fun behind => ⟨behind, .inr ⟨rfl, behind⟩⟩) ?_
    refine hc.flows_branch tested agree₁ fun a ρ decided agree₂ => ⟨fun taken => ?_, fun passed => ?_⟩
    · have nonzero : a ≠ 0 := of_decide_eq_true taken
      rw [decided, decide_eq_true nonzero]
      exact .inl ⟨rfl, agree₂⟩
    · have zero : a = 0 := not_not.1 (of_decide_eq_false passed)
      rw [decided, zero]
      exact flows_nil ⟨rfl, agree₂⟩
  · rw [left] at rest
    obtain ⟨rfl, rfl⟩ := rest
    exact .inl (.inr ⟨rfl, flows_nil ⟨rfl, agree₁⟩⟩)
  · rw [left] at rest
    obtain ⟨rfl, rfl⟩ := rest
    exact ⟨rfl, agree₁⟩

end Performs

end Cof
