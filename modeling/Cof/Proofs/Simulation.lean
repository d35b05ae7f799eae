/-
  Code for expressions does what the expressions mean.

  The code for an expression over `int`s works on three sorts of variables: those in a set `V`, which
  evaluation may read and change; those that its own subexpressions have left their values in; and fresh
  ones.  The induction over expressions says of each of them what it holds afterwards:

    * the variable of the result holds the value;
    * the variables in `V` hold what evaluation leaves in them;
    * of the others, those with smaller numbers than the first fresh one are as before, so that an operand
      that was computed earlier is still there when the code for the next one has run;
    * so are the ones that are numbered later, since the same code may run again and again in a loop,
      between code that is made later.
-/
import Cof.Proofs.Activation
import Cof.Proofs.Emitted
import Cof.Proofs.Labels
import Cof.Proofs.Meaning

namespace Cof

open Lowering List

/-! ## Stores -/

/-- Two stores agree on some variables. -/
def AgreeOn (V : UInt32 → Prop) (τ σ : Store) : Prop := ∀ id, V id → τ id = σ id

/-- The numbers from `k` up to `k'` can be given to fresh variables. -/
structure Room (V : UInt32 → Prop) (k k' : Nat) : Prop where
  few : k' ≤ 2 ^ 32
  spared : ∀ j, k ≤ j → j < k' → ¬ V (.ofNat j)

/-- A store after some code that works with the variables from `k` up to `k'`, `τ` being the one before
it: the variables in `V` are as in `σ`, and all others but those the code works with are as before. -/
structure After (V : UInt32 → Prop) (k k' : Nat) (τ σ τ' : Store) : Prop where
  declared : AgreeOn V τ' σ
  kept : ∀ j < 2 ^ 32, ¬ V (.ofNat j) → j < k ∨ k' ≤ j → τ' (.ofNat j) = τ (.ofNat j)

/-- Moreover the variable `r` holds a value. -/
structure Ends (V : UInt32 → Prop) (k k' r : Nat) (τ : Store) (a : Int32) (σ τ' : Store) : Prop
    extends After V k k' τ σ τ' where
  result : τ' (.ofNat r) = a

section Stores

variable {V : UInt32 → Prop} {k k₁ k₂ r : Nat} {τ σ τ' υ : Store} {a b : Int32}

variable {i : Nat} {id : UInt32} {alu : Alu} {go : Stepping alu} {part : List Instr} {f : Store → Int32}

theorem ofNat_ne {j : Nat} (h : i ≠ j) (hi : i < 2 ^ 32) (hj : j < 2 ^ 32) : UInt32.ofNat i ≠ UInt32.ofNat j := by
  intro same
  have := congrArg UInt32.toNat same
  rw [UInt32.toNat_ofNat_of_lt' hi, UInt32.toNat_ofNat_of_lt' hj] at this
  exact h this

theorem Room.narrow (h : Room V k k₂) {j j' : Nat} (le : k ≤ j ∧ j' ≤ k₂) : Room V j j' where
  few := Nat.le_trans le.2 h.few
  spared i low high := h.spared i (Nat.le_trans le.1 low) (Nat.lt_of_lt_of_le high le.2)

theorem AgreeOn.assign (h : AgreeOn V τ σ) (id : UInt32) (x : Int32) :
    AgreeOn V (Function.update τ id x) (Function.update σ id x) := by
  intro id' used
  by_cases same : id' = id
  · rw [same, Function.update_self, Function.update_self]
  · rw [Function.update_of_ne same, Function.update_of_ne same]
    exact h id' used

theorem AgreeOn.after (h : AgreeOn V τ σ) : After V k k τ σ τ := ⟨h, fun _ _ _ _ => rfl⟩

theorem After.trans {ρ : Store} {k' : Nat} (h : After V k k₁ τ σ τ') (h' : After V k' k₂ τ' ρ υ)
    (le : k ≤ k' ∧ k₁ ≤ k₂) : After V k k₂ τ ρ υ where
  declared := h'.declared
  kept j small other out := (h'.kept j small other (by omega)).trans (h.kept j small other (by omega))

theorem After.leads_fresh (h : After V k k₁ τ σ τ') (room : Room V k k₂) (new : k ≤ r ∧ r < k₂ ∧ k₁ ≤ k₂)
    (sets : Sets go part (.ofNat r) f) (value : f τ' = a) : Leads go τ' part (Ends V k k₂ r τ a σ) := by
  have few := room.few
  refine sets _ _ ⟨rfl, ⟨fun id used => ?_, fun j hj other out => ?_⟩, (Function.update_self ..).trans value⟩
  · have apart : id ≠ .ofNat r := fun same => room.spared r new.1 new.2.1 (same ▸ used)
    rw [Function.update_of_ne apart]
    exact h.declared id used
  · rw [Function.update_of_ne (ofNat_ne (by omega) hj (by omega))]
    exact h.kept j hj other (by omega)

theorem Ends.leads_assign (h : Ends V k k₁ r τ a σ τ') (used : V id) (other : ¬ V (.ofNat r))
    (sets : Sets go part id f) (value : f τ' = b) :
    Leads go τ' part (Ends V k k₁ r τ a (Function.update σ id b)) := by
  have apart : ∀ {j}, ¬ V (.ofNat j) → UInt32.ofNat j ≠ id := fun free same => free (same ▸ used)
  refine sets _ _ ⟨rfl, ⟨value ▸ h.declared.assign id _, fun j hj free out => ?_⟩, ?_⟩
  · rw [Function.update_of_ne (apart free)]
    exact h.kept j hj free out
  · rw [Function.update_of_ne (apart other)]
    exact h.result

theorem Ends.result_after {k' : Nat} {ρ : Store} (h : Ends V k k₁ r τ a σ τ') (h' : After V k' k₂ τ' ρ υ)
    (other : ¬ V (.ofNat r)) (high : r < k') (small : r < 2 ^ 32) : υ (.ofNat r) = a :=
  (h'.kept r small other (.inl high)).trans h.result

end Stores

/-! ## Operators -/

section Operators

variable {alu : Alu} {op : BinOp}

theorem binary?_of_opcode? {opcode : Opcode} (h : opcode? op = some opcode) :
    alu.binary? opcode = some (alu.apply op) := by
  cases op <;> cases h <;> rfl

theorem exists_opcode? (h : op.isComparison = false) (h' : op.isLogical = false) :
    ∃ opcode, opcode? op = some opcode := by
  refine Option.isSome_iff_exists.1 ?_
  revert h h'
  cases op <;> decide

theorem apply_of_isComparison (h : op.isComparison = true) (a b : Int32) :
    alu.apply op a b = truth ((condition op).holds a b) := by
  cases op <;> cases h <;> rfl

theorem condition_mem (op : BinOp) : condition op ∈ [.eq, .ne, .lt, .le, .gt, .ge] := by
  cases op <;> simp [condition]

variable {a : Int32}

theorem decided?_of_holds (h : op.isLogical = true) (leaves : (shortCircuit op).1.holds a 0 = true) :
    op.decided? a = some (.ofNat (shortCircuit op).2.1.toNat) := by
  cases op <;> cases h <;> simp_all [shortCircuit, Qualifier.holds, BinOp.decided?]

theorem undecided_of_not_holds (alu : Alu) (h : op.isLogical = true)
    (stays : (shortCircuit op).1.holds a 0 = false) : op.decided? a = none ∧ ∀ b, alu.apply op a b =
      if (shortCircuit op).1.holds b 0 then .ofNat (shortCircuit op).2.1.toNat
      else .ofNat (shortCircuit op).2.2.toNat := by
  cases op with
  | and =>
    have nonzero : a ≠ 0 := by simpa [shortCircuit, Qualifier.holds] using stays
    refine ⟨if_neg nonzero, fun b => ?_⟩
    by_cases zero : b = 0 <;> simp [Alu.apply, truth, shortCircuit, Qualifier.holds, nonzero, zero]
  | or =>
    have zero : a = 0 := by simpa [shortCircuit, Qualifier.holds] using stays
    refine ⟨if_pos zero, fun b => ?_⟩
    by_cases zero' : b = 0 <;> simp [Alu.apply, truth, shortCircuit, Qualifier.holds, zero, zero']
  | _ => cases h

end Operators

/-! ## Code that computes an expression -/

theorem sets_truthCode {alu : Alu} {go : Stepping alu} {left right : Operand} {q : Qualifier}
    (h : q ∈ [.eq, .ne, .lt, .le, .gt, .ge]) {k : Nat} {onFalse done : Int32} :
    Sets go (truthCode left right q (intVar k) onFalse done) (.ofNat k)
      fun σ => truth (q.holds (σ.read left) (σ.read right)) := by
  intro σ Q good
  replace good : Q .next (Function.update σ (.ofNat k) (truth (q.holds (σ.read left) (σ.read right)))) := good
  refine flows_ifElse (fun passed => sets_mov σ Q ?_) fun taken => sets_mov σ Q ?_
  · have holds : q.holds (σ.read left) (σ.read right) = true := by
      simpa [Qualifier.holds_inverted h] using passed
    rw [holds] at good
    exact good
  · have fails : q.holds (σ.read left) (σ.read right) = false := by
      simpa [Qualifier.holds_inverted h] using taken
    rw [fails] at good
    exact good

/-- Code for an expression, when `k` variables are numbered before it and `k'` after it: it gets to its
end, and there the variable `r` holds the value. -/
def Computes {alu : Alu} (go : Stepping alu) (V : UInt32 → Prop) (scopes : Scopes) (e : Expr) (k k' r : Nat)
    (part : List Instr) : Prop :=
  ∀ σ, ∃ a σ', eval alu scopes e σ = some (a, σ') ∧
    (Room V k k' → ∀ τ, AgreeOn V τ σ → Leads go τ part (Ends V k k' r τ a σ'))

section Computes

variable {alu : Alu} {go : Stepping alu} {V : UInt32 → Prop} {scopes : Scopes} {k k₁ k₂ k₃ a b c : Nat}
  {e left right : Expr} {part first second : List Instr} {loc : Location}

theorem computes_unary {op : UnOp} {f : Int32 → Int32} (meaning : ∀ x, alu.applyUnary? op x = some (f x))
    (h : Computes go V scopes e k k₁ a part) (range : k ≤ a ∧ a < k₁)
    (last : Sets go second (.ofNat k₁) fun σ => f (σ.read (intVar a))) :
    Computes go V scopes (.unary loc op e) k (k₁ + 1) k₁ (part ++ second) := by
  intro σ
  obtain ⟨x, σ₁, evaluates, run⟩ := h σ
  refine ⟨f x, σ₁, by simp [eval, evaluates, meaning], fun room τ agree => ?_⟩
  refine (run (room.narrow (by omega)) τ agree).append fun τ₁ e₁ => ?_
  have operand : τ₁.read (intVar a) = x := e₁.result
  exact e₁.leads_fresh room (by omega) last (congrArg f operand)

variable {op : BinOp} {other done : Int32} {σ τ : Store}

theorem computes_binary (strict : op.isLogical = false)
    (hl : Computes go V scopes left k k₁ a first) (hr : Computes go V scopes right k₁ k₂ b second)
    (rangeL : k ≤ a ∧ a < k₁) (rangeR : k₁ ≤ b ∧ b < k₂)
    (last : Sets go part (.ofNat k₂) fun σ => alu.apply op (σ.read (intVar a)) (σ.read (intVar b))) :
    Computes go V scopes (.binary loc op left right) k (k₂ + 1) k₂ (first ++ (second ++ part)) := by
  intro σ
  obtain ⟨x, σ₁, evalL, runL⟩ := hl σ
  obtain ⟨y, σ₂, evalR, runR⟩ := hr σ₁
  have undecided : op.decided? x = none := by cases op <;> first | rfl | cases strict
  refine ⟨alu.apply op x y, σ₂, by simp [eval, evalL, evalR, undecided], fun room τ agree => ?_⟩
  have few := room.few
  refine (runL (room.narrow (by omega)) τ agree).append fun τ₁ e₁ => ?_
  refine (runR (room.narrow (by omega)) τ₁ e₁.declared).append fun τ₂ e₂ => ?_
  -- The left operand was computed first and is still there.
  have leftValue : τ₂.read (intVar a) = x :=
    e₁.result_after e₂.toAfter (room.spared a (by omega) (by omega)) (by omega) (by omega)
  have rightValue : τ₂.read (intVar b) = y := e₂.result
  refine (e₁.trans e₂.toAfter (by omega)).leads_fresh room (by omega) last ?_
  exact congrArg₂ (alu.apply op) leftValue rightValue

theorem computes_logical (logical : op.isLogical = true)
    (hl : Computes go V scopes left k k₁ a first) (hr : Computes go V scopes right k₁ k₂ b second)
    (rangeL : k ≤ a ∧ a < k₁) (rangeR : k₁ ≤ b ∧ b < k₂) :
    Computes go V scopes (.binary loc op left right) k (k₂ + 1) k₂ (first ++
      (⟨.cmp, .signed, [intVar a, intConstant 0]⟩ :: ⟨.br, (shortCircuit op).1, [.label other]⟩ :: (second ++
          ⟨.cmp, .signed, [intVar b, intConstant 0]⟩ :: ⟨.br, (shortCircuit op).1, [.label other]⟩ ::
            ([⟨.mov, .none, [intVar k₂, intConstant (shortCircuit op).2.2]⟩] ++
              ⟨.jmp, .none, [.label done]⟩ :: .label other ::
                ([⟨.mov, .none, [intVar k₂, intConstant (shortCircuit op).2.1]⟩] ++ [.label done]))))) := by
  intro σ
  obtain ⟨x, σ₁, evalL, runL⟩ := hl σ
  obtain ⟨y, σ₂, evalR, runR⟩ := hr σ₁
  cases leaves : (shortCircuit op).1.holds x 0 with
  | true =>
    have decided := decided?_of_holds logical leaves
    refine ⟨.ofNat (shortCircuit op).2.1.toNat, σ₁, by simp [eval, evalL, decided], fun room τ agree => ?_⟩
    refine (runL (room.narrow (by omega)) τ agree).append fun τ₁ e₁ => ?_
    have leftValue : τ₁.read (intVar a) = x := e₁.result
    refine flows_shortCircuit (fun _ => ?_) fun stays => ?_
    · exact e₁.leads_fresh room (by omega) sets_mov rfl
    · rw [leftValue] at stays
      exact absurd (leaves.symm.trans stays) (by decide)
  | false =>
    obtain ⟨undecided, result⟩ := undecided_of_not_holds alu logical leaves
    refine ⟨alu.apply op x y, σ₂, by simp [eval, evalL, evalR, undecided], fun room τ agree => ?_⟩
    refine (runL (room.narrow (by omega)) τ agree).append fun τ₁ e₁ => ?_
    have leftValue : τ₁.read (intVar a) = x := e₁.result
    refine flows_shortCircuit (fun taken => ?_) fun _ => ?_
    · rw [leftValue] at taken
      exact absurd (leaves.symm.trans taken) (by decide)
    refine (runR (room.narrow (by omega)) τ₁ e₁.declared).flows fun τ₂ e₂ => ⟨rfl, ?_⟩
    have after := e₁.trans e₂.toAfter (by omega)
    have rightValue : τ₂.read (intVar b) = y := e₂.result
    rw [result y]
    beta_reduce
    rw [rightValue]
    constructor
    · intro taken
      exact after.leads_fresh room (by omega) sets_mov (if_pos taken).symm
    · intro passed
      refine after.leads_fresh room (by omega) sets_mov ?_
      exact (if_neg (Bool.eq_false_iff.1 passed)).symm

theorem leads_branchValue {v : Int32} {σ' τ' : Store}
    (h : Computes go V scopes e k₁ k₂ a part) (evaluates : eval alu scopes e σ = some (v, σ'))
    (before : After V k c τ σ τ') (le : k ≤ k₁ ∧ c ≤ k₂ ∧ k₂ ≤ k₃) (range : k₁ ≤ a ∧ a < k₂)
    (fresh : k ≤ b ∧ b < k₁) (room : Room V k k₃) :
    Leads go τ' (part ++ [⟨.mov, .none, [intVar b, intVar a]⟩]) (Ends V k k₃ b τ v σ') := by
  obtain ⟨v', σ'', evaluates', run⟩ := h σ
  obtain ⟨rfl, rfl⟩ : v' = v ∧ σ'' = σ' := by
    simpa using evaluates'.symm.trans evaluates
  refine (run (room.narrow (by omega)) τ' before.declared).append fun υ ends => ?_
  exact (before.trans ends.toAfter (by omega)).leads_fresh room (by omega) sets_mov ends.result

theorem computes_conditional {cond yes no : Expr} {third : List Instr}
    (hc : Computes go V scopes cond k k₁ c first) (hy : Computes go V scopes yes (k₁ + 1) k₂ a second)
    (hn : Computes go V scopes no k₂ k₃ b third) (rangeC : k ≤ c ∧ c < k₁)
    (rangeY : k₁ + 1 ≤ a ∧ a < k₂) (rangeN : k₂ ≤ b ∧ b < k₃) :
    Computes go V scopes (.conditional loc cond yes no) k k₃ k₁ (first ++
      (⟨.cmp, .signed, [intVar c, intConstant 0]⟩ :: ⟨.br, .eq, [.label other]⟩ ::
        (second ++ ⟨.mov, .none, [intVar k₁, intVar a]⟩ :: ⟨.jmp, .none, [.label done]⟩ :: .label other ::
            (third ++ ⟨.mov, .none, [intVar k₁, intVar b]⟩ :: [.label done])))) := by
  intro σ
  rw [append_cons second, append_cons third]
  obtain ⟨x, σ₁, evalC, runC⟩ := hc σ
  by_cases zero : x = 0
  · obtain ⟨v, σ₂, evalN, -⟩ := hn σ₁
    refine ⟨v, σ₂, by simp [eval, evalC, evalN, zero], fun room τ agree => ?_⟩
    refine (runC (room.narrow (by omega)) τ agree).append fun τ₁ e₁ => ?_
    have condValue : τ₁.read (intVar c) = x := e₁.result
    refine flows_ifElse (fun passed => ?_) fun _ => ?_
    · rw [condValue] at passed
      exact absurd zero (of_decide_eq_false passed)
    · exact leads_branchValue hn evalN e₁.toAfter (by omega) rangeN (by omega) room
  · obtain ⟨v, σ₂, evalY, -⟩ := hy σ₁
    refine ⟨v, σ₂, by simp [eval, evalC, evalY, zero], fun room τ agree => ?_⟩
    refine (runC (room.narrow (by omega)) τ agree).append fun τ₁ e₁ => ?_
    have condValue : τ₁.read (intVar c) = x := e₁.result
    refine flows_ifElse (fun _ => ?_) fun taken => ?_
    · exact leads_branchValue hy evalY e₁.toAfter (by omega) rangeY (by omega) room
    · rw [condValue] at taken
      exact absurd (of_decide_eq_true taken) zero

/-! ### Assignments -/

variable {target : Expr} {id : UInt32}

theorem leads_readTarget (agree : AgreeOn V τ σ) (used : V id) (room : Room V k (k + 1)) :
    Leads go τ [⟨.mov, .none, [intVar k, .var .i32 id]⟩] (Ends V k (k + 1) k τ (σ id) σ) :=
  agree.after.leads_fresh room (by omega) sets_mov (agree id used)

theorem computes_step {s : Step} {fixity : Fixity} (bound : target.intTarget? scopes = some id) (used : V id) :
    Computes go V scopes (.step loc s fixity target) k (k + 2) (match fixity with | .pre => k + 1 | .post => k)
      ([⟨.mov, .none, [intVar k, .var .i32 id]⟩] ++
        ([⟨stepOpcode s, .signed, [intVar (k + 1), intVar k, intConstant 1]⟩] ++
          [⟨.mov, .none, [.var .i32 id, intVar (k + 1)]⟩])) := by
  intro σ
  have opcode : alu.binary? (stepOpcode s) = some (alu.apply (stepOp s)) := by cases s <;> rfl
  have stepped : ∀ x, alu.apply (stepOp s) x 1 = alu.step s x := by cases s <;> exact fun _ => rfl
  refine ⟨match fixity with | .pre => alu.step s (σ id) | .post => σ id, Function.update σ id (alu.step s (σ id)),
    by cases fixity <;> simp [eval, bound], fun room τ agree => ?_⟩
  have few := room.few
  refine (leads_readTarget agree used (room.narrow (by omega))).append fun τ₁ e₁ => ?_
  have old : τ₁.read (intVar k) = σ id := e₁.result
  have new : alu.apply (stepOp s) (τ₁.read (intVar k)) 1 = alu.step s (σ id) := by
    rw [old, stepped]
  have last : Leads go τ₁ [⟨stepOpcode s, .signed, [intVar (k + 1), intVar k, intConstant 1]⟩]
      (Ends V (k + 1) (k + 2) (k + 1) τ₁ (alu.step s (σ id)) σ) :=
    e₁.declared.after.leads_fresh (room.narrow (by omega)) (by omega) (sets_binary opcode) new
  refine last.append fun τ₂ e₂ => ?_
  have after : After V k (k + 2) τ σ τ₂ := e₁.trans e₂.toAfter (by omega)
  have other := room.spared k (by omega) (by omega)
  cases fixity with
  | pre =>
    have ends : Ends V k (k + 2) (k + 1) τ (alu.step s (σ id)) σ τ₂ := ⟨after, e₂.result⟩
    exact ends.leads_assign used (room.spared _ (by omega) (by omega)) sets_mov e₂.result
  | post =>
    have ends : Ends V k (k + 2) k τ (σ id) σ τ₂ :=
      ⟨after, e₁.result_after e₂.toAfter other (by omega) (by omega)⟩
    exact ends.leads_assign used other sets_mov e₂.result

theorem computes_assign (bound : target.intTarget? scopes = some id) (used : V id)
    (h : Computes go V scopes e k k₁ a part) (range : k ≤ a ∧ a < k₁) :
    Computes go V scopes (.assign loc target none e) k k₁ a (part ++ [⟨.mov, .none, [.var .i32 id, intVar a]⟩]) := by
  intro σ
  obtain ⟨x, σ₁, evaluates, run⟩ := h σ
  refine ⟨x, Function.update σ₁ id x, by simp [eval, bound, evaluates], fun room τ agree => ?_⟩
  refine (run room τ agree).append fun τ₁ e₁ => ?_
  exact e₁.leads_assign used (room.spared a range.1 range.2) sets_mov e₁.result

theorem computes_compound {opcode : Opcode} (h : opcode? op = some opcode)
    (bound : target.intTarget? scopes = some id) (used : V id)
    (hr : Computes go V scopes e (k + 1) k₁ a part) (range : k + 1 ≤ a ∧ a < k₁) :
    Computes go V scopes (.assign loc target (some op) e) k (k₁ + 1) k₁
      ([⟨.mov, .none, [intVar k, .var .i32 id]⟩] ++ (part ++
        ([⟨opcode, .signed, [intVar k₁, intVar k, intVar a]⟩] ++ [⟨.mov, .none, [.var .i32 id, intVar k₁]⟩]))) := by
  intro σ
  obtain ⟨y, σ₁, evaluates, run⟩ := hr σ
  refine ⟨alu.apply op (σ id) y, Function.update σ₁ id (alu.apply op (σ id) y),
    by simp [eval, bound, evaluates], fun room τ agree => ?_⟩
  have few := room.few
  refine (leads_readTarget agree used (room.narrow (by omega))).append fun τ₁ e₁ => ?_
  refine (run (room.narrow (by omega)) τ₁ e₁.declared).append fun τ₂ e₂ => ?_
  have old : τ₂.read (intVar k) = σ id :=
    e₁.result_after e₂.toAfter (room.spared k (by omega) (by omega)) (by omega) (by omega)
  have operand : τ₂.read (intVar a) = y := e₂.result
  have last : Leads go τ₂ [⟨opcode, .signed, [intVar k₁, intVar k, intVar a]⟩]
      (Ends V k (k₁ + 1) k₁ τ (alu.apply op (σ id) y) σ₁) :=
    (e₁.trans e₂.toAfter (by omega)).leads_fresh room (by omega) (sets_binary (binary?_of_opcode? h))
      (congrArg₂ (alu.apply op) old operand)
  refine last.append fun τ₃ e₃ => ?_
  exact e₃.leads_assign used (room.spared k₁ (by omega) (by omega)) sets_mov e₃.result

end Computes

/-! ## Code for expressions -/

section Lowered

variable {alu : Alu} {go : Stepping alu} {V : UInt32 → Prop} {scopes : Scopes} {k : Nat} {e left right : Expr}
  {loc : Location}

theorem typeOf_int (h : IntExpr scopes e) : typeOf scopes e = .ok .int := by
  induction h with
  | int small => rw [typeOf, CType.ofLiteral, if_pos small]
  | ident bound =>
    obtain ⟨symbol, found, int, -⟩ := Scopes.lookup_of_intSlot? bound
    simp [typeOf, found, int]
  | @unary loc op operand numeric _ ih =>
    rw [typeOf, ih]
    cases op <;> first | rfl | exact absurd rfl numeric.1 | exact absurd rfl numeric.2
  | @binary loc op left right _ _ ihl ihr =>
    rw [typeOf, ihl, ihr]
    cases op <;> rfl
  | step bound | assign bound =>
    obtain ⟨loc, name, rfl, bound⟩ := Expr.eq_ident_of_intTarget? bound
    obtain ⟨symbol, found, int, -⟩ := Scopes.lookup_of_intSlot? bound
    simp [typeOf, found, int]
  | conditional _ _ _ _ ihy ihn =>
    rw [typeOf, ihy, ihn]
    rfl

variable {name : Name} {id : UInt32}

theorem namedPlace_int (bound : scopes.intSlot? name = some id) (s : State) (visible : s.scopes = scopes) :
    ∃ s', namedPlace loc name s = .ok (.storage (.var .i32 id) .int) s' ∧ s'.scopes = s.scopes ∧
      s'.code = s.code ∧ s'.variableCount = s.variableCount := by
  obtain ⟨symbol, found, int, slot⟩ := Scopes.lookup_of_intSlot? bound
  refine ⟨_, namedPlace_eq_ok.2 ⟨symbol, visible ▸ found, ?_, rfl⟩, rfl, rfl, rfl⟩
  rw [storageOperand, slot, int]
  rfl

/-- Code is made for an expression, and the code computes it. -/
def Simulated (go : Stepping alu) (V : UInt32 → Prop) (scopes : Scopes) (e : Expr) : Prop :=
  ∀ k, Lowers scopes k (value e) fun v k' part =>
    ∃ r, v = intValue r ∧ (k ≤ r ∧ r < k') ∧ Computes go V scopes e k k' r part

theorem simulated_int {m : UInt64} (small : m.toNat < 2 ^ 31) : Simulated go V scopes (.int loc m) := by
  intro k
  rw [value, CType.ofLiteral, if_pos small]
  refine lowers_noted ((lowers_compute rfl).mono ?_)
  rintro _ _ _ ⟨rfl, rfl, rfl⟩
  refine ⟨k, rfl, by omega, fun σ => ⟨_, _, rfl, fun room τ agree => ?_⟩⟩
  exact agree.after.leads_fresh room (by omega) sets_mov rfl

theorem simulated_ident (bound : scopes.intSlot? name = some id) (used : V id) :
    Simulated go V scopes (.ident loc name) := by
  intro k
  refine lowers_skip (namedPlace_int bound) (lowers_noted ((lowers_compute rfl).mono ?_))
  rintro _ _ _ ⟨rfl, rfl, rfl⟩
  refine ⟨k, rfl, by omega, fun σ => ⟨σ id, σ, by simp [eval, bound], ?_⟩⟩
  exact fun room τ agree => leads_readTarget agree used room

theorem simulated_unary {op : UnOp} (numeric : op ≠ .addrOf ∧ op ≠ .deref)
    (ih : Simulated go V scopes e) : Simulated go V scopes (.unary loc op e) := by
  intro k
  cases op with
  | addrOf => exact absurd rfl numeric.1
  | deref => exact absurd rfl numeric.2
  | not =>
    refine lowers_bind (ih k) ?_
    rintro _ k₁ part ⟨r, rfl, range, computes⟩
    refine lowers_noted ((lowers_truthOf ⟨rfl, rfl⟩).mono ?_)
    rintro _ _ _ ⟨rfl, rfl, onFalse, done, rfl⟩
    refine ⟨k₁, rfl, by omega, ?_⟩
    exact computes_unary (fun _ => rfl) computes range (sets_truthCode (by simp))
  | plus =>
    refine lowers_bind (ih k) ?_
    rintro _ k₁ part ⟨r, rfl, range, computes⟩
    refine lowers_noted (lowers_pure ?_)
    rw [append_nil]
    refine ⟨r, rfl, range, fun σ => ?_⟩
    obtain ⟨x, σ₁, evaluates, run⟩ := computes σ
    exact ⟨x, σ₁, by simp [eval, evaluates, Alu.applyUnary?], run⟩
  | neg | bitNot =>
    refine lowers_bind (ih k) ?_
    rintro _ k₁ part ⟨r, rfl, range, computes⟩
    rw [intValue, signed_int (by simp)]
    refine lowers_noted ((lowers_compute rfl).mono ?_)
    rintro _ _ _ ⟨rfl, rfl, rfl⟩
    refine ⟨k₁, rfl, by omega, ?_⟩
    exact computes_unary (fun _ => rfl) computes range (sets_unary rfl)

theorem simulated_binary {op : BinOp} (ihl : Simulated go V scopes left)
    (ihr : Simulated go V scopes right) : Simulated go V scopes (.binary loc op left right) := by
  intro k
  rw [value]
  cases logical : op.isLogical with
  | true =>
    refine lowers_bind (ihl k) ?_
    rintro _ k₁ first ⟨a, rfl, rangeL, computesL⟩
    refine lowers_skip (fun s _ => ⟨s, rfl, rfl, rfl, rfl⟩) ?_
    refine lowers_freshLabel fun other => lowers_bind lowers_leaveIf ?_
    rintro _ k₁ _ ⟨rfl, rfl⟩
    refine lowers_bind (ihr k₁) ?_
    rintro _ k₂ second ⟨b, rfl, rangeR, computesR⟩
    refine lowers_skip (fun s _ => ⟨s, rfl, rfl, rfl, rfl⟩) ?_
    refine lowers_freshLabel fun done => lowers_bind lowers_leaveIf ?_
    rintro _ k₂ _ ⟨rfl, rfl⟩
    refine lowers_noted (lowers_logicalResult.mono ?_)
    rintro _ _ _ ⟨rfl, rfl, rfl⟩
    exact ⟨k₂, rfl, by omega, computes_logical logical computesL computesR rangeL rangeR⟩
  | false =>
    refine lowers_bind (ihl k) ?_
    rintro _ k₁ first ⟨a, rfl, rangeL, computesL⟩
    refine lowers_bind (ihr k₁) ?_
    rintro _ k₂ second ⟨b, rfl, rangeR, computesR⟩
    cases compares : op.isComparison with
    | true =>
      refine lowers_noted ((lowers_comparison ⟨rfl, rfl⟩).mono ?_)
      rintro _ _ _ ⟨rfl, rfl, onFalse, done, rfl⟩
      refine ⟨k₂, rfl, by omega, computes_binary logical computesL computesR rangeL rangeR ?_⟩
      simp only [apply_of_isComparison compares]
      exact sets_truthCode (condition_mem op)
    | false =>
      obtain ⟨opcode, h⟩ := exists_opcode? compares logical
      rw [intValue, intValue, arithmetic_int h]
      refine lowers_noted ((lowers_compute rfl).mono ?_)
      rintro _ _ _ ⟨rfl, rfl, rfl⟩
      refine ⟨k₂, rfl, by omega, computes_binary logical computesL computesR rangeL rangeR ?_⟩
      exact sets_binary (binary?_of_opcode? h)

variable {target : Expr}

theorem place_int (bound : target.intTarget? scopes = some id) (s : State) (visible : s.scopes = scopes) :
    ∃ s', place target s = .ok (.storage (.var .i32 id) .int) s' ∧ s'.scopes = s.scopes ∧
      s'.code = s.code ∧ s'.variableCount = s.variableCount := by
  obtain ⟨loc, name, rfl, bound⟩ := Expr.eq_ident_of_intTarget? bound
  exact namedPlace_int bound s visible

theorem simulated_step {s : Step} {fixity : Fixity} (bound : target.intTarget? scopes = some id) (used : V id) :
    Simulated go V scopes (.step loc s fixity target) := by
  intro k
  refine lowers_skip (place_int bound) (lowers_noted (lowers_stepPlace.mono ?_))
  rintro _ _ _ ⟨rfl, rfl, rfl⟩
  cases fixity with
  | pre => exact ⟨k + 1, rfl, by omega, computes_step bound used⟩
  | post => exact ⟨k, rfl, by omega, computes_step bound used⟩

theorem simulated_assign {op : Option BinOp} (bound : target.intTarget? scopes = some id) (used : V id)
    (numeric : ∀ o ∈ op, o.isComparison = false ∧ o.isLogical = false)
    (ih : Simulated go V scopes e) : Simulated go V scopes (.assign loc target op e) := by
  intro k
  refine lowers_skip (place_int bound) (lowers_skip (fun s _ => ⟨s, rfl, rfl, rfl, rfl⟩) ?_)
  cases op with
  | none =>
    refine lowers_bind (ih k) ?_
    rintro _ k₁ part ⟨r, rfl, range, computes⟩
    refine lowers_storeResult.mono ?_
    rintro _ k₁ _ ⟨rfl, rfl, rfl⟩
    exact ⟨r, rfl, range, computes_assign bound used computes range⟩
  | some op =>
    obtain ⟨opcode, h⟩ := exists_opcode? (numeric op rfl).1 (numeric op rfl).2
    refine lowers_bind (lowers_compute rfl) ?_
    rintro _ _ _ ⟨rfl, rfl, rfl⟩
    refine lowers_bind (ih (k + 1)) ?_
    rintro _ k₁ part ⟨r, rfl, range, computes⟩
    rw [intValue, intValue, arithmetic_int h]
    refine lowers_bind (lowers_compute rfl) ?_
    rintro _ _ _ ⟨rfl, rfl, rfl⟩
    refine lowers_storeResult.mono ?_
    rintro _ _ _ ⟨rfl, rfl, rfl⟩
    exact ⟨k₁, rfl, by omega, computes_compound h bound used computes range⟩

theorem simulated_conditional {cond yes no : Expr} (typeY : typeOf scopes yes = .ok .int)
    (typeN : typeOf scopes no = .ok .int) (ihc : Simulated go V scopes cond)
    (ihy : Simulated go V scopes yes) (ihn : Simulated go V scopes no) :
    Simulated go V scopes (.conditional loc cond yes no) := by
  intro k
  refine lowers_skip (fun s visible => ⟨s, inferred_eq_ok.2 ⟨visible ▸ typeY, rfl⟩, rfl, rfl, rfl⟩) ?_
  refine lowers_skip (fun s visible => ⟨s, inferred_eq_ok.2 ⟨visible ▸ typeN, rfl⟩, rfl, rfl, rfl⟩) ?_
  have type : CType.conditional .int .int = .int := rfl
  simp only [type]
  refine lowers_bind (ihc k) ?_
  rintro _ k₁ first ⟨c, rfl, rangeC, computesC⟩
  refine lowers_skip (fun s _ => ⟨s, rfl, rfl, rfl, rfl⟩) ?_
  refine lowers_freshLabel fun other => lowers_freshLabel fun done => ?_
  refine lowers_emit_bind rfl (lowers_emit_bind rfl (lowers_branchTarget_bind ?_))
  refine lowers_bind (ihy (k₁ + 1)) ?_
  rintro _ k₂ second ⟨a, rfl, rangeY, computesY⟩
  rw [deliver_int]
  refine lowers_emit_bind rfl (lowers_emit_bind rfl (lowers_defineLabel_bind ?_))
  refine lowers_bind (ihn k₂) ?_
  rintro _ k₃ third ⟨b, rfl, rangeN, computesN⟩
  rw [deliver_int]
  refine lowers_emit_bind rfl (lowers_defineLabel_bind (lowers_noted_value ?_))
  refine ⟨k₁, rfl, by omega, ?_⟩
  exact computes_conditional computesC computesY computesN rangeC rangeY rangeN

theorem simulated (named : ∀ name id, scopes.intSlot? name = some id → V id) (h : IntExpr scopes e) :
    Simulated go V scopes e := by
  have targets : ∀ (target : Expr) id, target.intTarget? scopes = some id → V id := by
    intro target id bound
    obtain ⟨_, name, rfl, bound⟩ := Expr.eq_ident_of_intTarget? bound
    exact named name id bound
  induction h with
  | int small => exact simulated_int small
  | ident bound => exact simulated_ident bound (named _ _ bound)
  | unary numeric _ ih => exact simulated_unary numeric ih
  | binary _ _ ihl ihr => exact simulated_binary ihl ihr
  | step bound => exact simulated_step bound (targets _ _ bound)
  | assign bound numeric _ ih => exact simulated_assign bound (targets _ _ bound) numeric ih
  | conditional _ hy hn ihc ihy ihn =>
    exact simulated_conditional (typeOf_int hy) (typeOf_int hn) ihc ihy ihn

/-- Whatever the machine is like, and whatever is said of its variables, the code is the same. -/
theorem exists_computes {s : State} (int : IntExpr s.scopes e) :
    ∃ r s' part, value e s = .ok (intValue r) s' ∧ s'.scopes = s.scopes ∧ s'.code = part.reverse ++ s.code ∧
      s.variableCount ≤ s'.variableCount ∧ ∀ {alu} (go : Stepping alu) (V : UInt32 → Prop),
        (∀ name id, s.scopes.intSlot? name = some id → V id) → ∃ r', intValue r = intValue r' ∧
          Computes go V s.scopes e s.variableCount s'.variableCount r' part := by
  have lowered : ∀ {alu} (go : Stepping alu) (V : UInt32 → Prop), (∀ name id, s.scopes.intSlot? name = some id → V id) →
      ∃ v s' part, value e s = .ok v s' ∧ s'.scopes = s.scopes ∧ s'.code = part.reverse ++ s.code ∧
        ∃ r, v = intValue r ∧ (s.variableCount ≤ r ∧ r < s'.variableCount) ∧
          Computes go V s.scopes e s.variableCount s'.variableCount r part :=
    fun go V named => simulated named int s.variableCount s rfl rfl
  obtain ⟨_, s', part, run, same, code, r, rfl, range, -⟩ := lowered (.plain .wrapping) (fun _ => True) fun _ _ _ => trivial
  refine ⟨r, s', part, run, same, code, by omega, fun go V named => ?_⟩
  obtain ⟨_, _, part', run', -, code', r', rfl, -, computes⟩ := lowered go V named
  obtain ⟨result, rfl⟩ := EStateM.Result.ok.inj (run.symm.trans run')
  obtain rfl : part = part' := reverse_inj.1 (append_cancel_right (code.symm.trans code'))
  exact ⟨r', result, computes⟩

end Lowered

/-! ## Expressions in a program -/

section Program

variable {p : Program} {s s' : State} {e : Expr} {part : List Instr}

/-- In a state that is reached, automatic variables live in variables that were numbered. -/
theorem Lowering.Reached.intSlot (h : Reached p s) (name : Name) (id : UInt32)
    (bound : s.scopes.intSlot? name = some id) : ∃ i < s.variableCount, id = .ofNat i := by
  obtain ⟨symbol, found, -, slot⟩ := Scopes.lookup_of_intSlot? bound
  obtain ⟨entry, listed, rfl⟩ := Scopes.lookup_mem found
  exact (h.bound entry listed).2 id slot

theorem issued_nodup {first count : Nat} (few : count ≤ 2 ^ 32) : (issued first count).Nodup := by
  refine List.Nodup.map_on ?_ (nodup_range')
  intro x hx y hy same
  have hx := mem_range'_1.1 hx
  have hy := mem_range'_1.1 hy
  have words : UInt32.ofNat x = UInt32.ofNat y := congrArg Int32.toUInt32 same
  by_contra ne
  exact ofNat_ne ne (by omega) (by omega) words

theorem labelsOnce_of_nodup (h : (Instr.introducedIn part).Nodup) : LabelsOnce part := by
  -- Of the labels that come in, the directives define some and data the others.
  have directives : part.filterMap Instr.definedLabel? =
      (part.filter (·.definedLabel?.isSome)).filterMap Instr.introduced? := by
    rw [filterMap_filter]
    refine congrArg (List.filterMap · part) (funext fun i => ?_)
    cases defined : i.definedLabel? <;> simp [Instr.introduced?, defined]
  have nodup : (part.filterMap Instr.introduced?).Nodup := Multiset.coe_nodup.1 h
  rw [LabelsOnce, directives]
  exact nodup.sublist (filter_sublist.filterMap _)

theorem labelsOnce_of_value {v : Value} (run : value e s = .ok v s')
    (code : s'.code = part.reverse ++ s.code) (few : s'.labelCount ≤ 2 ^ 32) : LabelsOnce part := by
  obtain ⟨body, code', appends, -⟩ := (neutral_value e s v s' (labelled_start s) run).appends
  obtain rfl : body = part.reverse := append_cancel_right (code'.symm.trans code)
  have balanced := appends.balanced
  rw [reverse_reverse] at balanced
  apply labelsOnce_of_nodup
  rw [balanced]
  exact issued_nodup few

/-- Code is made for every expression over automatic `int`s, and a machine that runs it from its first
instruction gets to its end.  There the variable of the result holds the value of the expression, and the
variables that were numbered before hold what evaluation leaves in them.  The code may stand anywhere in
code that defines labels once, as it does itself.  Variables and labels have numbers of 32 bits, and must
not be so many that these are used up. -/
theorem value_runs_to_eval (reached : Reached p s) (int : IntExpr s.scopes e) :
    ∃ id s' part, value e s = .ok ⟨.var .i32 id, .int⟩ s' ∧ s'.code = part.reverse ++ s.code ∧
      (s'.labelCount ≤ 2 ^ 32 → LabelsOnce part) ∧
      ∀ alu σ, ∃ a σ', eval alu s.scopes e σ = some (a, σ') ∧
        (s'.variableCount ≤ 2 ^ 32 → ∀ code (m : Machine), LabelsOnce code → CodeAt code m.pc part →
          m.store = σ → ∃ m', m.Runs alu code m' ∧ m'.pc = m.pc + part.length ∧ m'.store id = a ∧
            ∀ k < s.variableCount, m'.store (.ofNat k) = σ' (.ofNat k)) := by
  obtain ⟨r, s', part, run, -, code, -, computes⟩ := exists_computes int
  refine ⟨.ofNat r, s', part, run, code, labelsOnce_of_value run code, fun alu σ => ?_⟩
  obtain ⟨r', same, computes⟩ := computes (.plain alu) (∃ k < s.variableCount, · = .ofNat k) reached.intSlot
  obtain ⟨a, σ', evaluates, leads⟩ := computes σ
  refine ⟨a, σ', evaluates, fun small code m once here store => ?_⟩
  have result : UInt32.ofNat r = UInt32.ofNat r' := by
    injection same with operand
    injection operand
  have room : Room (∃ k < s.variableCount, · = .ofNat k) s.variableCount s'.variableCount := by
    refine ⟨small, fun j low high => ?_⟩
    rintro ⟨k, below, equal⟩
    exact ofNat_ne (by omega) (by omega) (by omega) equal
  obtain ⟨_, _, ⟨rfl, ends⟩, a', runs, stop, rfl, -⟩ := leads room σ (fun _ _ => rfl) code ⟨m, none⟩ once here store rfl
  have machine : Machine.Runs alu code m a'.toMachine :=
    Relation.ReflTransGen.lift (p := fun m m' : Machine => m.step alu code = some m') _ (fun _ _ steps => steps) _ _ runs
  refine ⟨a'.toMachine, machine, stop, result ▸ ends.result, ?_⟩
  exact fun k low => ends.declared _ ⟨k, low, rfl⟩

def mixed : Expr :=
  .conditional ⟨1, 10⟩
    (.binary ⟨1, 3⟩ .and (.ident ⟨1, 1⟩ (ascii "a")) (.step ⟨1, 7⟩ .inc .post (.ident ⟨1, 6⟩ (ascii "b"))))
    (.assign ⟨1, 15⟩ (.ident ⟨1, 13⟩ (ascii "a")) (some .add) (.ident ⟨1, 18⟩ (ascii "b")))
    (.unary ⟨1, 23⟩ .neg (.ident ⟨1, 24⟩ (ascii "b")))

def openBlock : Lower Unit := do
  enterScope
  localAutomatic ⟨ascii "a", .int, none, .plain, ⟨1, 1⟩⟩
  localAutomatic ⟨ascii "b", .int, none, .plain, ⟨1, 1⟩⟩

theorem reached_openBlock (declared : p.types.contains .int = true) : Reached p (stateAfter openBlock {}) := by
  have declared : CType.int ∈ p.types := by simpa using declared
  have follows : Follows (Change (ofProgram p)) openBlock :=
    follows_seq follows_enterScope fun _ => follows_seq (follows_localAutomatic (ofProgram_open p) declared) fun _ =>
      follows_localAutomatic (ofProgram_open p) declared
  exact follows.advance {}

/-- Both operands of `&&` are evaluated, and what the step leaves behind goes into the assignment. -/
theorem value_runs_to_eval_mixed :
    ∃ p s id s' part m', Program.parse (ascii "void f()\x7bint a;int b;\x7d") = .ok p ∧
      Reached p s ∧ IntExpr s.scopes mixed ∧ value mixed s = .ok ⟨.var .i32 id, .int⟩ s' ∧
      s'.code = part.reverse ++ s.code ∧ s'.variableCount ≤ 2 ^ 32 ∧ LabelsOnce part ∧
      Machine.Runs .wrapping part ⟨0, fun id => if id = 0 then 2 else 5, (0, 0)⟩ m' ∧
      m'.pc = part.length ∧ m'.store id = 8 ∧ m'.store 0 = 8 ∧ m'.store 1 = 6 := by
  have parses : (Program.parse (ascii "void f()\x7bint a;int b;\x7d")).toOption.any
      (fun p => p.types.contains .int) = true := by decide +kernel
  obtain ⟨p, parsed, holds⟩ := ok_of_any parses
  have reached := reached_openBlock holds
  have a : (stateAfter openBlock {}).scopes.intSlot? (ascii "a") = some 0 := by decide +kernel
  have b : (stateAfter openBlock {}).scopes.intSlot? (ascii "b") = some 1 := by decide +kernel
  have count : (stateAfter openBlock {}).variableCount = 2 := by decide +kernel
  have int : IntExpr (stateAfter openBlock {}).scopes mixed :=
    .conditional (.binary (.ident a) (.step b)) (.assign a (by simp [BinOp.isComparison, BinOp.isLogical])
      (.ident b)) (.unary (by decide) (.ident b))
  have small : (match value mixed (stateAfter openBlock {}) with
      | .ok _ s' => s'.variableCount ≤ 2 ^ 32 && s'.labelCount ≤ 2 ^ 32
      | .error .. => false) = true := by decide +kernel
  have result : (eval .wrapping (stateAfter openBlock {}).scopes mixed
      fun id => if id = 0 then 2 else 5).map (fun r => (r.1, r.2 0, r.2 1)) = some (8, 8, 6) := by
    decide +kernel
  obtain ⟨id, s', part, run, code, once, evaluates⟩ := value_runs_to_eval reached int
  obtain ⟨x, σ', evaluated, runs⟩ := evaluates .wrapping fun id => if id = 0 then 2 else 5
  simp only [run, Bool.and_eq_true, decide_eq_true_eq] at small
  have labels := once small.2
  obtain ⟨m', steps, stop, holds, kept⟩ := runs small.1 part ⟨0, _, (0, 0)⟩ labels (codeAt_self part) rfl
  simp only [evaluated, Option.map_some, Option.some.injEq, Prod.mk.injEq] at result
  refine ⟨p, _, id, s', part, m', parsed, reached, int, run, code, small.1, labels, steps, ?_, ?_, ?_, ?_⟩
  · exact stop.trans (Nat.zero_add _)
  · exact holds.trans result.1
  · exact (kept 0 (by rw [count]; decide)).trans result.2.1
  · exact (kept 1 (by rw [count]; decide)).trans result.2.2

end Program

end Cof
