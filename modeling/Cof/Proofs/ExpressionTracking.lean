/-
  What holds of steps holds of expressions.

  An expression is made of steps, so a relation that holds of the steps holds of the code of expressions, by one
  induction over them (`FlowTracking.value`).  Two uses of it stand here.  Relations that have nothing to do with
  operands are congruences; growth of the state is one.  And the results of expressions are in new variables.
-/
import Cof.Proofs.Tracking

namespace Cof

open List

namespace Lowering

open Account

/-! ## Expressions -/

theorem hasAddress_relabel {ρ : Relabeling} (e : Expr) : hasAddress (e.relabel ρ) = hasAddress e := by
  cases e with
  | unary loc op operand => cases op <;> rfl
  | _ => rfl

namespace FlowTracking

variable {ρ : Relabeling} {A : Account}
  {J : ∀ {α : Type}, List Operand → (α → List Operand) → Lower α → Lower α → Prop} {held : List Operand}

theorem read (h : FlowTracking ρ A J) {m m' : Lower Place} (loc : Location) (found : J held A.place m m')
    (address : ∀ {s p t}, m s = .ok p t → p.Addressable) : J held A.value
      (m >>= fun p => readPlace p >>= noted loc) (m' >>= fun p => readPlace p >>= noted (ρ.loc loc)) :=
  h.bind found fun _ p _ run => h.noting loc (h.readPlace (finds_place p held) (address run)) value_subset

theorem constant (h : FlowTracking ρ A J) (loc : Location) (type : CType) (bits : UInt64) :
    J held A.value (constant type bits >>= noted loc) (constant type bits >>= noted (ρ.loc loc)) :=
  h.noting loc (h.toTracking.constant type bits) value_subset

mutual

theorem value (h : FlowTracking ρ A J) (e : Expr) (held : List Operand) :
    J held A.value (value e) (value (e.relabel ρ)) := by
  match e with
  | .int loc n | .char loc n | .float loc n | .sizeofType loc n =>
    exact h.constant loc _ _
  | .sizeofExpr loc operand =>
    exact h.seq (h.inferred operand) fun type => h.constant loc _ _
  | .string loc bytes =>
    exact h.noting loc (h.stringConstant _ _) value_subset
  | .ident loc name =>
    exact h.read loc (h.namedPlace loc name) namedPlace_addressable
  | .index loc base index =>
    refine h.seq (h.value base _) fun b => h.seq (h.value index _) fun i => ?_
    exact h.read loc (h.elementPlace loc ((gives_value b _).behind _).reads (gives_value i _).reads)
      elementPlace_addressable
  | .binary loc op left right =>
    rw [Expr.relabel, Expr.translate, Lowering.value, Lowering.value, Expr.loc_relabel, Expr.loc_relabel]
    refine Tracking.ite (fun _ => h.logical op loc left.loc right.loc (h.value left) (h.value right))
      fun _ => h.seq (h.value left _) fun l => h.seq (h.value right _) fun r => ?_
    have hl := ((gives_value (A := A) l held).behind (A.value r)).reads
    have hr := (gives_value (A := A) r (A.value l ++ held)).reads
    refine Tracking.ite (fun _ => h.noting loc (h.seq (h.comparable op hl hr loc) fun pair => ?_) value_subset)
      fun _ => h.noting loc (h.arithmetic op hl hr loc) value_subset
    refine h.truthOf _ _ (reads_kept ?_) (reads_kept ?_)
    · exact subset_append_of_subset_left _ (subset_append_left _ _)
    · exact subset_append_of_subset_left _ (subset_append_right _ _)
  | .unary loc op operand =>
    rw [Expr.relabel, Expr.translate]
    cases op with
    | not =>
      refine h.seq (h.value operand _) fun v => h.seq (h.requireScalar _ v _ loc) fun _ => ?_
      exact h.noting loc (h.truthOf _ _ (gives_value v held).reads (reads_constant rfl)) value_subset
    | addrOf =>
      rw [Lowering.value, Lowering.value, hasAddress_relabel]
      refine Tracking.ite (fun _ => h.bind (h.place operand _) fun _ p _ run => ?_) fun _ => h.invalid _ _ _
      exact h.noting loc (h.addressOf (finds_place p held) (place_addressable run)) value_subset
    | deref =>
      refine h.seq (h.value operand _) fun pointer => ?_
      exact h.read loc (h.pointedPlace loc (gives_value pointer held)) pointedPlace_addressable
    | plus | neg | bitNot =>
      refine h.seq (h.value operand _) fun v => ?_
      exact h.noting loc (h.signed _ (gives_value v held) loc) value_subset
  | .step loc step fixity operand =>
    refine h.bind (h.place operand _) fun _ p _ run => ?_
    exact h.noting loc (h.stepPlace step fixity loc (finds_place p held) (place_addressable run)) value_subset
  | .assign loc target op source =>
    refine h.bind (h.place target _) fun _ p _ run => h.seq (h.requireModifiable p loc) fun _ => ?_
    have found := finds_place (A := A) p held
    cases op with
    | none => exact h.seq (h.value source _) fun v => h.storeResult loc (found.behind _) (gives_value v _)
    | some op =>
      refine h.seq (h.readPlace found (place_addressable run)) fun current => h.seq (h.value source _) fun operand => ?_
      refine h.seq (h.arithmetic op ((has_head).behind _).reads (gives_value operand _).reads loc) fun v => ?_
      exact h.storeResult loc (((found.behind _).behind _).behind _) (gives_head v _)
  | .call loc callee args =>
    rw [Expr.relabel, Expr.translate, Lowering.value, Lowering.value, Expr.length_relabelAll]
    refine h.seq (h.resolveCallee callee loc) fun f => h.seq (h.requireCount f _ loc) fun _ => ?_
    refine h.seq (h.arguments f.params args _) fun operands => ?_
    refine h.noting loc (h.callWith ?_ fun o mem => ?_) fun _ => List.Subset.refl _
    · exact (reads_kept (subset_append_left _ _)).behind _
    · exact (has_of_mem (mem_append_left _ mem)).reads
  | .member loc object arrow name =>
    exact h.fail (.unsupported (.memberAccess name)) loc
  | .conditional loc cond yes no =>
    rw [Expr.relabel, Expr.translate, Lowering.value, Lowering.value]
    simp only [Expr.loc_relabel]
    refine h.seq (h.inferred yes) fun yesType => h.seq (h.inferred no) fun noType => ?_
    refine h.seq (h.value cond _) fun c => h.seq (h.requireScalar _ c _ cond.loc) fun _ => ?_
    exact h.branches c _ loc yes.loc no.loc (gives_value c held).reads (h.value yes) (h.value no)
  | .cast loc type operand =>
    refine h.seq (h.value operand _) fun v => ?_
    exact h.noting loc (h.castValue (gives_value v held) type loc) fun _ => List.Subset.refl _

theorem place (h : FlowTracking ρ A J) (e : Expr) (held : List Operand) :
    J held A.place (place e) (place (e.relabel ρ)) := by
  match e with
  | .ident loc name =>
    exact h.namedPlace loc name
  | .unary loc op operand =>
    rw [Expr.relabel, Expr.translate]
    cases op with
    | deref =>
      exact h.seq (h.value operand _) fun pointer => h.pointedPlace loc (gives_value pointer held)
    | plus | neg | bitNot | not | addrOf => exact h.fail .notAssignable loc
  | .index loc base index =>
    refine h.seq (h.value base _) fun b => h.seq (h.value index _) fun i => ?_
    exact h.elementPlace loc ((gives_value b _).behind _).reads (gives_value i _).reads
  | .int .. | .float .. | .char .. | .string .. | .binary .. | .step .. | .assign .. | .call .. | .member ..
  | .conditional .. | .cast .. | .sizeofType .. | .sizeofExpr .. =>
    exact h.fail .notAssignable _

theorem arguments (h : FlowTracking ρ A J) (params : List CType) (args : List Expr)
    (held : List Operand) :
    J held (fun os => os) (arguments params args) (arguments params (Expr.relabelAll ρ args)) := by
  match args with
  | [] =>
    exact h.pure (forall_mem_nil _)
  | arg :: args =>
    rw [Expr.relabelAll, Expr.translateAll, Lowering.arguments, Lowering.arguments, Expr.loc_relabel]
    refine h.seq (h.value arg _) fun v => h.seq (h.convertArgument (gives_value v held) _ arg.loc) fun w => ?_
    refine h.seq (h.arguments params.tail args _) fun rest => h.pure (forall_mem_cons.2 ⟨has_head.behind _, ?_⟩)
    exact fun o mem => has_of_mem (mem_append_left _ mem)

end

end FlowTracking

/-! ## Congruences

Most relations between steps have nothing to do with operands.  They differ in what they say of the steps with
labels, so these are the ones to look at where a property is proved:

  * growth of the state, below;
  * that all labels that are numbered are defined;
  * that there is code for every number that is taken;
  * that positions and names do not matter. -/

/-- A relation between steps for which no operands are held. -/
abbrev Congruence (ρ : Relabeling) (J : ∀ {α : Type}, Lower α → Lower α → Prop) : Prop :=
  Tracking ρ .results fun _ _ m m' => J m m'

/-- One that holds of the steps with labels too. -/
abbrev FlowCongruence (ρ : Relabeling) (J : ∀ {α : Type}, Lower α → Lower α → Prop) : Prop :=
  FlowTracking ρ .results fun _ _ m m' => J m m'

namespace Congruence

variable {ρ : Relabeling} {J : ∀ {α : Type}, Lower α → Lower α → Prop} (h : Congruence ρ J)
include h

theorem noted (loc : Location) (v : Value) : J (noted loc v) (noted (ρ.loc loc) v) :=
  Tracking.noted h loc (Has.value (has_of_mem (List.mem_singleton_self _)))

theorem requireScalar (v : Value) (operator : String) (loc : Location) :
    J (requireScalar v operator loc) (requireScalar v operator (ρ.loc loc)) :=
  Tracking.requireScalar h [] v operator loc

theorem compareZero (v : Value) : J (compareZero v) (compareZero v) := Tracking.compareZero h (gives_head v []).reads

theorem convertAssigned (v : Value) (target : CType) (loc : Location) :
    J (convertAssigned v target loc) (convertAssigned v target (ρ.loc loc)) :=
  Tracking.convertAssigned h (gives_head v []) target loc

theorem deliver (target : Option Operand) (v : Value) (type : CType) (loc : Location) :
    J (deliver target v type loc) (deliver target v type (ρ.loc loc)) :=
  Tracking.deliver h (fun _ _ => trivial) (gives_head v []) type loc

theorem branchResult (loc : Location) (target : Option Operand) (type : CType) :
    J (branchResult loc target type) (branchResult (ρ.loc loc) target type) :=
  Tracking.branchResult h loc (fun _ mem => has_of_mem (Option.mem_toList.2 mem)) type

end Congruence

/-! ## Growth -/

/-- Steps without labels grow quietly, and so follow whatever allows quiet growth. -/
theorem congruence_follows {T : State → State → Prop} (quiet : ∀ s s', QuietGrowth s s' → T s s') :
    Congruence .identity fun m _ => Follows T m where
  pure _ := follows_pure
  fail _ _ := follows_fail
  bind first rest := follows_bind first rest
  noteType loc type := (follows_noteType loc type).mono quiet
  emit ok _ := (follows_emit ok).mono quiet
  compute ok _ _ := (follows_compute ok).mono quiet
  namedPlace loc name := (follows_namedPlace loc name).mono quiet
  resolveCallee callee loc := (follows_resolveCallee callee loc).mono quiet
  inferred e := (follows_inferred e).mono quiet

theorem quietly : Congruence .identity fun m _ => Follows QuietGrowth m := congruence_follows fun _ _ => id

theorem growing : FlowCongruence .identity fun m _ => Follows AnyGrowth m :=
  StepTracking.flow ⟨congruence_follows fun _ _ => QuietGrowth.any, follows_freshLabel trivial, follows_temporary,
    fun plain _ => follows_emit plain⟩

theorem follows_value (e : Expr) : Follows AnyGrowth (value e) := growing.value e []

theorem follows_compareZero (v : Value) : Follows QuietGrowth (compareZero v) := quietly.compareZero v

/-! ## Results live in new variables

The value of an expression is used after other code has been made, for the other operand or for the
place that is assigned to.  So it must not be in a variable that this code may write.  It never is: the
variable was numbered while the expression itself was lowered.

Most values are computed into a variable that is numbered just before.  Several steps hand on an operand without
copying it: a conversion that does not change the encoding, unary plus, the address of an element, the value of an
assignment.  What they are given is new to the expression already, and stays so while the state grows (`Since`).
Storage of a name is never handed on, but copied first. -/

variable {α β : Type} {s s' : State} {n : Nat} {os : List Operand}

/-- So many variables are numbered, and some operands are variables that were numbered since. -/
structure Since (n : Nat) (os : List Operand) (s : State) : Prop where
  count : n ≤ s.variableCount
  new : ∀ o ∈ os, ∃ enc k, o = .var enc (.ofNat k) ∧ n ≤ k ∧ k < s.variableCount

theorem Since.less {less : List Operand} (h : Since n os s) (sub : less ⊆ os) : Since n less s :=
  ⟨h.count, fun o mem => h.new o (sub mem)⟩

theorem Since.grow (h : Since n os s) (more : s.variableCount ≤ s'.variableCount) : Since n os s' := by
  refine ⟨Nat.le_trans h.count more, fun o mem => ?_⟩
  obtain ⟨enc, k, same, first, last⟩ := h.new o mem
  exact ⟨enc, k, same, first, Nat.lt_of_lt_of_le last more⟩

variable {m : Lower α} {type : CType} {v : Value}

theorem since_growth (grows : Follows AnyGrowth m) : Triple (Since n os) m fun _ => Since n os := by
  intro s a s' since run
  refine since.grow ?_
  have steps := grows.of_ok run
  clear run
  induction steps with
  | refl => exact Nat.le_refl _
  | tail _ step ih =>
    cases step with
    | freshVariable => exact Nat.le_succ_of_le ih
    | emit | refuse | freshLabel | noteType => exact ih

theorem since_pure {a : α} {out : α → List Operand} (sub : out a ⊆ os) :
    Triple (Since n os) (pure a : Lower α) fun a => Since n (out a) := triple_pure fun _ since => since.less sub

theorem since_temporary (type : CType) : Triple (Since n os) (temporary type) fun o => Since n (o :: os) := by
  intro s o s' since run
  obtain ⟨rfl, rfl⟩ := temporary_eq_ok.1 run
  have later : Since n os { s with variableCount := s.variableCount + 1 } := since.grow (Nat.le_succ _)
  exact ⟨later.count, List.forall_mem_cons.2 ⟨⟨_, _, rfl, since.count, Nat.lt_succ_self _⟩, later.new⟩⟩

theorem since_compute {opcode : Opcode} {qualifier : Qualifier} {operands : List Operand} :
    Triple (Since n os) (compute opcode qualifier type operands) fun v => Since n ([v.operand] ++ os) := by
  refine triple_bind (since_temporary type) fun target s v s' since run => ?_
  obtain ⟨_, _, emitted, given⟩ := bind_eq_ok.1 run
  obtain ⟨_, _, rfl⟩ := emit_eq_ok.1 emitted
  obtain ⟨rfl, rfl⟩ := pure_eq_ok.1 given
  exact ⟨since.count, since.new⟩

theorem tracking_since :
    Tracking .identity .results fun held out m _ => ∀ n, Triple (Since n held) m fun a => Since n (out a ++ held) where
  pure has _ := since_pure (List.append_subset.2 ⟨has, List.Subset.refl _⟩)
  fail _ _ _ := triple_fail
  bind first rest n s b s' since run := by
    obtain ⟨a, t, ran, run⟩ := bind_eq_ok.1 run
    exact (rest s a t ran n t b s' (first n s a t since ran) run).less (subset_between _ _ _)
  noteType loc type _ := since_growth (follows_noteType loc type)
  emit quiet _ _ := since_growth (follows_emit quiet.plain)
  compute _ _ _ _ := since_compute
  namedPlace loc name n s p s' since run := by
    have later := since_growth (follows_namedPlace loc name).any s p s' since run
    obtain ⟨_, _, rfl, _⟩ := namedPlace_eq_ok.1 run
    exact later
  resolveCallee callee loc _ := since_growth (follows_resolveCallee callee loc).any
  inferred e _ := since_growth (follows_inferred e)

theorem flowTracking_since :
    FlowTracking .identity .results fun held out m _ => ∀ n, Triple (Since n held) m fun a => Since n (out a ++ held) :=
  StepTracking.flow ⟨tracking_since, fun _ => since_growth (follows_freshLabel trivial),
    fun type _ => since_temporary type, fun plain _ _ => since_growth (follows_emit plain)⟩

theorem value_new {e : Expr} (run : value e s = .ok v s') (proper : v.type ≠ .void) :
    ∃ enc k, v.operand = .var enc (.ofNat k) ∧ s.variableCount ≤ k ∧ k < s'.variableCount := by
  have since := flowTracking_since.value e [] s.variableCount s v s' ⟨Nat.le_refl _, List.forall_mem_nil _⟩ run
  exact since.new _ ((Account.gives_value (A := .results) v []).has proper)

end Lowering

end Cof
