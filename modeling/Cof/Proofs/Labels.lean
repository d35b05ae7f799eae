/-
  Every label is defined once, and whatever goes to a label finds it in the same function.

  While code is made, a label is first numbered, then used, and in the end defined; the numbered ones
  that are still to be defined are *pending*.  `Body` is the invariant of a function's code so far:

    * what it defines and what is pending are, together, the labels numbered since it began;
    * whatever it goes to is pending or defined in it;
    * an address is taken only of data that stands earlier in it.
-/
import Cof.Proofs.Decimal
import Cof.Proofs.Declared
import Cof.Proofs.Reach
import Mathlib.Data.List.Forall2
import Mathlib.Data.Multiset.AddSub

namespace Cof

open List

/-! ## Labels in code -/

namespace Instr

@[simp] theorem introduced?_label (l : Int32) : (label l).introduced? = some l := by
  simp [introduced?]

theorem label_targets (l : Int32) : (label l).targets = [] ∧ (label l).addresses = [] := ⟨rfl, rfl⟩

/-- Data that a label names have bytes behind the label. -/
def Stocked (i : Instr) : Prop := i.dataLabel?.isSome = true → 1 < i.operands.length

theorem Stocked.of_introduces {i : Instr} (h : i.introduced? = none) : i.Stocked := by
  intro data
  rw [introduced?, Option.orElse_eq_none] at h
  rw [h.2] at data
  cases data

def introducedIn (code : List Instr) : Multiset Int32 := (code.filterMap introduced? : List Int32)

variable {i : Instr}

theorem introducedIn_cons_none (h : i.introduced? = none) (code : List Instr) :
    introducedIn (i :: code) = introducedIn code := by
  simp [introducedIn, h]

theorem introducedIn_cons_some {l : Int32} (h : i.introduced? = some l)
    (code : List Instr) : introducedIn (i :: code) = l ::ₘ introducedIn code := by
  simp [introducedIn, h]

end Instr

namespace Lowering

def issued (first count : Nat) : Multiset Int32 := ((List.range' first (count - first)).map Int32.ofNat : List Int32)

theorem issued_self (n : Nat) : issued n n = 0 := by simp [issued]

theorem issued_succ {first count : Nat} (h : first ≤ count) :
    issued first (count + 1) = Int32.ofNat count ::ₘ issued first count := by
  have length : count + 1 - first = (count - first) + 1 := by omega
  have last : first + (count - first) = count := by omega
  simp only [issued, length, range'_concat, Nat.one_mul, last, map_append, map_cons, map_nil]
  exact Quot.sound (perm_append_singleton _ _)

theorem issued_add {first count last : Nat} (h : first ≤ count) (h' : count ≤ last) :
    issued first count + issued count last = issued first last := by
  induction h' with
  | refl => rw [issued_self, Multiset.add_zero]
  | @step n hn ih => rw [issued_succ hn, issued_succ (Nat.le_trans h hn), ← ih, Multiset.add_cons]

/-! ## The invariant of a function's code -/

/-- A label that is still to be defined, or is defined in the code. -/
def Settled (pending : Multiset Int32) (body : List Instr) (l : Int32) : Prop :=
  l ∈ pending ∨ ∃ j ∈ body, j.definedLabel? = some l

/-- The code of a function so far, newest first.  The labels of the function are numbered from `first`
on, and `count` labels have been numbered. -/
structure Body (first : Nat) (pending : Multiset Int32) (known : List Int32) (count : Nat)
    (body : List Instr) : Prop where
  since : first ≤ count
  balanced : Instr.introducedIn body + pending = issued first count
  targets : ∀ i ∈ body, ∀ l ∈ i.targets, Settled pending body l
  known : ∀ l ∈ known, Settled pending body l
  addresses : ∀ newer i older, body = newer ++ i :: older → ∀ l ∈ i.addresses, ∃ j ∈ older, j.dataLabel? = some l
  inside : ∀ i ∈ body, i.startsFunction = false
  stocked : ∀ i ∈ body, i.Stocked

variable {first count : Nat} {pending : Multiset Int32} {known : List Int32} {body : List Instr}

theorem Settled.cons {l : Int32} (h : Settled pending body l) (i : Instr) : Settled pending (i :: body) l := by
  rcases h with h | ⟨j, hj, defined⟩
  · exact .inl h
  · exact .inr ⟨j, mem_cons_of_mem _ hj, defined⟩

theorem Settled.define {l l' : Int32} (h : Settled (l ::ₘ pending) body l') :
    Settled pending (Instr.label l :: body) l' := by
  rcases h with h | ⟨j, hj, defined⟩
  · rcases Multiset.mem_cons.1 h with rfl | h
    · exact .inr ⟨Instr.label l', by simp, by simp⟩
    · exact .inl h
  · exact .inr ⟨j, mem_cons_of_mem _ hj, defined⟩

namespace Body

theorem empty (n : Nat) : Body n 0 [] n [] where
  since := Nat.le_refl n
  balanced := by simp [Instr.introducedIn, issued_self]
  targets := forall_mem_nil _
  known := nofun
  addresses newer i older h := by simp at h
  inside := forall_mem_nil _
  stocked := forall_mem_nil _

variable {i : Instr} {l : Int32}

section

variable (h : Body first pending known count body)
include h

theorem cons_addresses (new : ∀ l ∈ i.addresses, ∃ j ∈ body, j.dataLabel? = some l) :
    ∀ newer i' older, i :: body = newer ++ i' :: older → ∀ l ∈ i'.addresses, ∃ j ∈ older, j.dataLabel? = some l := by
  intro newer i' older split l hl
  cases newer with
  | nil =>
    injection split with same rest
    subst same rest
    exact new l hl
  | cons _ newer =>
    injection split with _ rest
    exact h.addresses newer i' older rest l hl

theorem cons_targets (new : ∀ l ∈ i.targets, l ∈ known) :
    ∀ j ∈ i :: body, ∀ l ∈ j.targets, Settled pending (i :: body) l :=
  forall_mem_cons.2 ⟨fun l hl => (h.known l (new l hl)).cons i, fun j hj l hl => (h.targets j hj l hl).cons i⟩

theorem step {i : Instr} (introduces : i.introduced? = none)
    (targets : ∀ l ∈ i.targets, l ∈ known) (addresses : i.addresses = [])
    (inside : i.startsFunction = false) : Body first pending known count (i :: body) where
  since := h.since
  balanced := by rw [Instr.introducedIn_cons_none introduces, h.balanced]
  targets := h.cons_targets targets
  known l hl := (h.known l hl).cons _
  addresses := h.cons_addresses (by simp [addresses])
  inside := forall_mem_cons.2 ⟨inside, h.inside⟩
  stocked := forall_mem_cons.2 ⟨.of_introduces introduces, h.stocked⟩

theorem inert (hi : i.Inert) : Body first pending known count (i :: body) :=
  h.step hi.introduces (by simp [hi.targets]) hi.addresses hi.inside

theorem fresh :
    Body first (Int32.ofNat count ::ₘ pending) (Int32.ofNat count :: known) (count + 1) body where
  since := Nat.le_succ_of_le h.since
  balanced := by rw [issued_succ h.since, ← h.balanced, Multiset.add_cons]
  targets i hi l hl := (h.targets i hi l hl).imp_left fun h => Multiset.mem_cons_of_mem h
  known l hl := by
    rcases mem_cons.1 hl with rfl | hl
    · exact .inl (Multiset.mem_cons_self _ _)
    · exact (h.known l hl).imp_left fun h => Multiset.mem_cons_of_mem h
  addresses := h.addresses
  inside := h.inside
  stocked := h.stocked

end

theorem define (h : Body first (l ::ₘ pending) known count body) :
    Body first pending known count (Instr.label l :: body) where
  since := h.since
  balanced := by
    rw [Instr.introducedIn_cons_some (Instr.introduced?_label l), ← h.balanced, Multiset.add_cons, Multiset.cons_add]
  targets j hj l' hl' := by
    rcases mem_cons.1 hj with rfl | hj
    · simp [Instr.label_targets] at hl'
    · exact (h.targets j hj l' hl').define
  known l' hl' := (h.known l' hl').define
  addresses := h.cons_addresses (by simp [Instr.label_targets])
  inside := forall_mem_cons.2 ⟨rfl, h.inside⟩
  stocked := forall_mem_cons.2 ⟨nofun, h.stocked⟩

theorem data (h : Body first pending known count body) (bytes : Bytes) :
    Body first pending known (count + 1) (⟨.data, .none, [.label (.ofNat count), .symbol .array bytes]⟩ :: body) where
  since := Nat.le_succ_of_le h.since
  balanced := by
    rw [Instr.introducedIn_cons_some rfl, issued_succ h.since, ← h.balanced, Multiset.cons_add]
  targets := h.cons_targets nofun
  known l hl := (h.known l hl).cons _
  addresses := h.cons_addresses nofun
  inside := forall_mem_cons.2 ⟨rfl, h.inside⟩
  stocked := forall_mem_cons.2 ⟨fun _ => Nat.one_lt_two, h.stocked⟩

theorem address (h : Body first pending known count body) {enc : Encoding} {id : UInt32}
    (there : ∃ j ∈ body, j.dataLabel? = some l) :
    Body first pending known count (⟨.lea, .none, [.var enc id, .label l]⟩ :: body) where
  since := h.since
  balanced := by rw [Instr.introducedIn_cons_none rfl, h.balanced]
  targets := h.cons_targets nofun
  known l' hl' := (h.known l' hl').cons _
  addresses := by
    refine h.cons_addresses fun l' hl' => ?_
    obtain rfl : l' = l := by simpa [Instr.addresses, Instr.labels] using hl'
    exact there
  inside := forall_mem_cons.2 ⟨rfl, h.inside⟩
  stocked := forall_mem_cons.2 ⟨nofun, h.stocked⟩

theorem weaken (h : Body first pending known count body) {less : List Int32} (sub : less ⊆ known) :
    Body first pending less count body :=
  { h with known := fun l hl => h.known l (sub hl) }

end Body

/-! ## States inside a function -/

/-- What is put in front of the code of a function, and how many labels were numbered before it. -/
structure Frame where
  base : List Instr
  first : Nat

/-- A state inside a function: the code since the function began satisfies its invariant. -/
def Labelled (F : Frame) (loops : List LoopLabels) (pending : Multiset Int32) (known : List Int32) (s : State) : Prop :=
  s.loops = loops ∧ ∃ body, s.code = body ++ F.base ∧ Body F.first pending known s.labelCount body

section Triples

variable {α β : Type} {F : Frame} {loops : List LoopLabels} {m : Lower α} {f : α → Lower β}

abbrev LabelTriple (F : Frame) (loops : List LoopLabels) (pending : Multiset Int32)
    (known : List Int32) (m : Lower α) (pending' : Multiset Int32) (known' : List Int32) : Prop :=
  Triple (Labelled F loops pending known) m fun _ => Labelled F loops pending' known'

abbrev Neutral (F : Frame) (loops : List LoopLabels) (pending : Multiset Int32) (known : List Int32)
    (m : Lower α) : Prop := LabelTriple F loops pending known m pending known

theorem neutral_pure {a : α} : Neutral F loops pending known (pure a : Lower α) := triple_pure fun _ h => h

def quietLimits : Limits where
  instrs := Instr.Inert
  labels := False
  types _ := True
  names _ := True

theorem Follows.neutral (h : Follows (Change quietLimits) m) : Neutral F loops pending known m := by
  intro s a s' hs run
  refine (h.gives ?_ s a s' hs run).1
  rintro s s' step ⟨same, body, code, hbody⟩
  cases step with
  | growth step =>
    cases step with
    | emit encodes inert => exact ⟨same, _ :: body, congrArg (List.cons _) code, hbody.inert inert⟩
    | refuse | freshVariable | noteType => exact ⟨same, body, code, hbody⟩
    | freshLabel ok => exact ok.elim
  | _ => exact ⟨same, body, code, hbody⟩

theorem Follows.quiet (h : Follows QuietGrowth m) : Neutral F loops pending known m := by
  refine Follows.neutral (h.mono fun s s' step => .growth ?_)
  cases step with
  | emit encodes quiet => exact .emit encodes quiet.toInert
  | refuse written => exact .refuse written
  | freshVariable => exact .freshVariable
  | freshLabel ok => exact ok.elim
  | noteType loc type => exact .noteType loc type

theorem neutral_emit {opcode : Opcode} {qualifier : Qualifier} {operands : List Operand}
    (h : opcode ≠ .sym ∧ opcode ≠ .data ∧ opcode ≠ .jmp ∧ opcode ≠ .br ∧ opcode ≠ .lea) :
    Neutral F loops pending known (emit opcode qualifier operands) :=
  Follows.neutral (Follows.change (L := quietLimits) (follows_emit (Instr.inert_of_opcode _ _ h)))

variable {pending' : Multiset Int32} {known' : List Int32} {l : Int32}

theorem triple_freshLabel {f : Int32 → Lower β}
    (rest : ∀ l, LabelTriple F loops (l ::ₘ pending) (l :: known) (f l) pending' known') :
    LabelTriple F loops pending known (freshLabel >>= f) pending' known' := by
  intro s b s' hs run
  obtain ⟨l, t, numbered, run⟩ := bind_eq_ok.1 run
  obtain ⟨rfl, rfl⟩ := freshLabel_eq_ok.1 numbered
  obtain ⟨same, body, code, hbody⟩ := hs
  refine rest _ _ b s' ?_ run
  exact ⟨same, body, code, hbody.fresh⟩

theorem triple_defineLabel (l : Int32) : LabelTriple F loops (l ::ₘ pending) known (defineLabel l) pending known := by
  rintro s u s' ⟨same, body, code, hbody⟩ run
  obtain ⟨bytes, _, rfl⟩ := emit_eq_ok.1 run
  exact ⟨same, _ :: body, congrArg (List.cons _) code, hbody.define⟩

theorem neutral_goes {opcode : Opcode} (condition : Qualifier) (goes : opcode = .jmp ∨ opcode = .br)
    (h : l ∈ known) : Neutral F loops pending known (emit opcode condition [.label l]) := by
  rintro s u s' ⟨same, body, code, hbody⟩ run
  obtain ⟨bytes, _, rfl⟩ := emit_eq_ok.1 run
  refine ⟨same, _ :: body, congrArg (List.cons _) code, ?_⟩
  obtain rfl | rfl := goes
  · exact hbody.step rfl (forall_mem_singleton.2 h) rfl rfl
  · exact hbody.step rfl (forall_mem_singleton.2 h) rfl rfl

theorem neutral_jump (h : l ∈ known) : Neutral F loops pending known (jump l) := neutral_goes .none (.inl rfl) h

theorem neutral_branch (condition : Qualifier) (h : l ∈ known) :
    Neutral F loops pending known (branch condition l) := neutral_goes condition (.inr rfl) h

theorem triple_forget
    (h : LabelTriple F loops pending known m pending' known') {less : List Int32} (sub : less ⊆ known') :
    LabelTriple F loops pending known m pending' less := by
  intro s a s' hs run
  obtain ⟨same, body, code, hbody⟩ := h s a s' hs run
  exact ⟨same, body, code, hbody.weaken sub⟩

theorem neutral_discard (h : Neutral F loops pending known m) :
    Neutral F loops pending known (discard m) := triple_map h

/-! ## Operations that take labels -/

theorem neutral_stringConstant (bytes : Bytes) : Neutral F loops pending known (stringConstant bytes) := by
  rintro s v s' ⟨same, body, code, hbody⟩ run
  simp only [stringConstant, bind_eq_ok, freshLabel_eq_ok, compute_eq_ok] at run
  obtain ⟨_, _, ⟨rfl, rfl⟩, _, _, data, rfl, lea⟩ := run
  obtain ⟨_, _, rfl⟩ := emit_eq_ok.1 data
  obtain ⟨_, _, rfl⟩ := emit_eq_ok.1 lea
  refine ⟨same, _ :: _ :: body, congrArg (List.cons _ ∘ List.cons _) code, ?_⟩
  exact (hbody.data (bytes ++ [0])).address ⟨_, mem_cons_self, rfl⟩

theorem neutral_leaveIf (exit : Qualifier) (v : Value) (h : l ∈ known) :
    Neutral F loops pending known (leaveIf exit v l) :=
  triple_bind (follows_compareZero v).quiet fun _ => neutral_branch _ h

theorem triple_logicalResult (short full : UInt64) {shortLabel endLabel : Int32} (known_end : endLabel ∈ known) :
    LabelTriple F loops (endLabel ::ₘ shortLabel ::ₘ pending) known
      (logicalResult short full shortLabel endLabel) pending known := by
  refine triple_bind (follows_temporary _).quiet fun target => ?_
  refine triple_bind (neutral_emit (by decide)) fun _ => ?_
  refine triple_bind (neutral_jump known_end) fun _ => ?_
  rw [Multiset.cons_swap]
  refine triple_bind (triple_defineLabel shortLabel) fun _ => ?_
  refine triple_bind (neutral_emit (by decide)) fun _ => ?_
  exact triple_bind (triple_defineLabel endLabel) fun _ => neutral_pure

theorem neutral_truthOf (left right : Operand) (signedness condition : Qualifier) :
    Neutral F loops pending known (truthOf left right signedness condition) := by
  refine triple_freshLabel fun onFalse => triple_freshLabel fun done => ?_
  refine triple_bind (neutral_emit (by decide)) fun _ => triple_bind (neutral_branch _ (by simp)) fun _ => ?_
  exact triple_forget (triple_logicalResult 0 1 mem_cons_self) (by simp)

end Triples

/-! ## Expressions -/

section Exprs

variable {F : Frame} {loops : List LoopLabels}

theorem congruence_neutral : FlowCongruence .identity fun m _ => ∀ pending known, Neutral F loops pending known m where
  pure _ _ _ := neutral_pure
  fail _ _ _ _ := triple_fail
  bind first rest pending known s b s' hs run := by
    obtain ⟨a, t, ran, run⟩ := bind_eq_ok.1 run
    exact rest s a t ran pending known t b s' (first pending known s a t hs ran) run
  noteType loc type _ _ := (follows_noteType loc type).quiet
  emit ok _ _ _ := (follows_emit ok).quiet
  compute ok _ _ _ _ := (follows_compute ok).quiet
  namedPlace loc name _ _ := (follows_namedPlace loc name).quiet
  resolveCallee callee loc _ _ := (follows_resolveCallee callee loc).quiet
  inferred e _ _ := (follows_inferred e).quiet
  stringConstant _ _ _ _ := neutral_stringConstant _
  truthOf signedness condition _ _ _ _ := neutral_truthOf _ _ signedness condition
  logical op loc leftLoc rightLoc left _ right _ hl hr pending known := by
    refine triple_bind (hl [] _ _) fun l => triple_bind (follows_requireScalar _ _ _).quiet fun _ => ?_
    refine triple_freshLabel fun shortLabel => triple_bind (neutral_leaveIf _ _ (by simp)) fun _ => ?_
    refine triple_bind (hr [] _ _) fun r => triple_bind (follows_requireScalar _ _ _).quiet fun _ => ?_
    refine triple_freshLabel fun endLabel => triple_bind (neutral_leaveIf _ _ (by simp)) fun _ => ?_
    refine triple_bind (triple_forget (triple_logicalResult _ _ mem_cons_self) ?_) fun _ =>
      (follows_noted _ _).quiet
    simp
  branches c type loc yesLoc noLoc yes _ no _ _ hy hn pending known := by
    refine triple_freshLabel fun elseLabel => triple_freshLabel fun endLabel => ?_
    refine triple_bind (follows_compareZero c).quiet fun _ => ?_
    refine triple_bind (neutral_branch _ (by simp)) fun _ => ?_
    refine triple_bind (follows_branchTarget _).quiet fun target => triple_bind (hy [] _ _) fun y => ?_
    refine triple_bind (quietly.deliver _ _ _ _).quiet fun _ => triple_bind (neutral_jump (by simp)) fun _ => ?_
    rw [Multiset.cons_swap]
    refine triple_bind (triple_defineLabel elseLabel) fun _ => triple_bind (hn [] _ _) fun n => ?_
    refine triple_bind (quietly.deliver _ _ _ _).quiet fun _ => ?_
    refine triple_bind (triple_forget (triple_defineLabel endLabel) ?_) fun _ =>
      (quietly.branchResult loc target _).quiet
    simp

theorem neutral_value {pending : Multiset Int32} {known : List Int32} (e : Expr) :
    Neutral F loops pending known (value e) := congruence_neutral.value e [] pending known

end Exprs

/-! ## Statements -/

section Stmts

variable {α : Type} {F : Frame} {loops : List LoopLabels} {m : Lower α}

theorem neutral_get {f : State → Lower α} (h : ∀ t, t.loops = loops → Neutral F loops pending known (f t)) :
    Neutral F loops pending known (get >>= f) := by
  intro s a s' hs run
  obtain ⟨_, _, got, run⟩ := bind_eq_ok.1 run
  obtain ⟨rfl, rfl⟩ := get_eq_ok.1 got
  exact h s hs.1 s a s' hs run

theorem neutral_declareVariable {name : Name} {type : CType} {loc : Location} {fill : Operand → Lower Unit}
    (h : ∀ target, Neutral F loops pending known (fill target)) :
    Neutral F loops pending known (declareVariable name type loc fill) := by
  intro s u s' labelled run
  obtain ⟨-, t, filled, created⟩ := declareVariable_steps run
  refine h _ t u s' (neutral_emit ?_ _ () t (by exact labelled) created) filled
  decide

theorem directive_inert (qualifier : Qualifier) (operands : List Operand)
    (notLabel : qualifier ≠ .label) (notFunction : qualifier ≠ .function) :
    quietLimits.instrs ⟨.sym, qualifier, operands⟩ where
  introduces := by simp [Instr.introduced?, Instr.definedLabel?, Instr.dataLabel?, notLabel]
  targets := rfl
  addresses := rfl
  inside := by simp [Instr.startsFunction, notFunction]

theorem neutral_fillVariable (v : VarDecl) (target : Operand) :
    Neutral F loops pending known (fillVariable v target) :=
  congruence_neutral.fillVariable v target [] trivial pending known

theorem neutral_localDeclaration (d : Declaration) : Neutral F loops pending known (localDeclaration d) := by
  cases d with
  | proto f => exact ((records_change directive_inert).declareFunction false trivial trivial).neutral
  | var v =>
    unfold localDeclaration
    simp only
    split
    · exact ((records_change directive_inert).localExternal trivial trivial).neutral
    · exact ((records_change directive_inert).localStatic trivial trivial).neutral
    · rw [localAutomatic_declares]
      exact triple_ite (fun _ => triple_unsupported) fun _ => neutral_declareVariable (neutral_fillVariable v)

theorem neutral_conditionValue (e : Expr) : Neutral F loops pending known (conditionValue e) :=
  congruence_neutral.conditionValue e [] pending known

theorem neutral_branchOn (condition : Qualifier) (e : Expr) {l : Int32} (h : l ∈ known) :
    Neutral F loops pending known (branchOn condition e l) := by
  refine triple_bind (neutral_conditionValue e) fun v => ?_
  exact triple_bind (follows_compareZero v).quiet fun _ => neutral_branch _ h

theorem neutral_returnStatement (value? : Option Expr) (loc : Location) :
    Neutral F loops pending known (returnStatement value? loc) :=
  triple_bind (Follows.quiet follows_get) fun s =>
    congruence_neutral.returnAs value? loc s.returnType [] pending known

theorem neutral_forTest (cond : Option Expr) {done : Int32} (h : done ∈ known) :
    Neutral F loops pending known (forTest cond done) := by
  cases cond with
  | none => exact neutral_pure
  | some cond => exact neutral_branchOn .eq cond h

theorem neutral_forStep (step : Option Expr) : Neutral F loops pending known (forStep step) := by
  cases step with
  | none => exact neutral_pure
  | some step => exact neutral_discard (neutral_value step)

theorem neutral_inLoop {labels : LoopLabels} (h : Neutral F (labels :: loops) pending known m) :
    Neutral F loops pending known (inLoop labels m) := by
  rintro s a s' ⟨same, body, code, hbody⟩ run
  obtain ⟨t, ran, rfl⟩ := inLoop_eq_ok.1 run
  obtain ⟨loops', body', code', hbody'⟩ := h (s.inside labels) a t
    ⟨congrArg (List.cons labels) same, body, code, hbody⟩ ran
  exact ⟨congrArg List.tail loops', body', code', hbody'⟩

def LoopsKnown (loops : List LoopLabels) (known : List Int32) : Prop :=
  ∀ labels ∈ loops, labels.onContinue ∈ known ∧ labels.onBreak ∈ known

theorem LoopsKnown.mono (h : LoopsKnown loops known) {more : List Int32} (sub : known ⊆ more) :
    LoopsKnown loops more := fun labels hlabels => (h labels hlabels).imp (@sub _) (@sub _)

theorem LoopsKnown.cons (h : LoopsKnown loops known) {labels : LoopLabels}
    (onContinue : labels.onContinue ∈ known) (onBreak : labels.onBreak ∈ known) :
    LoopsKnown (labels :: loops) known := by
  intro l hl
  rcases mem_cons.1 hl with rfl | hl
  · exact ⟨onContinue, onBreak⟩
  · exact h l hl

theorem cons_reverse (a b c : Int32) (rest : Multiset Int32) : a ::ₘ b ::ₘ c ::ₘ rest = c ::ₘ b ::ₘ a ::ₘ rest := by
  rw [Multiset.cons_swap a b, Multiset.cons_swap a c, Multiset.cons_swap b c]

theorem neutral_round (round : Round) {start : Int32} (h : start ∈ known) :
    Neutral F loops pending known (round.code start) := by
  cases round with
  | test cond => exact neutral_branchOn .ne cond h
  | step e => exact triple_bind (neutral_forStep e) fun _ => neutral_jump h

theorem neutral_leaveLoop {target : LoopLabels → Int32} (h : ∀ labels ∈ loops, target labels ∈ known)
    (what : Unsupported) (loc : Location) : Neutral F loops pending known (leaveLoop target what loc) := by
  refine neutral_get fun t same => ?_
  rw [same]
  cases loops with
  | nil => exact triple_unsupported
  | cons labels loops => exact neutral_jump (h labels (by simp))

/-- Code that defines every label that it numbers, and goes to its own labels and to those of loops around it. -/
def Balances (F : Frame) (m : Lower Unit) : Prop :=
  ∀ ⦃loops pending known⦄, LoopsKnown loops known → Neutral F loops pending known m

theorem balances_choice (cond : Expr) {yes no : Lower Unit} (hy : Balances F yes) (hn : Balances F no) :
    Balances F (choiceCode cond yes no) := by
  intro loops pending known h
  refine triple_bind (neutral_conditionValue cond) fun c => ?_
  refine triple_freshLabel fun elseLabel => triple_freshLabel fun endLabel => ?_
  refine triple_bind (follows_compareZero c).quiet fun _ => ?_
  refine triple_bind (neutral_branch _ (by simp)) fun _ => ?_
  refine triple_bind (hy (h.mono (by simp))) fun _ => triple_bind (neutral_jump (by simp)) fun _ => ?_
  rw [Multiset.cons_swap]
  refine triple_bind (triple_defineLabel elseLabel) fun _ => ?_
  refine triple_bind (hn (h.mono (by simp))) fun _ => ?_
  exact triple_forget (triple_defineLabel endLabel) (by simp)

theorem balances_whileLoop (cond : Expr) {body : Lower Unit} (hb : Balances F body) :
    Balances F (whileCode cond body) := by
  intro loops pending known h
  refine triple_freshLabel fun start => triple_freshLabel fun done => ?_
  rw [Multiset.cons_swap]
  refine triple_bind (triple_defineLabel start) fun _ => ?_
  refine triple_bind (neutral_branchOn .eq cond (by simp)) fun _ => ?_
  have inner : LoopsKnown (⟨start, done⟩ :: loops) (done :: start :: known) :=
    (h.mono (by simp)).cons (by simp) (by simp)
  refine triple_bind (neutral_inLoop (hb inner)) fun _ => ?_
  refine triple_bind (neutral_jump (by simp)) fun _ => ?_
  exact triple_forget (triple_defineLabel done) (by simp)

theorem balances_loop (cond : Option Expr) (round : Round) {body : Lower Unit} (hb : Balances F body) :
    Balances F (loopCode cond body round) := by
  intro loops pending known h
  refine triple_freshLabel fun start => triple_freshLabel fun next => triple_freshLabel fun done => ?_
  rw [cons_reverse]
  refine triple_bind (triple_defineLabel start) fun _ => ?_
  refine triple_bind (neutral_forTest cond (by simp)) fun _ => ?_
  have inner : LoopsKnown (⟨next, done⟩ :: loops) (done :: next :: start :: known) :=
    (h.mono fun l hl => by simp [hl]).cons (by simp) (by simp)
  refine triple_bind (neutral_inLoop (hb inner)) fun _ => ?_
  refine triple_bind (triple_defineLabel next) fun _ => ?_
  refine triple_bind (neutral_round round (by simp)) fun _ => ?_
  exact triple_forget (triple_defineLabel done) fun l hl => by simp [hl]

theorem structured_balances (F : Frame) : Structured .identity (fun _ => True) .unit fun _ m _ => Balances F m where
  done _ _ _ _ := neutral_pure
  evaluation e _ _ _ _ := neutral_discard (neutral_value e)
  declaration _ _ _ _ _ := neutral_localDeclaration _
  returning e loc _ _ _ _ := neutral_returnStatement e loc
  onBreak loc _ _ _ h := neutral_leaveLoop (fun labels mem => (h labels mem).2) _ loc
  onContinue loc _ _ _ h := neutral_leaveLoop (fun labels mem => (h labels mem).1) _ loc
  scope inner _ _ _ h := by
    refine triple_bind follows_enterScope.neutral fun _ => triple_bind ?_ fun _ => follows_exitScope.neutral
    refine triple_bind (neutral_emit (by decide)) fun _ => ?_
    exact triple_bind (inner h) fun _ => neutral_emit (by decide)
  andThen first second _ _ _ h := triple_bind (first h) fun _ => second h
  choice cond _ _ _ _ _ _ := balances_choice cond
  whileLoop cond _ _ _ := balances_whileLoop cond
  loop cond round _ _ _ := balances_loop cond round

theorem neutral_statement (st : Stmt) (h : LoopsKnown loops known) : Neutral F loops pending known (statement st) :=
  (structured_balances F).statement Grading.grades_unit st (fun _ _ => trivial) h

theorem neutral_statements (body : List Stmt) (h : LoopsKnown loops known) :
    Neutral F loops pending known (statements body) :=
  (structured_balances F).statements Grading.grades_unit body (fun _ _ => trivial) h

end Stmts

/-! ## Programs -/

/-- The code of a function, oldest first, in which every target is defined and an address is taken
only of data that came before. -/
structure Resolved (code : List Instr) : Prop where
  targets : ∀ i ∈ code, ∀ l ∈ i.targets, ∃ j ∈ code, j.definedLabel? = some l
  addresses : ∀ older i newer, code = older ++ i :: newer → ∀ l ∈ i.addresses, ∃ j ∈ older, j.dataLabel? = some l
  inside : ∀ i ∈ code, i.startsFunction = false

theorem Body.resolved (h : Body first 0 known count body) : Resolved body.reverse where
  targets i hi l hl := by
    rcases h.targets i (mem_reverse.1 hi) l hl with pending | ⟨j, hj, defined⟩
    · simp at pending
    · exact ⟨j, mem_reverse.2 hj, defined⟩
  addresses older i newer split l hl := by
    have split : body = newer.reverse ++ i :: older.reverse := by
      rw [← reverse_reverse body, split]
      simp
    obtain ⟨j, hj, data⟩ := h.addresses _ i _ split l hl
    exact ⟨j, mem_reverse.1 hj, data⟩
  inside i hi := h.inside i (mem_reverse.1 hi)

/-- The code of a piece of file scope.  A declaration has nothing to do with labels, and a function is
resolved between the directive that names it and its last `ret`. -/
def LabelledItem : TopLevel → List Instr → Prop
  | .declare _, code => ∀ i ∈ code, i.Inert
  | .define f _, code =>
    ∃ inner, code = .function f.name :: (inner ++ [⟨.ret, .none, []⟩]) ∧ Resolved inner

/-- What is added outside of functions: code that defines the labels numbered meanwhile. -/
structure Appends (s s' : State) (item : List Instr) : Prop where
  loops : s'.loops = s.loops
  since : s.labelCount ≤ s'.labelCount
  code : s'.code.reverse = s.code.reverse ++ item
  balanced : Instr.introducedIn item = issued s.labelCount s'.labelCount
  stocked : ∀ i ∈ item, i.Stocked

section Programs

variable {s s' t : State}

theorem Appends.nil (s : State) : Appends s s [] :=
  ⟨rfl, Nat.le_refl _, by simp, by simp [Instr.introducedIn, issued_self], forall_mem_nil _⟩

theorem introducedIn_append (code more : List Instr) :
    Instr.introducedIn (code ++ more) = Instr.introducedIn code + Instr.introducedIn more := by
  simp [Instr.introducedIn]

theorem introducedIn_reverse (code : List Instr) : Instr.introducedIn code.reverse = Instr.introducedIn code := by
  simp [Instr.introducedIn, filterMap_reverse]

theorem Appends.trans {item more : List Instr} (h : Appends s t item) (h' : Appends t s' more) :
    Appends s s' (item ++ more) where
  loops := h'.loops.trans h.loops
  since := Nat.le_trans h.since h'.since
  code := by rw [h'.code, h.code, append_assoc]
  balanced := by rw [introducedIn_append, h.balanced, h'.balanced, issued_add h.since h'.since]
  stocked := forall_mem_append.2 ⟨h.stocked, h'.stocked⟩

/-- A label that was numbered on the way from one state to another. -/
def NewLabel (s s' : State) (l : Int32) : Prop := ∃ k, s.labelCount ≤ k ∧ k < s'.labelCount ∧ l = Int32.ofNat k

theorem Appends.introduced {item : List Instr} {i : Instr} {l : Int32} (h : Appends s s' item) (mem : i ∈ item)
    (introduces : i.introduced? = some l) : NewLabel s s' l := by
  have numbered : l ∈ issued s.labelCount s'.labelCount := by
    rw [← h.balanced]
    exact Multiset.mem_coe.2 (mem_filterMap.2 ⟨i, mem, introduces⟩)
  obtain ⟨k, range, rfl⟩ := mem_map.1 (Multiset.mem_coe.1 numbered)
  rw [mem_range'_1] at range
  exact ⟨k, range.1, by omega, rfl⟩

theorem Appends.defined {item : List Instr} {i : Instr} {l : Int32} (h : Appends s s' item) (mem : i ∈ item)
    (defines : i.definedLabel? = some l) : NewLabel s s' l :=
  h.introduced mem (by rw [Instr.introduced?, defines]; rfl)

theorem labelled_start (s : State) : Labelled ⟨s.code, s.labelCount⟩ s.loops 0 [] s := ⟨rfl, [], rfl, .empty _⟩

theorem Labelled.appends (h : Labelled ⟨s.code, s.labelCount⟩ s.loops 0 [] s') :
    ∃ body, s'.code = body ++ s.code ∧ Appends s s' body.reverse ∧ Resolved body.reverse := by
  obtain ⟨same, body, code, hbody⟩ := h
  refine ⟨body, code, ⟨same, hbody.since, by rw [code]; simp, ?_, ?_⟩, hbody.resolved⟩
  · rw [introducedIn_reverse, ← hbody.balanced, Multiset.add_zero]
  · exact fun i mem => hbody.stocked i (mem_reverse.1 mem)

theorem appends_of_quiet {m : Lower Unit} (h : Follows (Change quietLimits) m)
    (run : m s = .ok () s') : ∃ item, Appends s s' item ∧ ∀ i ∈ item, i.Inert := by
  obtain ⟨body, code, appends, -⟩ := (h.neutral s () s' (labelled_start s) run).appends
  obtain ⟨added, code', inert⟩ := code_of_changes (h.of_ok run)
  obtain rfl : body = added := append_cancel_right (code.symm.trans code')
  exact ⟨_, appends, fun i hi => inert i (mem_reverse.1 hi)⟩

theorem neutral_bindParameters {F : Frame} {loops : List LoopLabels} (loc : Location) (index : Nat)
    (params : List Param) : Neutral F loops pending known (bindParameters loc index params) := by
  induction params generalizing index with
  | nil => exact neutral_pure
  | cons p rest ih =>
    rw [bindParameters_cons]
    exact triple_bind (neutral_declareVariable fun _ => neutral_emit (by decide)) fun _ => ih _

variable {f : FunctionDecl}

theorem functionFrame_labelled {body : List Stmt}
    (run : functionFrame f body s = .ok () s') (outside : s.loops = []) : ∃ inner : List Instr,
      s'.loops = [] ∧ s'.code = ⟨.ret, .none, []⟩ :: (inner ++ s.code) ∧
        Body s.labelCount 0 [] s'.labelCount inner := by
  have frame : Triple (Labelled ⟨s.code, s.labelCount⟩ [] 0 []) (functionFrame f body) fun _ t =>
      ∃ inner : List Instr, t.loops = [] ∧ t.code = ⟨.ret, .none, []⟩ :: (inner ++ s.code) ∧
        Body s.labelCount 0 [] t.labelCount inner := by
    refine triple_bind follows_enterScope.neutral fun _ => ?_
    refine triple_bind (neutral_emit (by decide)) fun _ => ?_
    refine triple_bind follows_enterScope.neutral fun _ => ?_
    refine triple_bind (neutral_bindParameters _ _ _) fun _ => ?_
    refine triple_bind (neutral_emit (by decide)) fun _ => ?_
    refine triple_bind (neutral_statements body nofun) fun _ => ?_
    refine triple_bind (neutral_emit (by decide)) fun _ => ?_
    refine triple_bind follows_exitScope.neutral fun _ => ?_
    refine triple_bind (neutral_emit (by decide)) fun _ => ?_
    rintro u _ v ⟨same, inner, code, hbody⟩ run
    simp only [bind_eq_ok, emit_eq_ok] at run
    obtain ⟨_, _, ⟨_, _, rfl⟩, exit⟩ := run
    obtain rfl := modify_eq_ok.1 exit
    exact ⟨inner, same, congrArg (List.cons _) code, hbody⟩
  exact frame s () s' (outside ▸ labelled_start s) run

theorem defineFunction_labelled {body : List Stmt} (outside : s.loops = [])
    (run : defineFunction f body s = .ok () s') :
    ∃ item, Appends s s' item ∧ LabelledItem (.define f body) item := by
  obtain ⟨-, -, t, u, -, start, frame, -, rfl⟩ := defineFunction_steps run
  obtain ⟨bytes, encodes, rfl⟩ := emit_eq_ok.1 start
  obtain ⟨inner, loops, code, hbody⟩ := functionFrame_labelled frame outside
  refine ⟨.function f.name :: (inner.reverse ++ [⟨.ret, .none, []⟩]), ⟨?_, hbody.since, ?_, ?_, ?_⟩,
    inner.reverse, rfl, hbody.resolved⟩
  · exact loops.trans outside.symm
  · show u.code.reverse = _
    rw [code]
    simp [State.push, Instr.function]
  · rw [Instr.introducedIn_cons_none rfl, introducedIn_append, introducedIn_reverse]
    exact hbody.balanced
  · refine forall_mem_cons.2 ⟨.of_introduces rfl, forall_mem_append.2 ⟨fun i mem => ?_, ?_⟩⟩
    · exact hbody.stocked i (mem_reverse.1 mem)
    · exact forall_mem_singleton.2 (.of_introduces rfl)

theorem topLevel_labelled {t : TopLevel} (outside : s.loops = []) (run : topLevel t s = .ok () s') :
    ∃ item, Appends s s' item ∧ LabelledItem t item := by
  match t with
  | .declare (.proto f) =>
    exact appends_of_quiet ((records_change directive_inert).declareFunction false trivial trivial) run
  | .declare (.var v) =>
    exact appends_of_quiet ((records_change directive_inert).globalVariable trivial trivial) run
  | .define f body =>
    obtain ⟨_, u, declare, define⟩ := bind_eq_ok.1 run
    have follows : Follows (Change quietLimits) (declareFunction f true) :=
      (records_change directive_inert).declareFunction true trivial trivial
    obtain ⟨added, declared, -⟩ := appends_of_quiet follows declare
    obtain rfl : added = [] := by
      obtain ⟨_, _, rfl⟩ := (declareFunction_links declare).same
      simpa using declared.code
    obtain ⟨item, defined, labelled⟩ := defineFunction_labelled (declared.loops.trans outside) define
    exact ⟨item, declared.trans defined, labelled⟩

theorem topLevels_labelled {ts : List TopLevel} (outside : s.loops = []) (run : ts.forM topLevel s = .ok () s') :
    ∃ items, Appends s s' items.flatten ∧ List.Forall₂ LabelledItem ts items := by
  induction ts generalizing s with
  | nil =>
    obtain ⟨_, rfl⟩ := pure_eq_ok.1 run
    exact ⟨[], .nil s, .nil⟩
  | cons t ts ih =>
    obtain ⟨_, u, first, rest⟩ := bind_eq_ok.1 run
    obtain ⟨item, appended, labelled⟩ := topLevel_labelled outside first
    obtain ⟨items, more, all⟩ := ih (appended.loops.trans outside) rest
    exact ⟨item :: items, appended.trans more, .cons labelled all⟩

theorem program_labelled {p : Program} (run : program p {} = .ok () s) :
    ∃ items, List.Forall₂ LabelledItem p items ∧ s.code.reverse = items.flatten ∧
      Instr.introducedIn items.flatten = issued 0 s.labelCount := by
  obtain ⟨u, _, items, -, rfl⟩ := program_steps run
  obtain ⟨parts, appended, labelled⟩ := topLevels_labelled rfl items
  exact ⟨parts, labelled, by simpa using appended.code, appended.balanced⟩

end Programs

end Lowering

end Cof
