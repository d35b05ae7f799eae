/-
  Variables are paid for in code.

  A variable is numbered for an instruction with the variable as its first operand: the one that writes it
  first, or the one that creates it.  So a program whose code fits in 32 bits does not run out of numbers,
  though the counter would wrap around silently.

  The instruction comes later than the number, and other variables may be numbered in between.  `Owes c`
  says that at most `c` variables are still to be paid for.  Code for an expression adds nothing to what is
  owed before it; inside of it, a debt is followed from where the variable is numbered to where it is written.
-/
import Cof.Proofs.Structured

namespace Cof

def Instr.pays : Instr → Bool
  | ⟨_, _, .var .. :: _⟩ => true
  | _ => false

namespace Lowering

variable {α β : Type} {c : Int}

/-! ## Debts -/

/-- At most so many more variables are numbered than there are instructions that pay for one. -/
def State.Owes (c : Int) (s : State) : Prop := (s.variableCount : Int) ≤ s.code.countP Instr.pays + c

def Pays (m : Lower α) : Prop := ∀ c, Triple (State.Owes c) m fun _ => State.Owes c

/-- The variables that are numbered while a piece of code is made are paid for in it. -/
def Paid (s s' : State) (part : List Instr) : Prop := s'.variableCount ≤ s.variableCount + part.countP Instr.pays

variable {m : Lower α} {type : CType} {Q : α → State → Prop}

theorem Pays.paid {a : α} {s s' : State} {part : List Instr} (h : Pays m) (run : m s = .ok a s')
    (code : s'.code.reverse = s.code.reverse ++ part) : Paid s s' part := by
  have owes := h (s.variableCount - s.code.countP Instr.pays) s a s' (by unfold State.Owes; omega) run
  have counted := congrArg (List.countP Instr.pays) code
  rw [List.countP_append, List.countP_reverse, List.countP_reverse] at counted
  unfold State.Owes at owes
  unfold Paid
  omega

theorem Paid.trans {s t s' : State} {part part' : List Instr} (h : Paid s t part) (h' : Paid t s' part') :
    Paid s s' (part ++ part') := by
  unfold Paid at h h' ⊢
  rw [List.countP_append]
  omega

theorem pays_unseen
    (h : ∀ s a s', m s = .ok a s' → s'.code = s.code ∧ s'.variableCount = s.variableCount) : Pays m := by
  intro c s a s' owes run
  obtain ⟨code, count⟩ := h s a s' run
  unfold State.Owes
  rw [code, count]
  exact owes

theorem pays_pure (a : α) : Pays (pure a) := fun _ => triple_pure fun _ owes => owes

theorem pays_bind {f : α → Lower β} (hm : Pays m) (hf : ∀ a, Pays (f a)) : Pays (m >>= f) :=
  fun c => triple_bind (hm c) fun a => hf a c

theorem pays_get : Pays (get : Lower State) := by
  refine pays_unseen fun s a s' run => ?_
  obtain ⟨_, rfl⟩ := get_eq_ok.1 run
  exact ⟨rfl, rfl⟩

theorem pays_noteType (loc : Location) (type : CType) : Pays (noteType loc type) := by
  refine pays_unseen fun s a s' run => ?_
  obtain rfl := noteType_eq_ok.1 run
  exact ⟨rfl, rfl⟩

theorem pays_freshLabel : Pays freshLabel := by
  refine pays_unseen fun s a s' run => ?_
  obtain ⟨_, rfl⟩ := freshLabel_eq_ok.1 run
  exact ⟨rfl, rfl⟩

theorem pays_emit (opcode : Opcode) (qualifier : Qualifier) (operands : List Operand) :
    Pays (emit opcode qualifier operands) := by
  intro c s u s' owes run
  obtain ⟨bytes, _, rfl⟩ := emit_eq_ok.1 run
  have more : s.code.countP Instr.pays ≤ (⟨opcode, qualifier, operands⟩ :: s.code).countP Instr.pays :=
    (List.sublist_cons_self ..).countP_le
  unfold State.Owes at owes ⊢
  show (s.variableCount : Int) ≤ _
  simp only [State.push]
  omega

theorem triple_write (opcode : Opcode) (qualifier : Qualifier) (enc : Encoding) (id : UInt32)
    (operands : List Operand) :
    Triple (State.Owes (c + 1)) (emit opcode qualifier (.var enc id :: operands)) fun _ => State.Owes c := by
  intro s u s' owes run
  obtain ⟨bytes, _, rfl⟩ := emit_eq_ok.1 run
  unfold State.Owes at owes ⊢
  show (s.variableCount : Int) ≤ (⟨opcode, qualifier, .var enc id :: operands⟩ :: s.code).countP Instr.pays + c
  rw [List.countP_cons_of_pos rfl]
  omega

theorem triple_temporary {f : Operand → Lower α} (h : ∀ id, Triple (State.Owes (c + 1)) (f (.var type.encoding id)) Q) :
    Triple (State.Owes c) (temporary type >>= f) Q := by
  intro s a s' owes run
  obtain ⟨o, t, numbered, run⟩ := bind_eq_ok.1 run
  obtain ⟨rfl, rfl⟩ := temporary_eq_ok.1 numbered
  refine h _ _ a s' ?_ run
  unfold State.Owes at owes ⊢
  show ((s.variableCount + 1 : Nat) : Int) ≤ _
  simp only
  omega

/-! ## Expressions -/

theorem pays_compute (opcode : Opcode) (qualifier : Qualifier) (type : CType) (operands : List Operand) :
    Pays (compute opcode qualifier type operands) := fun _ =>
  triple_temporary fun _ => triple_bind (triple_write _ _ _ _ _) fun _ => pays_pure _ _

theorem pays_namedPlace (loc : Location) (name : Name) : Pays (namedPlace loc name) := by
  refine pays_unseen fun s p s' run => ?_
  obtain ⟨_, _, _, rfl⟩ := namedPlace_eq_ok.1 run
  exact ⟨rfl, rfl⟩

theorem pays_inferred (e : Expr) : Pays (inferred e) := by
  refine pays_unseen fun s type s' run => ?_
  obtain ⟨_, rfl⟩ := inferred_eq_ok.1 run
  exact ⟨rfl, rfl⟩

theorem pays_resolveCallee (callee : Expr) (loc : Location) : Pays (resolveCallee callee loc) := by
  refine pays_unseen fun s f s' run => ?_
  obtain ⟨_, _, _, _, _, rfl⟩ := resolveCallee_eq_ok run
  exact ⟨rfl, rfl⟩

theorem congruence_pays : Congruence .identity fun m _ => Pays m where
  pure _ := pays_pure _
  fail _ _ _ := triple_fail
  bind first rest c s b s' owes run := by
    obtain ⟨a, t, ran, run⟩ := bind_eq_ok.1 run
    exact rest s a t ran c t b s' (first c s a t owes ran) run
  noteType := pays_noteType
  emit _ _ := pays_emit _ _ _
  compute _ _ _ := pays_compute _ _ _ _
  namedPlace := pays_namedPlace
  resolveCallee := pays_resolveCallee
  inferred := pays_inferred

theorem pays_leaveIf (exit : Qualifier) (v : Value) (label : Int32) : Pays (leaveIf exit v label) :=
  pays_bind (pays_emit _ _ _) fun _ => pays_emit _ _ _

theorem pays_logicalResult (short full : UInt64) (shortLabel endLabel : Int32) :
    Pays (logicalResult short full shortLabel endLabel) := by
  refine fun c => triple_temporary fun id => triple_bind (triple_write _ _ _ _ _) fun _ => ?_
  refine triple_bind (pays_emit _ _ _ c) fun _ => triple_bind (pays_emit _ _ _ c) fun _ => ?_
  exact triple_bind (pays_emit _ _ _ c) fun _ => triple_bind (pays_emit _ _ _ c) fun _ => pays_pure _ c

/-- `c ? x : y` has a variable for its value, which the first branch writes, or it has no value. -/
theorem triple_branchTarget {f : Option Operand → Lower α} (none : Triple (State.Owes c) (f none) Q)
    (some : ∀ id, Triple (State.Owes (c + 1)) (f (some (.var type.encoding id))) Q) :
    Triple (State.Owes c) (branchTarget type >>= f) Q := by
  rw [branchTarget_bind]
  split
  · exact none
  · exact triple_temporary some

theorem flowCongruence_pays : FlowCongruence .identity fun m _ => Pays m where
  toTracking := congruence_pays
  stringConstant _ _ :=
    pays_bind pays_freshLabel fun _ => pays_bind (pays_emit _ _ _) fun _ => pays_compute _ _ _ _
  truthOf signedness condition _ _ := by
    refine pays_bind pays_freshLabel fun onFalse => pays_bind pays_freshLabel fun done => ?_
    refine pays_bind (pays_emit _ _ _) fun _ => pays_bind (pays_emit _ _ _) fun _ => ?_
    exact pays_logicalResult 0 1 onFalse done
  logical op loc leftLoc rightLoc left _ right _ hl hr := by
    refine pays_bind (hl []) fun l => pays_bind (congruence_pays.requireScalar _ _ leftLoc) fun _ => ?_
    refine pays_bind pays_freshLabel fun shortLabel => pays_bind (pays_leaveIf _ _ _) fun _ => ?_
    refine pays_bind (hr []) fun r => pays_bind (congruence_pays.requireScalar _ _ rightLoc) fun _ => ?_
    refine pays_bind pays_freshLabel fun endLabel => pays_bind (pays_leaveIf _ _ _) fun _ => ?_
    exact pays_bind (pays_logicalResult _ _ _ _) fun _ => congruence_pays.noted loc _
  branches v type loc yesLoc noLoc yes _ no _ _ hy hn c := by
    refine triple_bind (pays_freshLabel c) fun elseLabel => triple_bind (pays_freshLabel c) fun endLabel => ?_
    refine triple_bind (pays_emit _ _ _ c) fun _ => triple_bind (pays_emit _ _ _ c) fun _ => ?_
    -- Behind the first branch the variable for the value is paid for, if there is one.
    have tail : ∀ target, Pays (do
        jump endLabel
        defineLabel elseLabel
        let n ← no
        deliver target n type noLoc
        defineLabel endLabel
        branchResult loc target type) := by
      intro target
      refine pays_bind (pays_emit _ _ _) fun _ => pays_bind (pays_emit _ _ _) fun _ => pays_bind (hn []) fun n => ?_
      refine pays_bind (congruence_pays.deliver _ _ _ noLoc) fun _ => pays_bind (pays_emit _ _ _) fun _ => ?_
      exact congruence_pays.branchResult loc target type
    refine triple_branchTarget (triple_bind (hy [] c) fun y => ?_) fun id => triple_bind (hy [] _) fun y => ?_
    · exact triple_bind (congruence_pays.deliver _ _ _ yesLoc c) fun _ => tail none c
    · refine triple_bind (triple_bind (congruence_pays.convertAssigned _ _ yesLoc _) fun _ => ?_) fun _ => tail _ c
      exact triple_write _ _ _ _ _

theorem pays_value (e : Expr) : Pays (value e) := flowCongruence_pays.value e []

theorem pays_discard (e : Expr) : Pays (discard (value e)) := fun c => triple_map (pays_value e c)

theorem pays_conditionValue (e : Expr) : Pays (conditionValue e) := flowCongruence_pays.conditionValue e []

theorem pays_forStep (step : Option Expr) : Pays (forStep step) := by
  cases step with
  | none => exact pays_pure _
  | some step => exact pays_discard step

theorem pays_returnStatement (value? : Option Expr) (loc : Location) : Pays (returnStatement value? loc) :=
  pays_bind pays_get fun s => flowCongruence_pays.returnAs value? loc s.returnType []

end Lowering

end Cof
