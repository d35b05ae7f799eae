/-
  In compiled code, a temporary is written before it is read, whichever way is taken.

  Between statements nothing is held: a statement starts from declared variables only, and every label of
  a statement promises nothing.  So the rules for expressions carry over to statements, with three things
  to add.  A declared variable is created before anything can name it.  The labels of a loop are promised
  nothing, so `break` and `continue` may go there from anywhere.  And scopes that are closed do not matter:
  the names that can be seen are bound to variables that the function created.
-/
import Cof.Proofs.Compiled
import Cof.Proofs.ExpressionTracking
import Cof.Proofs.Temporaries

namespace Cof

open List

namespace Lowering

/-! ## Steps of statements -/

section Steps

variable {α β : Type} {C : Context} {held : List Operand}

theorem Leaves.drop {m : Lower α} {out less : α → List Operand} (h : Leaves C held m out)
    (sub : ∀ a, less a ⊆ out a) : Leaves C held m less := by
  intro s a s' ready run
  obtain ⟨promise, body, part⟩ := h s a s' ready run
  exact ⟨promise, body, part.weaken (hasAll_of_subset (sub a))⟩

theorem ready_get : Leaves C held (get : Lower State) fun _ => held := by
  refine ready_unseen fun s t s' run => ?_
  obtain ⟨_, rfl⟩ := get_eq_ok.1 run
  exact ⟨rfl, rfl, rfl, rfl, rfl⟩

/-! ## Scopes -/

theorem ready_enterScope : Leaves C held enterScope fun _ => held := by
  rintro s u s' ⟨promise, body, part⟩ run
  obtain rfl := modify_eq_ok.1 run
  refine ⟨promise, body, { part with made := part.made.perform .enter, used := part.used, slots := ?_, sight := ?_ }⟩
  · exact fun id sees => part.slots id (part.made.sees_enter.1 sees)
  · exact fun id sees => part.sight id (part.made.sees_enter.1 sees)

theorem ready_exitScope : Leaves C held exitScope fun _ => held := by
  rintro s u s' ⟨promise, body, part⟩ run
  obtain rfl := modify_eq_ok.1 run
  have used : State.Numbered { s with scopes := s.scopes.exit } := by
    unfold State.Numbered State.Uses
    simp only [s.scopes.exit_log]
    exact part.used
  refine ⟨promise, body, { part with made := part.made.perform .exit, used := used, slots := ?_, sight := ?_ }⟩
  · exact fun id sees => part.slots id sees.of_exit
  · exact fun id sees => part.sight id sees.of_exit

theorem Part.bind {promise : Nat → List Operand} {body : List Instr} {s : State}
    (h : Part C held promise body s) {name : Name} {type : CType} {storage : Storage}
    (free : s.scopes.lookupCurrent name = none)
    (there : ∀ id, storage = .slot id → id ∈ Instr.createdIn body ∪ C.given ∧ id ∈ C.known s.variableCount) :
    Part C held promise body { s with scopes := s.scopes.bind ⟨name, type, s.scopes.depth, storage⟩ } := by
  have used : State.Numbered { s with scopes := s.scopes.bind ⟨name, type, s.scopes.depth, storage⟩ } := by
    rintro id (named | ⟨e, listed, slot⟩)
    · exact h.used id (.inl named)
    · rcases mem_cons.1 listed with rfl | listed
      · exact h.of_known (there id slot).2
      · exact h.used id (.inr ⟨e, listed, slot⟩)
  refine { h with made := (Scopes.Varies.bind free).made h.made, used := used, slots := ?_, sight := ?_ }
  · exact fun id sees => ((Scopes.sees_bind free).1 sees).elim (h.slots id) fun slot => (there id slot).1
  · exact fun id sees => ((Scopes.sees_bind free).1 sees).elim (h.sight id) fun slot => (there id slot).2

variable {promise : Nat → List Operand} {body : List Instr} {s : State}

theorem Linking.part {s' : State} {g : Global}
    (linked : Linking g s s') (h : Part C held promise body s) : Part C held promise body s' := by
  have links := linked.scopes
  obtain ⟨globals, scopes, rfl⟩ := linked.same
  cases links with
  | bound free => exact (h.bind free fun id slot => by cases slot).transfer rfl rfl rfl rfl rfl
  | present => exact h.transfer rfl rfl rfl rfl rfl

theorem Part.create (h : Part C held promise body s) {id : UInt32} (type : CType) (bytes : Bytes)
    (numbered : id ∈ C.known s.variableCount) : Part C (.var type.encoding id :: held) promise
      (⟨.var, .none, [.var type.encoding id, .size type.size]⟩ :: body)
      (s.push ⟨.var, .none, [.var type.encoding id, .size type.size]⟩ bytes) := by
  have target : C.Knows s.variableCount (.var type.encoding id) := by
    intro id' names
    cases names
    exact numbered
  have size : C.Knows s.variableCount (.size type.size) := Context.knows_none rfl
  have operands := forall_mem_cons.2 ⟨target, forall_mem_singleton.2 size⟩
  have stays : ∀ o ∈ held, C.Knows s.variableCount o := fun o mem =>
    h.numbered o (mem_append_right _ mem)
  have nothing : Instr.reads ⟨.var, .none, [.var type.encoding id, .size type.size]⟩ = [] := rfl
  refine (h.push operands stays fun Λ honours =>
    (h.certified Λ honours).fall rfl rfl (nothing ▸ forall_mem_nil _)).hold (fun id' names => ?_) target
  cases names
  exact .inl ⟨_, mem_cons_self .., rfl⟩

theorem ready_declareVariable {name : Name} {type : CType} {loc : Location} {fill : Operand → Lower Unit}
    (rest : ∀ target, Leaves C (target :: held) (fill target) fun _ => held) :
    Leaves C held (declareVariable name type loc fill) fun _ => held := by
  rintro s b s' ⟨promise, body, part⟩ run
  obtain ⟨free, t, run, created⟩ := declareVariable_steps run
  obtain ⟨bytes, _, rfl⟩ := emit_eq_ok.1 created
  -- The name is bound before the variable is created, but nothing happens in between.
  have next := (part.freshVariable [] (forall_mem_nil _)).forgetNumbers
  have known : UInt32.ofNat s.variableCount ∈ C.known (s.variableCount + 1) :=
    .inr ⟨s.variableCount, part.early, Nat.lt_succ_self _, rfl⟩
  have made := next.create type bytes known
  refine rest _ _ b s' ⟨promise, _, made.bind free fun id' slot => ?_⟩ run
  cases slot
  exact ⟨.inl ⟨_, mem_cons_self .., rfl⟩, known⟩

end Steps

/-! ## Declarations -/

section Declarations

variable {C : Context} {held : List Operand}

theorem ready_directive {qualifier : Qualifier} {operands : List Operand} (other : qualifier ≠ .label)
    (none : ∀ o ∈ operands, o.id? = none) : Leaves C held (emit .sym qualifier operands) fun _ => held := by
  refine ready_fall ?_ rfl fun o mem => .inr (none o mem)
  simp [Instr.definedLabel?, other]

theorem ready_defineObject (name : Name) (v : VarDecl) (isStatic : Bool) :
    Leaves C held (defineObject name v isStatic) fun _ => held := by
  intro s u s' ready run
  obtain ⟨first, start, bytes, initial, -, encodes, rfl⟩ := defineObject_steps run
  have constant : ∀ o ∈ first, o.id? = none := by
    rcases (initialValue_eq_ok initial).2 with ⟨-, rfl⟩ | ⟨_, _, -, -, rfl⟩
    · exact forall_mem_nil _
    · exact forall_mem_singleton.2 rfl
  have other : (if isStatic then Qualifier.static else .global) ≠ .label := by cases isStatic <;> decide
  obtain ⟨promise, body, part⟩ := ready_directive other
    (forall_mem_cons.2 ⟨rfl, forall_mem_cons.2 ⟨rfl, constant⟩⟩) s () _ ready
    (emit_eq_ok.2 ⟨bytes, encodes, rfl⟩)
  exact ⟨promise, body, part.transfer rfl rfl rfl rfl rfl⟩

theorem ready_fillVariable (v : VarDecl) (target : Operand) :
    Leaves C (target :: held) (fillVariable v target) fun _ => held := by
  have fills := flowTracking_ready.fillVariable v target (target :: held) (.inl mem_cons_self) C
  exact Leaves.drop fills fun _ => subset_cons_self _ _

theorem ready_takeArgument (index : Nat) (target : Operand) :
    Leaves C (target :: held) (takeArgument index target) fun _ => held := by
  have known : HasAll (target :: held) [.size (UInt64.ofNat index), target] :=
    hasAll_cons (.inr rfl) (hasAll_cons (.inl mem_cons_self) hasAll_nil)
  exact (ready_emit (by decide) known).drop fun _ => subset_cons_self _ _

theorem declaring_ready : Declaring .unit (fun _ => True) fun _ s s' => Ready C held s → Ready C held s' where
  refl _ ready := ready
  trans first second ready := second (first ready)
  linking linked := by
    rintro ⟨promise, body, part⟩
    exact ⟨promise, body, linked.part part⟩
  bound _ _ _ free := by
    rintro ⟨promise, body, part⟩
    exact ⟨promise, body, (part.bind free fun id slot => by cases slot).transfer rfl rfl rfl rfl rfl⟩
  announced run ready := ready_directive (by decide) (forall_mem_singleton.2 rfl) _ () _ ready run
  defined run ready := ready_defineObject _ _ _ _ () _ ready run
  filled _ run ready := ready_declareVariable (ready_fillVariable _) _ () _ ready run
  taken _ run ready := ready_declareVariable (ready_takeArgument _) _ () _ ready run

theorem ready_declareFunction (f : FunctionDecl) (isDefinition : Bool) :
    Leaves C held (declareFunction f isDefinition) fun _ => held :=
  fun _ _ _ ready run => declaring_ready.linking (declareFunction_links run) ready

theorem ready_localDeclaration (d : Declaration) : Leaves C held (localDeclaration d) fun _ => held :=
  fun _ _ _ ready run => declaring_ready.localDeclaration run ready

end Declarations

/-! ## Statements -/

section Statements

variable {C : Context}

theorem ready_discard (e : Expr) : Leaves C [] (discard (value e)) fun _ => [] :=
  triple_map ((yields_value e).drop fun _ => nil_subset _)

theorem yields_conditionValue (e : Expr) : Yields C [] (conditionValue e) := flowTracking_ready.conditionValue e [] C

variable {l : Int32} {m : Lower Unit}

theorem ready_branchOut {held : List Operand} (condition : Qualifier)
    (known : (l, []) ∈ C.promised) : Leaves C held (branch condition l) fun _ => [] :=
  (ready_branch condition known (nil_subset _)).drop fun _ => nil_subset _

theorem ready_branchOn (condition : Qualifier) (e : Expr) (known : (l, []) ∈ C.promised) :
    Leaves C [] (branchOn condition e l) fun _ => [] := by
  refine triple_bind (yields_conditionValue e) fun v => ?_
  exact triple_bind (ready_compareZero (has_operand v [])) fun _ => ready_branchOut condition known

theorem ready_returnStatement (value? : Option Expr) (loc : Location) :
    Leaves C [] (returnStatement value? loc) fun _ => [] :=
  triple_bind ready_get fun s => flowTracking_ready.returnAs value? loc s.returnType [] C

theorem ready_forTest (cond : Option Expr) (known : (l, []) ∈ C.promised) :
    Leaves C [] (forTest cond l) fun _ => [] := by
  cases cond with
  | none => exact ready_pure hasAll_nil
  | some cond => exact ready_branchOn .eq cond known

theorem ready_forStep (step : Option Expr) : Leaves C [] (forStep step) fun _ => [] := by
  cases step with
  | none => exact ready_pure hasAll_nil
  | some step => exact ready_discard step

theorem ready_round (round : Round) (known : (l, []) ∈ C.promised) : Leaves C [] (round.code l) fun _ => [] := by
  cases round with
  | test cond => exact ready_branchOn .ne cond known
  | step e => exact triple_bind (ready_forStep e) fun _ => ready_jump known (nil_subset _)

/-- Inside of a loop its labels may be gone to from anywhere, since they promise nothing. -/
theorem ready_inLoop {α : Type} {m : Lower α} {labels : LoopLabels} {out : α → List Operand}
    (next : (labels.onContinue, []) ∈ C.promised) (done : (labels.onBreak, []) ∈ C.promised)
    (h : Leaves C [] m out) : Leaves C [] (inLoop labels m) out := by
  rintro s a s' ⟨promise, body, part⟩ run
  have nothing : Operand.ids [] ⊆ C.given := by
    rintro id ⟨o, mem, _⟩
    cases mem
  have inside : Part C [] promise body (s.inside labels) := by
    refine { part with used := part.used, loops := fun Λ honours => ?_ }
    refine forall_mem_cons.2 ⟨?_, part.loops Λ honours⟩
    rw [part.stands honours next, part.stands honours done]
    exact ⟨nothing, nothing⟩
  obtain ⟨t, ran, rfl⟩ := inLoop_eq_ok.1 run
  obtain ⟨promise', body', part'⟩ := h _ a t ⟨promise, body, inside⟩ ran
  refine ⟨promise', body', { part' with used := part'.used, loops := fun Λ honours labels' mem => ?_ }⟩
  exact part'.loops Λ honours labels' (mem_of_mem_tail mem)

theorem ready_leave {target : LoopLabels → Int32}
    (given : ∀ {Λ : Int32 → Set UInt32} {labels : LoopLabels},
      Λ labels.onContinue ⊆ C.given ∧ Λ labels.onBreak ⊆ C.given → Λ (target labels) ⊆ C.given)
    (what : Unsupported) (loc : Location) : Leaves C [] (leaveLoop target what loc) fun _ => [] := by
  rintro s u s' ⟨promise, body, part⟩ run
  obtain ⟨_, _, got, run⟩ := bind_eq_ok.1 run
  obtain ⟨rfl, rfl⟩ := get_eq_ok.1 got
  cases loops : s.loops with
  | nil =>
    rw [loops] at run
    exact (unsupported_eq_ok.1 run).elim
  | cons labels rest =>
    rw [loops] at run
    obtain ⟨bytes, _, rfl⟩ := emit_eq_ok.1 run
    have operands : ∀ o ∈ [Operand.label (target labels)], C.Knows s.variableCount o :=
      forall_mem_singleton.2 (Context.knows_none rfl)
    refine ⟨promise, _, part.push operands (forall_mem_nil _) fun Λ honours => ?_⟩
    have there := given (part.loops Λ honours labels (loops ▸ mem_cons_self ..))
    refine (part.certified Λ honours).push rfl ⟨forall_mem_nil _, fun l goes => ?_, nofun⟩
    obtain rfl : l = target labels := mem_singleton.1 goes
    exact there.trans (Set.subset_union_right.trans Set.subset_union_right)

theorem ready_inScope (h : Leaves C [] m fun _ => []) : Leaves C [] (inScope m) fun _ => [] :=
  triple_bind ready_enterScope fun _ => triple_bind h fun _ => ready_exitScope

theorem ready_bracketed (h : Leaves C [] m fun _ => []) : Leaves C [] (bracketed m) fun _ => [] :=
  triple_bind (ready_emit (by decide) hasAll_nil) fun _ =>
    triple_bind h fun _ => ready_emit (by decide) hasAll_nil

theorem ready_define (known : (l, []) ∈ C.promised) : Leaves C [] (defineLabel l) fun _ => [] :=
  ready_defineLabel known (nil_subset _)

theorem ready_choice (cond : Expr) {yes no : Lower Unit} (hy : ∀ C, Leaves C [] yes fun _ => [])
    (hn : ∀ C, Leaves C [] no fun _ => []) : Leaves C [] (choiceCode cond yes no) fun _ => [] := by
  refine triple_bind (yields_conditionValue cond) fun c => ?_
  refine ready_freshLabel [] fun elseLabel => ready_freshLabel [] fun endLabel => ?_
  have onElse : (elseLabel, []) ∈ (endLabel, []) :: (elseLabel, []) :: C.promised :=
    mem_cons_of_mem _ mem_cons_self
  refine triple_bind (ready_compareZero (has_operand c [])) fun _ => ?_
  refine triple_bind (ready_branchOut .eq onElse) fun _ => triple_bind (hy _) fun _ => ?_
  refine triple_bind (ready_jump mem_cons_self (nil_subset _)) fun _ => ?_
  refine triple_bind (ready_define onElse) fun _ => ?_
  exact triple_bind (hn _) fun _ => ready_define mem_cons_self

theorem ready_whileLoop (cond : Expr) {body : Lower Unit} (hb : ∀ C, Leaves C [] body fun _ => []) :
    Leaves C [] (whileCode cond body) fun _ => [] := by
  refine ready_freshLabel [] fun start => ready_freshLabel [] fun done => ?_
  have again : (start, []) ∈ (done, []) :: (start, []) :: C.promised := mem_cons_of_mem _ mem_cons_self
  refine triple_bind (ready_define again) fun _ => ?_
  refine triple_bind (ready_branchOn .eq cond mem_cons_self) fun _ => ?_
  refine triple_bind (ready_inLoop again mem_cons_self (hb _)) fun _ => ?_
  refine triple_bind (ready_jump again (nil_subset _)) fun _ => ?_
  exact ready_define mem_cons_self

theorem ready_loop (cond : Option Expr) (round : Round) {body : Lower Unit} (hb : ∀ C, Leaves C [] body fun _ => []) :
    Leaves C [] (loopCode cond body round) fun _ => [] := by
  refine ready_freshLabel [] fun start => ready_freshLabel [] fun next => ready_freshLabel [] fun done => ?_
  have onward : (next, []) ∈ (done, []) :: (next, []) :: (start, []) :: C.promised :=
    mem_cons_of_mem _ mem_cons_self
  have again : (start, []) ∈ (done, []) :: (next, []) :: (start, []) :: C.promised :=
    mem_cons_of_mem _ (mem_cons_of_mem _ mem_cons_self)
  refine triple_bind (ready_define again) fun _ => ?_
  refine triple_bind (ready_forTest cond mem_cons_self) fun _ => ?_
  refine triple_bind (ready_inLoop onward mem_cons_self (hb _)) fun _ => ?_
  refine triple_bind (ready_define onward) fun _ => triple_bind (ready_round round again) fun _ => ?_
  exact ready_define mem_cons_self

theorem structured_ready :
    Structured .identity (fun _ => True) .unit fun _ m _ => ∀ C, Leaves C [] m fun _ => [] where
  done _ := ready_pure hasAll_nil
  evaluation e _ := ready_discard e
  declaration _ _ := ready_localDeclaration _
  returning e loc _ := ready_returnStatement e loc
  onBreak loc _ := ready_leave (fun h => h.2) _ loc
  onContinue loc _ := ready_leave (fun h => h.1) _ loc
  scope inner _ := ready_inScope (ready_bracketed (inner _))
  andThen first second _ := triple_bind (first _) fun _ => second _
  choice cond _ _ _ _ _ _ yes no _ := ready_choice cond yes no
  whileLoop cond _ _ _ body _ := ready_whileLoop cond body
  loop cond round _ _ _ body _ := ready_loop cond round body

theorem ready_statement (st : Stmt) : Leaves C [] (statement st) fun _ => [] :=
  structured_ready.statement Grading.grades_unit st (fun _ _ => trivial) C

theorem ready_statements (body : List Stmt) : Leaves C [] (statements body) fun _ => [] :=
  structured_ready.statements Grading.grades_unit body (fun _ _ => trivial) C

end Statements

/-! ## Pieces of file scope -/

section Pieces

variable {C : Context}

theorem ready_bindParameters (loc : Location) (index : Nat) (params : List Param) :
    Leaves C [] (bindParameters loc index params) fun _ => [] :=
  fun _ _ _ ready run => declaring_ready.bindParameters (fun _ _ => trivial) run ready

theorem ready_functionFrame (f : FunctionDecl) (body : List Stmt) : Leaves C [] (functionFrame f body) fun _ => [] := by
  have plain : ∀ opcode : Opcode, opcode ≠ .sym ∧ opcode ≠ .jmp ∧ opcode ≠ .br →
      Leaves C [] (emit opcode .none []) fun _ => [] := fun _ falls => ready_emit falls hasAll_nil
  rw [functionFrame_eq]
  refine ready_inScope (triple_bind (plain .prologue (by decide)) fun _ => ?_)
  refine triple_bind (ready_inScope (triple_bind (ready_bindParameters _ _ _) fun _ =>
    ready_bracketed (ready_statements body))) fun _ => ?_
  exact triple_bind (plain .epilogue (by decide)) fun _ => plain .ret (by decide)

theorem filing_ready : Filing .unit (fun _ => True) fun _ s s' => Ready C [] s → Ready C [] s' where
  toDeclaring := declaring_ready
  directive run ready := ready_directive (by decide) (forall_mem_singleton.2 rfl) _ () _ ready run
  resembles same := by
    rintro ⟨promise, body, part⟩
    exact ⟨promise, body, part.transfer same.code same.scopes same.counted same.labels same.loops⟩
  framed _ run ready := ready_functionFrame _ _ _ () _ ready run

theorem ready_topLevel (t : TopLevel) : Leaves C [] (topLevel t) fun _ => [] :=
  fun _ _ _ ready run => filing_ready.topLevel (fun _ _ _ _ _ => trivial) run ready

end Pieces

/-! ## Numbers in use -/

/-- The steps that lowering a program is made of. -/
inductive Piece : ∀ {α : Type}, Lower α → Prop
  | topLevel (t : TopLevel) : Piece (topLevel t)
  | declareFunction (f : FunctionDecl) (isDefinition : Bool) : Piece (declareFunction f isDefinition)
  | bindParameters (loc : Location) (index : Nat) (params : List Param) :
    Piece (bindParameters loc index params)
  | localDeclaration (d : Declaration) : Piece (localDeclaration d)
  | statement (st : Stmt) : Piece (statement st)
  | value (e : Expr) : Piece (value e)
  | place (e : Expr) : Piece (place e)
  | enterScope : Piece enterScope
  | exitScope : Piece exitScope

theorem Piece.ready {C : Context} {α : Type} {m : Lower α} (h : Piece m) : Leaves C [] m fun _ => [] := by
  cases h with
  | topLevel t => exact ready_topLevel t
  | declareFunction f isDefinition => exact ready_declareFunction f isDefinition
  | bindParameters loc index params => exact ready_bindParameters loc index params
  | localDeclaration d => exact ready_localDeclaration d
  | statement st => exact ready_statement st
  | value e => exact (yields_value e).drop fun _ => nil_subset _
  | place e => exact (ready_place e).drop fun _ => nil_subset _
  | enterScope => exact ready_enterScope
  | exitScope => exact ready_exitScope

/-- States that are gone through while programs are lowered.  Between the larger steps, variables and
labels are numbered, instructions that name numbered variables are added, and other things change. -/
inductive Visited : State → Prop
  | start : Visited {}
  | piece {α : Type} {m : Lower α} {a : α} {s s' : State} (before : Visited s) (part : Piece m)
    (run : m s = .ok a s') : Visited s'
  | push {s : State} (before : Visited s) {i : Instr} (bytes : Bytes)
    (known : ∀ o ∈ i.operands, o.Numbered s.variableCount) : Visited (s.push i bytes)
  | other {s s' : State} (before : Visited s) (code : s'.code = s.code) (scopes : s'.scopes = s.scopes)
    (counted : s.variableCount ≤ s'.variableCount) : Visited s'

/-- Code that begins in a state, with some variables that are there without being created. -/
def State.context (s : State) (given : Set UInt32) : Context :=
  ⟨s.code, s.labelCount, given, [], [], s.variableCount, {id | s.scopes.Sees id}⟩

variable {s s' : State} {t : TopLevel}

theorem State.Numbered.of_sees (h : s.Numbered) {id : UInt32} (sees : s.scopes.Sees id) :
    ∃ k < s.variableCount, id = UInt32.ofNat k := by
  obtain ⟨scope, _, name, symbol, bound, slot⟩ := sees
  obtain ⟨e, found, rfl⟩ := Option.map_eq_some_iff.1 bound
  exact h id (.inr ⟨e, mem_of_find?_eq_some found, slot⟩)

/-- If any variable may be there, every state with well made scopes is ready for more code, and what is
in sight may be held. -/
theorem Part.anywhere {held : List Operand} (made : s.scopes.Made) (used : s.Numbered)
    (known : ∀ o ∈ held, ∀ id, o.id? = some id → s.scopes.Sees id) :
    Part (s.context .univ) held (fun _ => []) [] s where
  code := rfl
  since := Nat.le_refl _
  made := made
  used := used
  early := Nat.le_refl _
  seen _ := used.of_sees
  named := forall_mem_nil _
  numbered o mem id names := .inl (known o mem id names)
  promised _ _ known := by cases known
  slots _ _ := .inr trivial
  sight _ sees := .inl sees
  certified _ _ := ⟨trivial, fun _ _ => .inr (.inr trivial)⟩
  loops _ _ _ _ := ⟨Set.subset_univ _, Set.subset_univ _⟩

theorem Visited.numbered (h : Visited s) : s.scopes.Made ∧ s.Numbered := by
  induction h with
  | start => exact ⟨Scopes.made_empty, numbered_empty⟩
  | piece before part run ih =>
    -- The rules apply in the middle of a program too, if any variable may be there already.
    obtain ⟨promise, body, ready⟩ := part.ready _ _ _ ⟨_, _, Part.anywhere ih.1 ih.2 (forall_mem_nil _)⟩ run
    exact ⟨ready.made, ready.used⟩
  | push before bytes known ih =>
    refine ⟨ih.1, ?_⟩
    rintro id (⟨j, mem, o, named, names⟩ | bound)
    · rcases mem_cons.1 mem with rfl | mem
      · exact known o named id names
      · exact ih.2 id (.inl ⟨j, mem, o, named, names⟩)
    · exact ih.2 id (.inr bound)
  | other before code scopes counted ih =>
    refine ⟨scopes ▸ ih.1, fun id uses => ?_⟩
    unfold State.Uses at uses
    rw [code, scopes] at uses
    obtain ⟨k, small, same⟩ := ih.2 id uses
    exact ⟨k, Nat.lt_of_lt_of_le small counted, same⟩

theorem State.Numbered.not_uses (h : s.Numbered) {k : Nat} (later : s.variableCount ≤ k)
    (small : k < 2 ^ 32) : ¬ s.Uses (.ofNat k) := by
  intro uses
  obtain ⟨k', before, same⟩ := h _ uses
  have small' : k' < 2 ^ 32 := by omega
  have equal : k = k' := by
    have numbers := congrArg UInt32.toNat same
    rwa [UInt32.toNat_ofNat_of_lt' small, UInt32.toNat_ofNat_of_lt' small'] at numbers
  omega

/-! ## Programs -/

/-- Nothing of a function is there: no loop is open, and no name in sight stands for a variable. -/
structure Outside (s : State) : Prop where
  made : s.scopes.Made
  used : s.Numbered
  loops : s.loops = []
  slots : ∀ id, ¬ s.scopes.Sees id

theorem outside_empty : Outside {} := by
  refine ⟨Scopes.made_empty, numbered_empty, rfl, ?_⟩
  rintro id ⟨_, _, _, _, bound, _⟩
  cases bound

theorem Outside.part (h : Outside s) : Part (s.context ∅) [] (fun _ => []) [] s where
  code := rfl
  since := Nat.le_refl _
  made := h.made
  used := h.used
  early := Nat.le_refl _
  seen _ := h.used.of_sees
  named := forall_mem_nil _
  numbered := forall_mem_nil _
  promised _ _ known := by cases known
  slots id sees := absurd sees (h.slots id)
  sight _ sees := .inl sees
  certified _ _ := by
    refine ⟨trivial, ?_⟩
    rintro id ⟨o, mem, _⟩
    cases mem
  loops _ _ labels mem := by
    rw [h.loops] at mem
    cases mem

theorem Outside.declared {m : Lower Unit} (h : Outside s)
    (ready : Ready (s.context ∅) [] s → Ready (s.context ∅) [] s')
    (follows : Follows (Change ⟨fun i => i.opcode = .sym, False, fun _ => True, fun _ => True⟩) m)
    (run : m s = .ok () s') : Outside s' := by
  obtain ⟨promise, body, part⟩ := ready ⟨_, _, h.part⟩
  -- Declarations add directives only, and a directive creates no variable.
  obtain ⟨added, code, directives⟩ := code_of_changes (follows.of_ok run)
  obtain rfl : body = added := append_cancel_right (part.code.symm.trans code)
  refine ⟨part.made, part.used, (loops_of_changes (follows.of_ok run)).trans h.loops, ?_⟩
  intro id sees
  rcases part.slots id sees with ⟨j, listed, creates⟩ | none
  · have directive : j.opcode = .sym := directives j listed
    simp [Instr.created?, directive] at creates
  · exact none

theorem Outside.topLevel (h : Outside s) (run : Lowering.topLevel t s = .ok () s') : Outside s' := by
  have rules : Records ⟨fun i => i.opcode = .sym, False, fun _ => True, fun _ => True⟩ (Change _) :=
    records_change fun _ _ _ _ => rfl
  match t with
  | .declare (.proto f) =>
    exact h.declared (filing_ready.linking (declareFunction_links run)) (rules.declareFunction false trivial trivial) run
  | .declare (.var v) =>
    exact h.declared (filing_ready.globalVariable run) (rules.globalVariable trivial trivial) run
  | .define f body =>
    obtain ⟨_, u, declared, defined⟩ := bind_eq_ok.1 run
    have before := h.declared (filing_ready.linking (declareFunction_links declared))
      (rules.declareFunction true trivial trivial) declared
    obtain ⟨_, _, part⟩ := filing_ready.defineFunction (fun _ _ => trivial) defined ⟨_, _, before.part⟩
    -- The variables of the function went out of sight with its scopes.
    have scopes := (filing_nested.defineFunction (fun _ _ => trivial) defined before.made).scopes
    refine ⟨part.made, part.used, (defineFunction_restores defined).1.trans before.loops, ?_⟩
    exact fun id sees => before.slots id ((scopes.sees before.made).1 sees)

theorem exists_honours (promise : Nat → List Operand) (first : Nat) {count : Nat} (short : count < 2 ^ 31) :
    ∃ Λ, Honours promise first count Λ := by
  refine ⟨fun l => Operand.ids (promise l.toInt.toNat), fun k _ small => ?_⟩
  simp only [Int32.toInt_ofNat_of_lt (Nat.lt_trans small short), Int.toNat_natCast]

theorem topLevel_definedFirst (outside : Outside s) (short : s'.labelCount < 2 ^ 31) (run : topLevel t s = .ok () s') :
    ∃ item, Appends s s' item ∧ LabelledItem t item ∧ Instr.DefinedFirst item := by
  obtain ⟨item, appended, labelled⟩ := topLevel_labelled outside.loops run
  obtain ⟨promise, body, part⟩ := ready_topLevel t s () s' ⟨_, _, outside.part⟩ run
  -- The labels of the piece are all given out, so what is promised for them is final.
  obtain ⟨Λ, honours⟩ := exists_honours promise s.labelCount short
  have same : item = body.reverse := by
    have code : s.code.reverse ++ body.reverse = s.code.reverse ++ item := by
      rw [← appended.code, part.code, reverse_append]
      rfl
    exact (append_cancel_left code).symm
  refine ⟨item, appended, labelled, Instr.definedFirst_of_allChecked (Λ := Λ) ?_⟩
  rw [same, reverse_reverse]
  refine (part.certified Λ honours).checked.mono (Set.union_subset ?_ (Set.empty_subset _))
  rintro id ⟨j, mem, creates⟩
  exact ⟨j, mem_reverse.2 mem, creates⟩

theorem topLevels_definedFirst {ts : List TopLevel} (outside : Outside s)
    (short : s'.labelCount < 2 ^ 31) (run : ts.forM topLevel s = .ok () s') :
    ∃ items, Appends s s' items.flatten ∧
      List.Forall₂ (fun t item => LabelledItem t item ∧ Instr.DefinedFirst item) ts items := by
  induction ts generalizing s with
  | nil =>
    obtain ⟨_, rfl⟩ := pure_eq_ok.1 run
    exact ⟨[], .nil s, .nil⟩
  | cons t ts ih =>
    obtain ⟨_, u, first, rest⟩ := bind_eq_ok.1 run
    obtain ⟨items, more, all⟩ := ih (outside.topLevel first) rest
    obtain ⟨item, appended, labelled⟩ := topLevel_definedFirst outside (Nat.lt_of_le_of_lt more.since short) first
    exact ⟨item :: items, appended.trans more, .cons labelled all⟩

end Lowering

open Cof.Module Cof.Lowering

theorem compile_definedFirst {source bytes : Bytes} (h : compile source = .ok bytes) :
    ∃ p v code items, Program.parse source = .ok p ∧ View.parse bytes = .ok v ∧
      Instr.decodeStream v.code = .ok code ∧ code = items.flatten ∧
      List.Forall₂ (fun t item => LabelledItem t item ∧ Instr.DefinedFirst item) p items := by
  obtain ⟨p, s, v, parsed, made, -, labels, view, decoded⟩ := compile_topLevels h
  obtain ⟨items, appended, all⟩ := topLevels_definedFirst outside_empty labels made
  refine ⟨p, v, _, items.map (List.map Instr.normal), parsed, view, decoded, ?_, ?_⟩
  · have whole : s.code.reverse = items.flatten := by simpa using appended.code
    rw [whole, map_flatten]
  · rw [forall₂_map_right_iff]
    exact all.imp fun _ _ both => ⟨both.1.normal, both.2.normal⟩

/-- Temporaries are new, and written first.  The value of an expression is in a variable that was numbered
for it, so neither a declared variable nor any that the code before it names; and in a compiled module,
on every path through a function, a variable that the function does not create is written before it is
read. -/
theorem temporaries_new_and_written_first :
    (∀ s e v s', value e s = .ok v s' → v.type ≠ .void →
      ∃ enc k, v.operand = .var enc (.ofNat k) ∧ s.variableCount ≤ k ∧ k < s'.variableCount ∧
        (Visited s → s'.variableCount ≤ 2 ^ 32 → ¬ s.Uses (.ofNat k))) ∧
      ∀ source bytes, compile source = .ok bytes →
        ∃ p v code items, Program.parse source = .ok p ∧ View.parse bytes = .ok v ∧
          Instr.decodeStream v.code = .ok code ∧ code = items.flatten ∧
          List.Forall₂ (fun t item => LabelledItem t item ∧ Instr.DefinedFirst item) p items := by
  refine ⟨fun s e v s' run proper => ?_, fun source bytes compiled => compile_definedFirst compiled⟩
  obtain ⟨enc, k, same, first, last⟩ := value_new run proper
  refine ⟨enc, k, same, first, last, fun visited small => ?_⟩
  exact visited.numbered.2.not_uses first (Nat.lt_of_lt_of_le last small)

/-- A parameter is copied before it is handed on, and both ways through `a?1:2` write the result. -/
theorem temporaries_new_and_written_first_choice :
    (∃ s v s', bindParameters ⟨1, 1⟩ 0 [⟨some (ascii "a"), .int⟩] {} = .ok () s ∧
      value (.ident ⟨1, 1⟩ (ascii "a")) s = .ok v s' ∧ v.type = .int ∧
      ∃ enc k, v.operand = .var enc (.ofNat k) ∧ s.variableCount ≤ k ∧ k < s'.variableCount ∧ ¬ s.Uses (.ofNat k)) ∧
      ∃ bytes, compile (ascii "int f(int a)\x7breturn a?1:2;\x7d") = .ok bytes ∧
        ∃ p v code items, Program.parse (ascii "int f(int a)\x7breturn a?1:2;\x7d") = .ok p ∧
          View.parse bytes = .ok v ∧ Instr.decodeStream v.code = .ok code ∧
          code.any (·.opcode == .br) = true ∧ code = items.flatten ∧
          List.Forall₂ (fun t item => LabelledItem t item ∧ Instr.DefinedFirst item) p items := by
  obtain ⟨values, modules⟩ := temporaries_new_and_written_first
  constructor
  · have computed : succeeds (bindParameters ⟨1, 1⟩ 0 [⟨some (ascii "a"), .int⟩]) {} (fun _ s =>
        succeeds (value (.ident ⟨1, 1⟩ (ascii "a"))) s fun v s' =>
          decide (v.type = .int ∧ s'.variableCount ≤ 2 ^ 32)) = true := by decide +kernel
    obtain ⟨_, s, bound, holds⟩ := ok_of_succeeds computed
    obtain ⟨v, s', run, holds⟩ := ok_of_succeeds holds
    obtain ⟨int, small⟩ := of_decide_eq_true holds
    have proper : v.type ≠ .void := by
      rw [int]
      exact CType.noConfusion
    obtain ⟨enc, k, same, first, last, unused⟩ := values s _ v s' run proper
    have visited : Visited s := .piece .start (.bindParameters _ _ _) bound
    exact ⟨s, v, s', bound, run, int, enc, k, same, first, last, unused visited small⟩
  · have computed : compilesWith (ascii "int f(int a)\x7breturn a?1:2;\x7d") (fun _ code =>
        code.any (·.opcode == .br)) = true := by decide +kernel
    obtain ⟨bytes, compiled, holds⟩ := holds_of_compilesWith computed
    obtain ⟨p, v, code, items, parsed, view, decoded, rest⟩ := modules _ bytes compiled
    exact ⟨bytes, compiled, p, v, code, items, parsed, view, decoded, holds v code view decoded, rest⟩

end Cof
