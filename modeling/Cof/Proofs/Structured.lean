/-
  What holds of pieces holds of statements.

  The code of a statement is that of its expressions and declarations, put together by scopes, choices and loops.  A
  relation between steps that is kept by these ways of putting code together therefore holds of the code of every
  statement, and the induction over statements is made here once for all such relations (`Structured.statement`).
-/
import Cof.Proofs.Declared
import Cof.Proofs.ExpressionTracking

namespace Cof.Lowering

/-! ## Around expressions -/

/-- What a `return` does once it knows the type that the function around it returns, if there is one. -/
def returnAs (value? : Option Expr) (loc : Location) : Option CType → Lower Unit
  | none => unsupported .returnOutside loc
  | some type =>
    match value? with
    | some e =>
      if type.isVoid then fail .valueReturned e.loc
      else do
        let v ← value e
        let v ← convertAssigned v type e.loc
        emit .setret .none [v.operand]
        emit .ret .none []
    | none => if type.isVoid then emit .ret .none [] else fail (.valueMissing type) loc

namespace FlowTracking

open Account Tracking

variable {ρ : Relabeling} {A : Account}
  {J : ∀ {α : Type}, List Operand → (α → List Operand) → Lower α → Lower α → Prop} (h : FlowTracking ρ A J)
include h

theorem conditionValue (e : Expr) (held : List Operand) :
    J held A.value (conditionValue e) (conditionValue (e.relabel ρ)) := by
  unfold Lowering.conditionValue
  rw [e.loc_relabel]
  refine h.seq (h.value e held) fun v => h.seq (h.requireScalar _ v "condition" e.loc) fun _ => h.pure fun o mem => ?_
  exact has_of_mem (List.mem_append_right _ (List.mem_append_left _ mem))

theorem returnAs (value? : Option Expr) (loc : Location)
    (type : Option CType) (held : List Operand) :
    J held (fun _ => []) (returnAs value? loc type) (returnAs (value?.map (·.relabel ρ)) (ρ.loc loc) type) := by
  have quiet : Instr.Quiet ⟨.ret, .none, []⟩ := Instr.quiet_of_opcode .none [] rfl
  cases type with
  | none => exact h.fail (.unsupported .returnOutside) loc
  | some type =>
    cases value? with
    | none => exact ite (fun _ => h.emit quiet takes_none) fun _ => h.fail (.valueMissing type) loc
    | some e =>
      simp only [Option.map_some, Lowering.returnAs, e.loc_relabel]
      refine ite (fun _ => h.fail .valueReturned e.loc) fun _ => h.seq (h.value e held) fun v => ?_
      refine h.seq (h.convertAssigned (gives_value v held) type e.loc) fun w => ?_
      exact h.seq (h.emit (Instr.quiet_of_opcode _ _ rfl) (takes_one has_head.reads)) fun _ =>
        h.emit quiet takes_none

theorem fillVariable (v : VarDecl) (target : Operand)
    (held : List Operand) (known : A.Reads held target) :
    J held (fun _ => []) (fillVariable v target) (fillVariable (v.relabel ρ) target) := by
  have init : (v.relabel ρ).init = v.init.map (·.relabel ρ) := rfl
  unfold Lowering.fillVariable
  rw [init]
  generalize v.init = init
  cases init with
  | none => exact h.done
  | some e =>
    simp only [Option.map_some, e.loc_relabel]
    refine ite (fun _ => h.fail (.unsupported (.arrayInitializer v.name)) e.loc) fun _ => ?_
    refine h.seq (h.value e held) fun given => h.seq (h.convertAssigned (gives_value given held) _ _) fun given' => ?_
    exact h.emit (Instr.quiet_of_opcode _ _ rfl) (takes_two ((known.behind _).behind _) has_head.reads)

end FlowTracking

/-! ## Code of statements -/

def inScope (m : Lower Unit) : Lower Unit := do
  enterScope
  m
  exitScope

def bracketed (m : Lower Unit) : Lower Unit := do
  emit .scopeBegin .none []
  m
  emit .scopeEnd .none []

/-- Code that compares an expression with zero and goes to a label on a condition. -/
def branchOn (condition : Qualifier) (e : Expr) (label : Int32) : Lower Unit := do
  let v ← conditionValue e
  compareZero v
  branch condition label

/-- Code that decides between two pieces of code, and then comes to them. -/
def decision (cond : Expr) (rest : Int32 → Int32 → Lower Unit) : Lower Unit := do
  let c ← conditionValue cond
  let elseLabel ← freshLabel
  let endLabel ← freshLabel
  compareZero c
  branch .eq elseLabel
  rest elseLabel endLabel

def choiceCode (cond : Expr) (yes no : Lower Unit) : Lower Unit :=
  decision cond fun elseLabel endLabel => do
    yes
    jump endLabel
    defineLabel elseLabel
    no
    defineLabel endLabel

def whileCode (cond : Expr) (body : Lower Unit) : Lower Unit := do
  let start ← freshLabel
  let done ← freshLabel
  defineLabel start
  branchIfZero cond done
  inLoop ⟨start, done⟩ body
  jump start
  defineLabel done

/-- What a round of a loop ends with: a test that goes back, or a step and a jump back. -/
inductive Round where
  | test (cond : Expr)
  | step (step : Option Expr)

namespace Round

def code (start : Int32) : Round → Lower Unit
  | test cond => branchOn .ne cond start
  | step e => do
    forStep e
    jump start

def relabel (ρ : Relabeling) : Round → Round
  | test cond => .test (cond.relabel ρ)
  | step e => .step (e.map (·.relabel ρ))

end Round

def loopCode (cond : Option Expr) (body : Lower Unit) (round : Round) : Lower Unit := do
  let start ← freshLabel
  let next ← freshLabel
  let done ← freshLabel
  defineLabel start
  forTest cond done
  inLoop ⟨next, done⟩ body
  defineLabel next
  round.code start
  defineLabel done

def leaveLoop (target : LoopLabels → Int32) (what : Unsupported) (loc : Location) : Lower Unit := do
  match (← get).loops with
  | labels :: _ => jump (target labels)
  | [] => unsupported what loc

attribute [local grind =] statement

theorem statement_block (loc : Location) (body : List Stmt) :
    statement (.block loc body) = inScope (bracketed (statements body)) := by
  simp only [statement, inScope, bracketed, bind_assoc]

theorem statement_ifThen (loc : Location) (cond : Expr) (yes : Stmt) :
    statement (.ifThen loc cond yes) = choiceCode cond (statement yes) (pure ()) := by
  simp only [statement, choiceCode, decision, pure_bind]

theorem statement_ifElse (loc : Location) (cond : Expr) (yes no : Stmt) :
    statement (.ifElse loc cond yes no) = choiceCode cond (statement yes) (statement no) := rfl

theorem statement_whileLoop (loc : Location) (cond : Expr) (body : Stmt) :
    statement (.whileLoop loc cond body) = whileCode cond (statement body) := rfl

theorem statement_doWhile (loc : Location) (body : Stmt) (cond : Expr) :
    statement (.doWhile loc body cond) = loopCode none (statement body) (.test cond) := by
  simp only [statement, loopCode, Round.code, branchOn, forTest, bind_assoc, pure_bind]

theorem statement_forLoop (loc : Location) (init : Option ForInit) (cond step : Option Expr) (body : Stmt) :
    statement (.forLoop loc init cond step body) = inScope (bracketed do
      forInit init
      loopCode cond (statement body) (.step step)) := by
  simp only [statement, inScope, bracketed, loopCode, Round.code, bind_assoc]

theorem statement_brk (loc : Location) : statement (.brk loc) = leaveLoop (·.onBreak) .breakOutside loc := rfl

theorem statement_cont (loc : Location) : statement (.cont loc) = leaveLoop (·.onContinue) .continueOutside loc := rfl

/-! ## Grades -/

/-- How grades of code are made and put together. -/
structure Grading (G : Type) where
  one : G
  mul : G → G → G
  inside : G → G
  evaluation : Expr → G
  declarations : List Declaration → G
  one_mul : ∀ g, mul one g = g
  mul_one : ∀ g, mul g one = g
  nil : declarations [] = one
  cons : ∀ d ds, declarations (d :: ds) = mul (declarations [d]) (declarations ds)

namespace Grading

variable {G : Type} (γ : Grading G)

def optional (e : Option Expr) : G := (e.map γ.evaluation).getD γ.one

def opening : Option ForInit → G
  | none => γ.one
  | some (.expr _ e) => γ.evaluation e
  | some (.decls _ ds) => γ.declarations ds

def round : Round → G
  | .test cond => γ.evaluation cond
  | .step e => γ.optional e

/-- Statements are graded by what is in them. -/
structure Grades (grade : Stmt → G) (gradeAll : List Stmt → G) : Prop where
  expr : ∀ loc e, grade (.expr loc e) = γ.evaluation e
  block : ∀ loc body, grade (.block loc body) = γ.inside (gradeAll body)
  ifThen : ∀ loc cond yes, grade (.ifThen loc cond yes) = γ.mul (γ.evaluation cond) (grade yes)
  ifElse : ∀ loc cond yes no,
    grade (.ifElse loc cond yes no) = γ.mul (γ.evaluation cond) (γ.mul (grade yes) (grade no))
  whileLoop : ∀ loc cond body, grade (.whileLoop loc cond body) = γ.mul (γ.evaluation cond) (grade body)
  doWhile : ∀ loc body cond, grade (.doWhile loc body cond) = γ.mul (grade body) (γ.evaluation cond)
  forLoop : ∀ loc init cond step body, grade (.forLoop loc init cond step body) =
    γ.inside (γ.mul (γ.opening init) (γ.mul (γ.optional cond) (γ.mul (grade body) (γ.optional step))))
  ret : ∀ loc e, grade (.ret loc e) = γ.optional e
  decls : ∀ loc ds, grade (.decls loc ds) = γ.declarations ds
  brk : ∀ loc, grade (.brk loc) = γ.one
  cont : ∀ loc, grade (.cont loc) = γ.one
  empty : ∀ loc, grade (.empty loc) = γ.one
  none : gradeAll [] = γ.one
  more : ∀ st rest, gradeAll (st :: rest) = γ.mul (grade st) (gradeAll rest)

def unit : Grading Unit := ⟨(), fun _ _ => (), id, fun _ => (), fun _ => (), fun _ => rfl, fun _ => rfl, rfl, fun _ _ => rfl⟩

theorem grades_unit : unit.Grades (fun _ => ()) fun _ => () := by
  constructor <;> intros <;> rfl

end Grading

/-! ## Statements -/

/-- A relation between steps that holds of expressions and of declarations of some kind, and is kept by scopes. -/
structure Pieces {G : Type} (ρ : Relabeling) (Allowed : Declaration → Prop) (γ : Grading G)
    (J : G → Lower Unit → Lower Unit → Prop) : Prop where
  done : J γ.one (pure ()) (pure ())
  evaluation : ∀ e, J (γ.evaluation e) (discard (value e)) (discard (value (e.relabel ρ)))
  declaration : ∀ {d}, Allowed d → J (γ.declarations [d]) (localDeclaration d) (localDeclaration (d.relabel ρ))
  returning : ∀ e loc, J (γ.optional e) (returnStatement e loc) (returnStatement (e.map (·.relabel ρ)) (ρ.loc loc))
  onBreak : ∀ loc, J γ.one (leaveLoop (·.onBreak) .breakOutside loc) (leaveLoop (·.onBreak) .breakOutside (ρ.loc loc))
  onContinue : ∀ loc, J γ.one (leaveLoop (·.onContinue) .continueOutside loc)
    (leaveLoop (·.onContinue) .continueOutside (ρ.loc loc))
  scope : ∀ {g m m'}, J g m m' → J (γ.inside g) (inScope (bracketed m)) (inScope (bracketed m'))

/-- One that is kept by sequences, choices and loops too. -/
structure Structured {G : Type} (ρ : Relabeling) (Allowed : Declaration → Prop) (γ : Grading G)
    (J : G → Lower Unit → Lower Unit → Prop) : Prop extends Pieces ρ Allowed γ J where
  andThen : ∀ {g g' m m' n n'}, J g m m' → J g' n n' → J (γ.mul g g') (do m; n) (do m'; n')
  choice : ∀ cond {g g' m m' n n'}, J g m m' → J g' n n' →
    J (γ.mul (γ.evaluation cond) (γ.mul g g')) (choiceCode cond m n) (choiceCode (cond.relabel ρ) m' n')
  whileLoop : ∀ cond {g m m'}, J g m m' →
    J (γ.mul (γ.evaluation cond) g) (whileCode cond m) (whileCode (cond.relabel ρ) m')
  loop : ∀ cond round {g m m'}, J g m m' → J (γ.mul (γ.optional cond) (γ.mul g (γ.round round)))
    (loopCode cond m round) (loopCode (cond.map (·.relabel ρ)) m' (round.relabel ρ))

namespace Structured

variable {G : Type} {ρ : Relabeling} {Allowed : Declaration → Prop} {γ : Grading G}
  {J : G → Lower Unit → Lower Unit → Prop}

theorem localDeclarations (h : Structured ρ Allowed γ J) {ds : List Declaration} (allowed : ∀ d ∈ ds, Allowed d) :
    J (γ.declarations ds) (localDeclarations ds) (localDeclarations (ds.map (·.relabel ρ))) := by
  induction ds with
  | nil =>
    rw [γ.nil]
    exact h.done
  | cons d ds ih =>
    obtain ⟨first, rest⟩ := List.forall_mem_cons.1 allowed
    rw [γ.cons]
    exact h.andThen (h.declaration first) (ih rest)

theorem forInit (h : Structured ρ Allowed γ J) {init : Option ForInit}
    (allowed : ∀ d ∈ (init.map ForInit.declarations).getD [], Allowed d) :
    J (γ.opening init) (forInit init) (forInit (init.map (·.relabel ρ))) := by
  match init with
  | none => exact h.done
  | some (.expr _ e) => exact h.evaluation e
  | some (.decls _ ds) => exact h.localDeclarations allowed

mutual

theorem statement {G : Type} {ρ : Relabeling} {Allowed : Declaration → Prop} {γ : Grading G}
    {J : G → Lower Unit → Lower Unit → Prop} {grade : Stmt → G} {gradeAll : List Stmt → G}
    (h : Structured ρ Allowed γ J) (grades : γ.Grades grade gradeAll) (st : Stmt)
    (allowed : ∀ d ∈ st.declarations, Allowed d) :
    J (grade st) (Lowering.statement st) (Lowering.statement (st.relabel ρ)) := by
  match st with
  | .expr loc e =>
    rw [grades.expr, Stmt.relabel, Stmt.translate, Lowering.statement, Lowering.statement]
    exact h.evaluation e
  | .block loc body =>
    rw [grades.block, Stmt.relabel, Stmt.translate, statement_block, statement_block]
    exact h.scope (h.statements grades body allowed)
  | .ifThen loc cond yes =>
    rw [grades.ifThen, Stmt.relabel, Stmt.translate, statement_ifThen, statement_ifThen, ← γ.mul_one (grade yes)]
    exact h.choice cond (h.statement grades yes allowed) h.done
  | .ifElse loc cond yes no =>
    obtain ⟨first, second⟩ := List.forall_mem_append.1 allowed
    rw [grades.ifElse, Stmt.relabel, Stmt.translate, statement_ifElse, statement_ifElse]
    exact h.choice cond (h.statement grades yes first) (h.statement grades no second)
  | .whileLoop loc cond body =>
    rw [grades.whileLoop, Stmt.relabel, Stmt.translate, statement_whileLoop, statement_whileLoop]
    exact h.whileLoop cond (h.statement grades body allowed)
  | .doWhile loc body cond =>
    rw [grades.doWhile, Stmt.relabel, Stmt.translate, statement_doWhile, statement_doWhile, ← γ.one_mul (γ.mul _ _)]
    exact h.loop none (.test cond) (h.statement grades body allowed)
  | .forLoop loc init cond step body =>
    obtain ⟨first, second⟩ := List.forall_mem_append.1 allowed
    rw [grades.forLoop, Stmt.relabel, Stmt.translate, statement_forLoop, statement_forLoop]
    exact h.scope (h.andThen (h.forInit first) (h.loop cond (.step step) (h.statement grades body second)))
  | .ret loc e =>
    rw [grades.ret, Stmt.relabel, Stmt.translate, Lowering.statement, Lowering.statement]
    exact h.returning e loc
  | .decls loc ds =>
    rw [grades.decls, Stmt.relabel, Stmt.translate, Lowering.statement, Lowering.statement]
    exact h.localDeclarations allowed
  | .brk loc =>
    rw [grades.brk, Stmt.relabel, Stmt.translate, statement_brk, statement_brk]
    exact h.onBreak loc
  | .cont loc =>
    rw [grades.cont, Stmt.relabel, Stmt.translate, statement_cont, statement_cont]
    exact h.onContinue loc
  | .empty loc =>
    rw [grades.empty, Stmt.relabel, Stmt.translate, Lowering.statement, Lowering.statement]
    exact h.done

theorem statements {G : Type} {ρ : Relabeling} {Allowed : Declaration → Prop} {γ : Grading G}
    {J : G → Lower Unit → Lower Unit → Prop} {grade : Stmt → G} {gradeAll : List Stmt → G}
    (h : Structured ρ Allowed γ J) (grades : γ.Grades grade gradeAll) (body : List Stmt)
    (allowed : ∀ d ∈ Stmt.allDeclarations body, Allowed d) :
    J (gradeAll body) (Lowering.statements body) (Lowering.statements (Stmt.relabelAll ρ body)) := by
  match body with
  | [] =>
    rw [grades.none, Stmt.relabelAll, Stmt.translateAll, Lowering.statements]
    exact h.done
  | st :: rest =>
    obtain ⟨first, second⟩ := List.forall_mem_append.1 allowed
    rw [grades.more, Stmt.relabelAll, Stmt.translateAll, Lowering.statements, Lowering.statements]
    exact h.andThen (h.statement grades st first) (h.statements grades rest second)

end

end Structured

/-! ## Without a look at labels -/

/-- A relation between steps that composes, whatever labels are taken and defined and gone to. -/
structure Sequential {G : Type} (ρ : Relabeling) (Allowed : Declaration → Prop) (γ : Grading G)
    (J : ∀ {α : Type}, G → Lower α → Lower α → Prop) : Prop extends Pieces ρ Allowed γ J where
  bind : ∀ {α β : Type} {g g'} {m m' : Lower α} {f f' : α → Lower β}, J g m m' → (∀ a, J g' (f a) (f' a)) →
    J (γ.mul g g') (m >>= f) (m' >>= f')
  freshLabel : J γ.one freshLabel freshLabel
  defineLabel : ∀ l, J γ.one (defineLabel l) (defineLabel l)
  jump : ∀ l, J γ.one (jump l) (jump l)
  branchOn : ∀ condition e l, J (γ.evaluation e) (branchOn condition e l) (branchOn condition (e.relabel ρ) l)
  decision : ∀ cond {g rest rest'}, (∀ l l', J g (rest l l') (rest' l l')) →
    J (γ.mul (γ.evaluation cond) g) (decision cond rest) (decision (cond.relabel ρ) rest')
  inLoop : ∀ {g} {m m' : Lower Unit} (labels : LoopLabels), J g m m' → J g (inLoop labels m) (inLoop labels m')

namespace Sequential

variable {G : Type} {ρ : Relabeling} {Allowed : Declaration → Prop} {γ : Grading G}
  {J : ∀ {α : Type}, G → Lower α → Lower α → Prop} {α β : Type} {g g' : G} {m m' : Lower α} {f f' : α → Lower β}

section

variable (h : Sequential ρ Allowed γ J)
include h

theorem skip (hm : J γ.one m m') (hf : ∀ a, J g (f a) (f' a)) : J g (m >>= f) (m' >>= f') := by
  rw [← γ.one_mul g]
  exact h.bind hm hf

theorem last (hm : J g m m') (hf : ∀ a, J γ.one (f a) (f' a)) : J g (m >>= f) (m' >>= f') := by
  rw [← γ.mul_one g]
  exact h.bind hm hf

theorem forTest (cond : Option Expr) (done : Int32) :
    J (γ.optional cond) (forTest cond done) (forTest (cond.map (·.relabel ρ)) done) := by
  cases cond with
  | none => exact h.done
  | some cond => exact h.branchOn .eq cond done

theorem round (start : Int32) (r : Round) : J (γ.round r) (r.code start) ((r.relabel ρ).code start) := by
  cases r with
  | test cond => exact h.branchOn .ne cond start
  | step e =>
    refine h.last ?_ fun _ => h.jump start
    cases e with
    | none => exact h.done
    | some e => exact h.evaluation e

theorem structured : Structured ρ Allowed γ J where
  toPieces := h.toPieces
  andThen first second := h.bind first fun _ => second
  choice cond _ _ _ _ _ _ yes no := h.decision cond fun elseLabel endLabel =>
    h.bind yes fun _ => h.skip (h.jump _) fun _ => h.skip (h.defineLabel _) fun _ => h.last no fun _ => h.defineLabel _
  whileLoop cond _ _ _ body := by
    refine h.skip h.freshLabel fun start => h.skip h.freshLabel fun done => h.skip (h.defineLabel _) fun _ => ?_
    refine h.bind (h.branchOn .eq cond done) fun _ => h.last (h.inLoop _ body) fun _ => ?_
    exact h.skip (h.jump _) fun _ => h.defineLabel _
  loop cond round _ _ _ body := by
    refine h.skip h.freshLabel fun start => h.skip h.freshLabel fun next => h.skip h.freshLabel fun done => ?_
    refine h.skip (h.defineLabel _) fun _ => h.bind (h.forTest cond done) fun _ => h.bind (h.inLoop _ body) fun _ => ?_
    exact h.skip (h.defineLabel _) fun _ => h.last (h.round start round) fun _ => h.defineLabel _

end

end Sequential

/-! ## Without a look at expressions -/

section Growth

theorem grows_conditionValue (e : Expr) : Follows AnyGrowth (conditionValue e) := growing.conditionValue e []

theorem grows_returnStatement (value? : Option Expr) (loc : Location) :
    Follows AnyGrowth (returnStatement value? loc) :=
  follows_seq follows_get fun s => growing.returnAs value? loc s.returnType []

theorem grows_forStep (step : Option Expr) : Follows AnyGrowth (forStep step) := by
  cases step with
  | none => exact follows_pure
  | some step => exact follows_discard (follows_value step)

theorem grows_leaveLoop (target : LoopLabels → Int32) (what : Unsupported) (loc : Location) :
    Follows AnyGrowth (leaveLoop target what loc) := by
  refine follows_seq follows_get fun t => ?_
  cases t.loops with
  | nil => exact follows_unsupported
  | cons labels rest => exact follows_emit rfl

end Growth

/-- A property of steps that composes, and that holds of growth without a grade. -/
structure Growing {G : Type} (Allowed : Declaration → Prop) (γ : Grading G) (J : ∀ {α : Type}, G → Lower α → Prop) :
    Prop where
  silent : ∀ e, γ.evaluation e = γ.one
  growth : ∀ {α : Type} {m : Lower α}, Follows AnyGrowth m → J γ.one m
  bind : ∀ {α β : Type} {g g'} {m : Lower α} {f : α → Lower β}, J g m → (∀ a, J g' (f a)) → J (γ.mul g g') (m >>= f)
  declaration : ∀ {d}, Allowed d → J (γ.declarations [d]) (localDeclaration d)
  scope : ∀ {g m}, J g m → J (γ.inside g) (inScope (bracketed m))
  inLoop : ∀ {g} {m : Lower Unit} (labels : LoopLabels), J g m → J g (inLoop labels m)

namespace Growing

variable {G : Type} {Allowed : Declaration → Prop} {γ : Grading G} {J : ∀ {α : Type}, G → Lower α → Prop}
  {grade : Stmt → G} {gradeAll : List Stmt → G}

theorem sequential (h : Growing Allowed γ J) : Sequential .identity Allowed γ fun g m _ => J g m where
  done := h.growth follows_pure
  evaluation e := by
    rw [h.silent]
    exact h.growth (follows_discard (follows_value e))
  declaration := h.declaration
  returning e loc := by
    have none : γ.optional e = γ.one := by
      cases e with
      | none => rfl
      | some e => exact h.silent e
    rw [none]
    exact h.growth (grows_returnStatement e loc)
  onBreak loc := h.growth (grows_leaveLoop _ _ loc)
  onContinue loc := h.growth (grows_leaveLoop _ _ loc)
  scope := h.scope
  bind := h.bind
  freshLabel := h.growth (follows_freshLabel trivial)
  defineLabel l := h.growth (follows_emit rfl)
  jump l := h.growth (follows_emit rfl)
  branchOn condition e l := by
    rw [h.silent]
    exact h.growth (follows_seq (grows_conditionValue e) fun v =>
      follows_seq (follows_compareZero v).any fun _ => follows_emit rfl)
  decision cond g rest rest' inner := by
    have skip : ∀ {α : Type} {m : Lower α} {f : α → Lower Unit}, Follows AnyGrowth m → (∀ a, J g (f a)) →
        J g (m >>= f) := fun grown later => γ.one_mul g ▸ h.bind (h.growth grown) later
    rw [h.silent, γ.one_mul]
    refine skip (grows_conditionValue cond) fun c => ?_
    refine skip (follows_freshLabel trivial) fun l => skip (follows_freshLabel trivial) fun l' => ?_
    exact skip (follows_compareZero c).any fun _ => skip (follows_emit rfl) fun _ => inner l l'
  inLoop := h.inLoop

theorem statement (h : Growing Allowed γ J) (grades : γ.Grades grade gradeAll) (st : Stmt)
    (allowed : ∀ d ∈ st.declarations, Allowed d) : J (grade st) (Lowering.statement st) :=
  h.sequential.structured.statement grades st allowed

theorem statements (h : Growing Allowed γ J) (grades : γ.Grades grade gradeAll) (body : List Stmt)
    (allowed : ∀ d ∈ Stmt.allDeclarations body, Allowed d) : J (gradeAll body) (Lowering.statements body) :=
  h.sequential.structured.statements grades body allowed

end Growing

end Cof.Lowering
