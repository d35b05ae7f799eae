/-
  What making code for a program does, step by step.

  A statement is gone through once.  On the way names are declared and scopes are opened and closed, just as in the
  walk through the statement (`Stmt.walk`), and code is made for the expressions that the walk meets, each under the
  names that are visible there.  So the code carries out the events of the walk, in order.
-/
import Cof.Proofs.Stretches
import Cof.Proofs.Visible

namespace Cof

open Lowering Relation List

/-! ## Calls of statements -/

def optionCallees (e : Option Expr) : List Expr := (e.map Expr.callees).getD []

def Declaration.callees : Declaration → List Expr
  | .var v => v.callees
  | .proto _ => []

def ForInit.callees : ForInit → List Expr
  | .expr _ e => e.callees
  | .decls _ ds => ds.flatMap Declaration.callees

mutual

def Stmt.callees : Stmt → List Expr
  | .expr _ e => e.callees
  | .block _ body => Stmt.allCallees body
  | .ifThen _ cond yes => cond.callees ++ yes.callees
  | .ifElse _ cond yes no => cond.callees ++ (yes.callees ++ no.callees)
  | .whileLoop _ cond body => cond.callees ++ body.callees
  | .doWhile _ body cond => body.callees ++ cond.callees
  | .forLoop _ init cond step body =>
    (init.map ForInit.callees).getD [] ++ (optionCallees cond ++ (body.callees ++ optionCallees step))
  | .ret _ value => optionCallees value
  | .decls _ ds => ds.flatMap Declaration.callees
  | .brk _ | .cont _ | .empty _ => []

def Stmt.allCallees : List Stmt → List Expr
  | [] => []
  | st :: rest => st.callees ++ Stmt.allCallees rest

end

def TopLevel.callees : TopLevel → List Expr
  | .declare d => d.callees
  | .define _ body => Stmt.allCallees body

def Walk.events (w : Walk) (t : Scopes) : List Event := (w t).1.flatMap Evaluation.events

namespace Lowering

variable {α β : Type} {s s' t : State} {w w' : Walk}

/-! ## Names on a way -/

/-- What happens to names on a way. -/
structure Names (w : Walk) (s s' : State) : Prop where
  moves : ReflTransGen Move s s'
  depth : s'.scopes.depth = s.scopes.depth
  log : s.scopes.log ⊆ s'.scopes.log
  proper : s'.scopes.Proper
  table : s'.scopes.bare = (w s.scopes.bare).2

section Names

variable {g : Global} {u u' : Scopes}

theorem Names.trans (h : Names w s t) (h' : Names w' t s') : Names (w.andThen w') s s' where
  moves := h.moves.trans h'.moves
  depth := h'.depth.trans h.depth
  log := List.Subset.trans h.log h'.log
  proper := h'.proper
  table := by
    rw [h'.table, h.table]
    rfl

theorem Names.offered (h : Names w s s') : s.scopes.offered ⊆ s'.scopes.offered := Scopes.offered_mono h.log

theorem names_same (proper : s.scopes.Proper) (scopes : s'.scopes = s.scopes) (globals : s'.globals = s.globals)
    (symbols : s.symbols <:+ s'.symbols) (stays : (w s.scopes.bare).2 = s.scopes.bare) : Names w s s' where
  moves := .single (.other scopes globals symbols)
  depth := congrArg Scopes.depth scopes
  log := scopes ▸ List.Subset.refl _
  proper := scopes ▸ proper
  table := scopes ▸ stays.symm

theorem proper_empty : ({} : State).scopes.Proper := forall_mem_nil _

theorem names_refl (proper : s.scopes.Proper) : Names .stay s s := ⟨.refl, rfl, List.Subset.refl _, proper, rfl⟩

theorem Links.names (h : Links g u u') (proper : u.Proper) (declarable : g.type.Declarable) :
    u'.depth = u.depth ∧ u.log ⊆ u'.log ∧ u'.Proper ∧ u'.bare = u.bare.introduce g.name g.type := by
  cases h with
  | bound free =>
    refine ⟨rfl, subset_cons_self .., ?_, Scopes.bare_bind free g.type _⟩
    exact forall_mem_cons.2 ⟨declarable, proper⟩
  | present taken => exact ⟨rfl, List.Subset.refl _, proper, Scopes.bare_taken taken g.type⟩

theorem Declares.names (h : Declares g s s') (move : Move s s') (proper : s.scopes.Proper)
    (declarable : g.type.Declarable) : Names (.declare g.name g.type) s s' := by
  obtain ⟨depth, log, proper', table⟩ := h.scopes.names proper declarable
  exact ⟨.single move, depth, log, proper', table⟩

theorem Introduces.names {name : Name} {type : CType} {storage : Storage} (h : Introduces name type storage s s')
    (move : Move s s') (proper : s.scopes.Proper) (declarable : type.Declarable) :
    Names (.declare name type) s s' where
  moves := .single move
  depth := by
    rw [h.scopes]
    rfl
  log := by
    rw [h.scopes]
    exact subset_cons_self ..
  proper := by
    rw [h.scopes]
    exact forall_mem_cons.2 ⟨declarable, proper⟩
  table := by
    rw [h.scopes]
    exact Scopes.bare_bind h.free type storage

theorem names_inside {a : State} (h : Names w { s with scopes := s.scopes.enter } a) :
    Names (.inside w) s { a with scopes := a.scopes.exit } where
  moves := (ReflTransGen.single .enterScope).trans (h.moves.tail .exitScope)
  depth := by
    have deeper : a.scopes.outer.length = s.scopes.outer.length + 1 := h.depth
    unfold Scopes.exit
    cases outer : a.scopes.outer with
    | nil => rw [outer] at deeper; cases deeper
    | cons scope rest =>
      rw [outer, length_cons] at deeper
      exact Nat.succ.inj deeper
  log := by
    rw [a.scopes.exit_log]
    exact h.log
  proper := by
    intro e mem
    exact h.proper e (a.scopes.exit_log ▸ mem)
  table := by
    rw [Scopes.bare_exit, h.table]
    rfl

end Names

/-! ## Code on a way -/

/-- A function that returns something is open, and its names can be declared. -/
structure InFunction (returned : Option CType) (s : State) : Prop where
  inside : s.scopes.atFileScope = false
  proper : s.scopes.Proper
  returns : s.returnType = returned

/-- Code is made on a way, with calls of functions. -/
structure Course (returned : Option CType) (w : Walk) (callees : List Expr) (s s' : State) : Prop
    extends Names w s s' where
  returns : s'.returnType = s.returnType
  code : Shows returned s'.scopes.offered (w.events s.scopes.bare) s s'
  calls : (w.events s.scopes.bare).filterMap Event.callee? = callees

/-- What a step inside of a function does when it succeeds, and what its result is like. -/
def HasCourse (returned : Option CType) (w : Walk) (callees : List Expr) (m : Lower α) (Q : α → Prop) : Prop :=
  ∀ s a s', InFunction returned s → m s = .ok a s' → Course returned w callees s s' ∧ Q a

section Course

variable {returned : Option CType} {callees callees' : List Expr} {m : Lower α} {f : α → Lower β} {Q : α → Prop}
  {R : β → Prop}

theorem Course.trans (h : Course returned w callees s t) (h' : Course returned w' callees' t s') :
    Course returned (w.andThen w') (callees ++ callees') s s' := by
  have events : (w.andThen w').events s.scopes.bare = w.events s.scopes.bare ++ w'.events t.scopes.bare := by
    rw [h.table]
    exact flatMap_append
  refine ⟨h.toNames.trans h'.toNames, h'.returns.trans h.returns, ?_, ?_⟩
  · rw [events]
    exact (h.code.mono h'.offered).trans h'.code
  · rw [events, filterMap_append, h.calls, h'.calls]

theorem Course.inFunction (h : Course returned w callees s s') (start : InFunction returned s) :
    InFunction returned s' := by
  refine ⟨?_, h.proper, h.returns.trans start.returns⟩
  rw [Scopes.atFileScope, h.depth]
  exact start.inside

theorem course_unseen (proper : s.scopes.Proper) (scopes : s'.scopes = s.scopes) (globals : s'.globals = s.globals)
    (symbols : s.symbols <:+ s'.symbols) (returns : s'.returnType = s.returnType) (code : s'.code = s.code) :
    Course returned .stay [] s s' :=
  ⟨names_same proper scopes globals symbols rfl, returns, shows_nil code, rfl⟩

theorem course_bind (hm : HasCourse returned w callees m Q) (hf : ∀ a, Q a → HasCourse returned w' callees' (f a) R) :
    HasCourse returned (w.andThen w') (callees ++ callees') (m >>= f) R := by
  intro s b s' start run
  obtain ⟨a, t, first, second⟩ := bind_eq_ok.1 run
  obtain ⟨course, result⟩ := hm s a t start first
  obtain ⟨course', result'⟩ := hf a result t b s' (course.inFunction start) second
  exact ⟨course.trans course', result'⟩

theorem course_of_grown {es : List Event} (proper : s.scopes.Proper) (grown : Grown s.scopes.offered es s s')
    (stays : (w s.scopes.bare).2 = s.scopes.bare) (same : w.events s.scopes.bare = es)
    (calls : es.filterMap Event.callee? = callees) : Course returned w callees s s' := by
  obtain ⟨scopes, globals, symbols⟩ := names_of_growth grown.steps
  refine ⟨names_same proper scopes globals (symbols ▸ suffix_refl _) stays, ?_, ?_, same ▸ calls⟩
  · exact returnType_of_growth grown.steps
  · rw [same, scopes]
    exact grown.code.any returned

theorem course_silent (h : ∀ T : Scopes, Enacts T [] m Q) : HasCourse returned .stay [] m Q := by
  intro s a s' start run
  obtain ⟨grown, ha⟩ := h s.scopes s a s' rfl run
  exact ⟨course_of_grown start.proper grown rfl rfl rfl, ha⟩

theorem course_value (e : Expr) : HasCourse returned (.evaluate e) e.callees (value e) fun v => ∃ a, v.Made a := by
  intro s v s' start run
  obtain ⟨grown, ⟨u, -, made⟩, calls⟩ := enacts_value start.proper e s v s' rfl run
  refine ⟨course_of_grown start.proper grown rfl ?_ calls, _, made⟩
  rw [Walk.events, Walk.evaluate, flatMap_singleton]
  exact Expr.events_bare s.scopes e

theorem course_skip (hm : ∀ T : Scopes, Enacts T [] m Q) (hf : ∀ a, Q a → HasCourse returned w callees (f a) R) :
    HasCourse returned w callees (m >>= f) R := course_bind (course_silent hm) hf

theorem course_last (hm : HasCourse returned w callees m Q) (hf : ∀ a, Q a → HasCourse returned .stay [] (f a) R) :
    HasCourse returned w callees (m >>= f) R := by
  have both := course_bind hm hf
  rwa [append_nil, Walk.andThen_stay] at both

theorem course_discard (hm : HasCourse returned w callees m Q) :
    HasCourse returned w callees (discard m) fun _ => True := by
  intro s u s' start run
  obtain ⟨a, run⟩ := discard_eq_ok.1 run
  exact ⟨(hm s a s' start run).1, trivial⟩

theorem course_pure : HasCourse returned .stay [] (pure () : Lower Unit) fun _ => True :=
  course_silent fun _ => enacts_pure trivial

theorem course_throw {e : LowerError} : HasCourse returned w callees (throw e : Lower α) Q := by
  rintro s a s' _ ⟨⟩

theorem course_get : HasCourse returned .stay [] (get : Lower State) fun t => t.returnType = returned := by
  intro s t s' start run
  obtain ⟨rfl, rfl⟩ := get_eq_ok.1 run
  exact ⟨course_unseen start.proper rfl rfl (suffix_refl _) rfl rfl, start.returns⟩

theorem course_inLoop (labels : LoopLabels) (h : HasCourse returned w callees m Q) :
    HasCourse returned w callees (inLoop labels m) Q := by
  intro s a s' start run
  obtain ⟨t, ran, rfl⟩ := inLoop_eq_ok.1 run
  obtain ⟨course, result⟩ := h (s.inside labels) a t ⟨start.inside, start.proper, start.returns⟩ ran
  have before : Course returned .stay [] s (s.inside labels) :=
    course_unseen start.proper rfl rfl (suffix_refl _) rfl rfl
  have after : Names .stay t t.outside := names_same course.proper rfl rfl (suffix_refl _) rfl
  obtain ⟨names, returns, code, calls⟩ := before.trans course
  refine ⟨⟨⟨?_, names.depth, names.log, names.proper, names.table⟩, returns, code, calls⟩, result⟩
  exact names.moves.trans after.moves

theorem course_inScope {m : Lower Unit} {Q : Unit → Prop} (h : HasCourse returned w callees m Q)
    (proper : s.scopes.Proper) (returns : s.returnType = returned) {u : Unit} (run : inScope m s = .ok u s') :
    Course returned (.inside w) callees s s' := by
  obtain ⟨_, _, entered, run⟩ := bind_eq_ok.1 run
  obtain ⟨_, t, ran, left⟩ := bind_eq_ok.1 run
  obtain rfl := modify_eq_ok.1 entered
  obtain rfl := modify_eq_ok.1 left
  obtain ⟨course, -⟩ := h { s with scopes := s.scopes.enter } _ t ⟨rfl, proper, returns⟩ ran
  refine ⟨names_inside course.toNames, course.returns, ?_, course.calls⟩
  have same : t.scopes.exit.offered = t.scopes.offered := by
    unfold Scopes.offered
    rw [t.scopes.exit_log]
  rw [same]
  exact course.code

theorem course_scoped {m : Lower Unit} {Q : Unit → Prop} (h : HasCourse returned w callees m Q) :
    HasCourse returned (.inside w) callees (inScope m) fun _ => True := fun _ _ _ start run =>
  ⟨course_inScope h start.proper start.returns run, trivial⟩

theorem course_bracketed {m : Lower Unit} {Q : Unit → Prop} (h : HasCourse returned w callees m Q) :
    HasCourse returned w callees (bracketed m) fun _ => True := by
  refine course_skip (fun _ => enacts_idle ⟨trivial, rfl⟩ rfl rfl (forall_mem_nil _)) fun _ _ => ?_
  refine course_last h fun _ _ => ?_
  exact course_silent fun _ => enacts_idle ⟨trivial, rfl⟩ rfl rfl (forall_mem_nil _)

end Course

/-! ## Declarations -/

section Declarations

variable {returned : Option CType}

variable {d : Declaration}

theorem returnType_of_declaration (run : localDeclaration d s = .ok () s') : s'.returnType = s.returnType :=
  returnType_of_changes ((follows_localDeclaration Limits.unbounded_open (Limits.unbounded_admits d)).of_ok run)

theorem names_declareFunction {f : FunctionDecl} {isDefinition : Bool} (function : f.WellFormed)
    (proper : s.scopes.Proper) (run : declareFunction f isDefinition s = .ok () s') :
    Names (.declare f.name f.type) s s' :=
  (declareFunction_links run).declares.1.names (.declareFunction run) proper
    (Declaration.WellFormed.declarable (d := .proto f) function)

theorem enacts_createVariable {T : Scopes} (id : UInt32) {type : CType} (solid : type.isVoid = false) :
    Enacts T [] (createVariable id type) (· = .var type.encoding id) := by
  refine enacts_skip (enacts_idle ⟨trivial, rfl⟩ rfl rfl ?_) fun _ _ => enacts_pure rfl
  exact sound_two (sound_var solid id) (sound_imm _ _)

theorem enacts_freshVariable {T : Scopes} : Enacts T [] freshVariable fun _ => True := by
  refine enacts_silent fun s id s' _ run => ?_
  obtain ⟨-, rfl⟩ := freshVariable_eq_ok.1 run
  exact ⟨.single .freshVariable, rfl, trivial⟩

variable {type : CType}

theorem course_bindVariable (name : Name) (id : UInt32) (loc : Location) (object : type.isFunction = false)
    (declarable : type.Declarable) :
    HasCourse returned (.declare name type) [] (bindName name type (.slot id) loc) fun _ => True := by
  intro s u s' start run
  have move : Move s s' := .bindParameter object start.inside run
  obtain ⟨free, rfl⟩ := bindName_free run
  have introduces : Introduces name type (.slot id) s
      { s with scopes := s.scopes.bind ⟨name, type, s.scopes.depth, .slot id⟩ } := by
    refine ⟨free, rfl, rfl, suffix_refl _, ?_⟩
    rintro _ ⟨⟩
  exact ⟨⟨introduces.names move start.proper declarable, rfl, shows_nil rfl, rfl⟩, trivial⟩

theorem course_declareVariable {name : Name} {loc : Location} {fill : Operand → Lower Unit} {callees : List Expr}
    (object : type.isFunction = false) (declarable : type.Declarable)
    (filled : ∀ id, HasCourse returned w callees (fill (.var type.encoding id)) fun _ => True) :
    HasCourse returned ((Walk.declare name type).andThen w) callees (declareVariable name type loc fill)
      fun _ => True := by
  refine course_skip (fun _ => enacts_freshVariable) fun id _ => ?_
  refine course_bind (course_bindVariable name id loc object declarable) fun _ _ => ?_
  refine course_skip (fun _ => enacts_createVariable id declarable.notVoid) fun target created => ?_
  exact created ▸ filled id

theorem course_fillVariable (v : VarDecl) (id : UInt32) : HasCourse returned (.evaluate? v.init) v.callees
    (fillVariable v (.var v.type.encoding id)) fun _ => True := by
  unfold fillVariable VarDecl.callees
  cases v.init with
  | none => exact course_pure
  | some e =>
    show HasCourse _ _ _ (if v.type.isArray = true then _ else _) _
    split
    · exact course_throw
    refine course_last (course_value e) fun given made => ?_
    obtain ⟨_, typed⟩ := made
    refine course_skip (fun _ => enacts_convertAssigned typed v.type _) fun given converted => ?_
    exact course_silent fun _ => (enacts_setVariable converted.1.typed converted.2 id).mono fun _ _ => trivial

theorem course_localDeclaration (wellFormed : d.WellFormed) :
    HasCourse returned d.walk d.callees (localDeclaration d) fun _ => True := by
  intro s u s' start run
  have returns := returnType_of_declaration run
  have declarable := Declaration.WellFormed.declarable wellFormed
  refine ⟨?_, trivial⟩
  cases d with
  | proto f =>
    refine ⟨names_declareFunction wellFormed start.proper run, returns, shows_nil ?_, rfl⟩
    exact (declareFunction_links run).declares.2
  | var v =>
    have object := VarDecl.WellFormed.notFunction wellFormed
    have move : Move s s' := .localVariable object start.inside run
    -- A variable that has a value of its own from the start is declared, and nothing is evaluated.
    have static : v.linkage ≠ .plain → Names (.declare v.name v.type) s s' → Static v s s' →
        Course returned (Declaration.var v).walk v.callees s s' := by
      intro other names static
      rw [Declaration.walk, if_neg other, static.callees]
      exact ⟨⟨names.moves, names.depth, names.log, names.proper, names.table⟩, returns, static.code _ _, rfl⟩
    rcases localVariable_cases run with ⟨linkage, run⟩ | ⟨linkage, run⟩ | ⟨linkage, run⟩
    · obtain ⟨declares, code⟩ := localExternal_declares run
      refine static (by rw [linkage]; exact Linkage.noConfusion) ?_ code
      exact declares.names move start.proper declarable
    · obtain ⟨⟨storage, introduces⟩, code⟩ := localStatic_introduces run
      refine static (by rw [linkage]; exact Linkage.noConfusion) ?_ code
      exact introduces.names move start.proper declarable
    · obtain ⟨-, run⟩ := localAutomatic_steps run
      rw [Declaration.walk, if_pos linkage]
      exact (course_declareVariable object declarable (course_fillVariable v) s () s' start run).1

end Declarations

/-! ## Statements -/

section Parts

variable {returned : Option CType}

theorem course_conditionValue (e : Expr) :
    HasCourse returned (.evaluate e) e.callees (conditionValue e) fun v => v.Fits ∧ v.type.isScalar = true := by
  refine course_last (course_value e) fun v hv => ?_
  obtain ⟨a, made⟩ := hv
  exact course_skip (fun _ => enacts_requireScalar _ _ _) fun _ scalar =>
    course_silent fun _ => enacts_pure ⟨made.typed.fits, scalar⟩

theorem enacts_return {T : Scopes} : Enacts T [] (emit .ret .none []) fun _ => True :=
  enacts_idle ⟨trivial, rfl⟩ rfl rfl (forall_mem_nil _)

theorem course_setret {type : CType} {v : Value} (hv : v.HasType type) (scalar : type.isScalar = true) :
    HasCourse (some type) .stay [] (emit .setret .none [v.operand]) fun _ => True := by
  intro s u s' start run
  obtain ⟨bytes, -, rfl⟩ := emit_eq_ok.1 run
  have sound := hv.sound (N := s.scopes.offered) scalar
  refine ⟨⟨names_same start.proper rfl rfl (suffix_refl _) rfl, rfl, ⟨[_], rfl, .single ?_ ?_ ?_⟩, rfl⟩, trivial⟩
  · exact ⟨congrArg some hv.encoding.symm, rfl⟩
  · exact Instr.references_within (within_cons sound.within within_nil)
  · exact carriesOut_idle ⟨rfl, rfl, forall_mem_singleton.2 sound.solid⟩

theorem course_returnStatement (value? : Option Expr) (loc : Location) :
    HasCourse returned (.evaluate? value?) (optionCallees value?) (returnStatement value? loc) fun _ => True := by
  have whole : HasCourse returned (Walk.stay.andThen (.evaluate? value?)) ([] ++ optionCallees value?)
      (returnStatement value? loc) fun _ => True := by
    refine course_bind course_get fun t ht => ?_
    rw [ht]
    cases returned with
    | none => exact course_throw
    | some type =>
      cases value? with
      | none =>
        show HasCourse _ _ _ (if type.isVoid = true then _ else _) _
        split
        · exact course_silent fun _ => enacts_return
        · exact course_throw
      | some e =>
        show HasCourse _ _ _ (if type.isVoid = true then _ else _) _
        split
        · exact course_throw
        refine course_last (course_value e) fun v hv => ?_
        obtain ⟨a, made⟩ := hv
        refine course_skip (fun _ => enacts_convertAssigned made type e.loc) fun w hw => ?_
        refine course_last (course_setret hw.1.typed hw.2) fun _ _ => course_silent fun _ => enacts_return
  exact whole

theorem course_leave (target : LoopLabels → Int32) (what : Unsupported) (loc : Location) :
    HasCourse returned .stay [] (leaveLoop target what loc) fun _ => True := by
  refine course_last course_get fun t _ => ?_
  cases t.loops with
  | nil => exact course_throw
  | cons labels rest => exact course_silent fun _ => enacts_jump _

/-- Statements are graded by the way through them and by what they call. -/
def coursing : Grading (Walk × List Expr) where
  one := (.stay, [])
  mul g g' := (g.1.andThen g'.1, g.2 ++ g'.2)
  inside g := (.inside g.1, g.2)
  evaluation e := (.evaluate e, e.callees)
  declarations ds := (.all Declaration.walk ds, ds.flatMap Declaration.callees)
  one_mul _ := rfl
  mul_one g := Prod.ext g.1.andThen_stay (append_nil g.2)
  nil := rfl
  cons d _ := Prod.ext (congrArg (Walk.andThen · _) d.walk.andThen_stay.symm)
    (congrArg (· ++ _) (append_nil d.callees).symm)

theorem grades_courses :
    coursing.Grades (fun st => (st.walk, st.callees)) fun body => (Stmt.walkAll body, Stmt.allCallees body) where
  expr _ _ := rfl
  block _ _ := rfl
  ifThen _ _ _ := rfl
  ifElse _ _ _ _ := rfl
  whileLoop _ _ _ := rfl
  doWhile _ _ _ := rfl
  forLoop _ init cond step _ := by
    have optional : ∀ e, coursing.optional e = (.evaluate? e, optionCallees e) := by rintro (_ | _) <;> rfl
    have opening : coursing.opening init =
        ((init.map ForInit.walk).getD .stay, (init.map ForInit.callees).getD []) := by
      rcases init with _ | _ | _ <;> rfl
    rw [optional, optional, opening]
    rfl
  ret _ e := by cases e <;> rfl
  decls _ _ := rfl
  brk _ := rfl
  cont _ := rfl
  empty _ := rfl
  none := rfl
  more _ _ := rfl

theorem sequential_course : Sequential .identity Declaration.WellFormed coursing
    fun g m _ => HasCourse returned g.1 g.2 m fun _ => True where
  done := course_pure
  evaluation e := course_discard (course_value e)
  declaration {d} wellFormed := by
    rw [show coursing.declarations [d] = (d.walk, d.callees) from
      Prod.ext d.walk.andThen_stay (append_nil d.callees)]
    exact course_localDeclaration wellFormed
  returning e loc := by
    rw [show coursing.optional e = (.evaluate? e, optionCallees e) by cases e <;> rfl]
    exact course_returnStatement e loc
  onBreak loc := course_leave _ _ loc
  onContinue loc := course_leave _ _ loc
  scope inner := course_scoped (course_bracketed inner)
  bind first rest := course_bind first fun a _ => rest a
  freshLabel := course_silent fun _ => enacts_freshLabel
  defineLabel _ := course_silent fun _ => enacts_defineLabel _
  jump _ := course_silent fun _ => enacts_jump _
  branchOn _ e _ := by
    refine course_last (course_conditionValue e) fun v hv => ?_
    exact course_skip (fun _ => enacts_compareZero hv.1 hv.2) fun _ _ => course_silent fun _ => enacts_branch _ _
  decision cond _ _ _ inner := by
    refine course_bind (course_conditionValue cond) fun c hc => ?_
    refine course_skip (fun _ => enacts_freshLabel) fun l _ => course_skip (fun _ => enacts_freshLabel) fun l' _ => ?_
    refine course_skip (fun _ => enacts_compareZero hc.1 hc.2) fun _ _ => ?_
    exact course_skip (fun _ => enacts_branch _ _) fun _ _ => inner l l'
  inLoop labels := course_inLoop labels

theorem course_statements (returned : Option CType) (body : List Stmt)
    (wellFormed : ∀ d ∈ Stmt.allDeclarations body, d.WellFormed) :
    HasCourse returned (Stmt.walkAll body) (Stmt.allCallees body) (statements body) fun _ => True :=
  sequential_course.structured.statements grades_courses body wellFormed

end Parts

/-! ## Functions -/

section Functions

variable {returned : Option CType}

variable {type : CType}

theorem isFunction_of_isScalar (h : type.isScalar = true) : type.isFunction = false := by
  cases type with
  | function => cases h
  | _ => rfl

theorem course_bindParameters (loc : Location) (index : Nat) {params : List Param}
    (scalar : ∀ p ∈ params, p.type.isScalar = true) :
    HasCourse returned (.all Param.walk params) [] (bindParameters loc index params) fun _ => True := by
  induction params generalizing index with
  | nil => exact course_pure
  | cons p rest ih =>
    obtain ⟨first, later⟩ := forall_mem_cons.1 scalar
    have declared : HasCourse returned (p.walk.andThen .stay) []
        (declareVariable (p.name.getD []) p.type loc (takeArgument index)) fun _ => True := by
      refine course_declareVariable (isFunction_of_isScalar first) (CType.declarable_of_isScalar first) fun id => ?_
      refine course_silent fun _ => enacts_idle ⟨trivial, rfl⟩ rfl rfl ?_
      exact sound_two (sound_imm _ _) (sound_var (notVoid_of_isScalar first) id)
    rw [bindParameters_cons]
    exact course_bind declared fun _ _ => ih (index + 1) later

theorem course_functionFrame {f : FunctionDecl} {body : List Stmt} (function : f.WellFormed)
    (wellFormed : ∀ d ∈ Stmt.allDeclarations body, d.WellFormed) (proper : s.scopes.Proper)
    (returns : s.returnType = returned) (run : functionFrame f body s = .ok () s') :
    Course returned (.inside (.inside ((Walk.all Param.walk f.params).andThen (Stmt.walkAll body))))
      (Stmt.allCallees body) s s' := by
  have inner : HasCourse returned ((Walk.all Param.walk f.params).andThen (Stmt.walkAll body)) (Stmt.allCallees body)
      (do
        bindParameters f.loc 0 f.params
        bracketed (statements body)) fun _ => True :=
    course_bind (course_bindParameters f.loc 0 function.params) fun _ _ =>
      course_bracketed (course_statements returned body wellFormed)
  have whole : HasCourse returned (.inside ((Walk.all Param.walk f.params).andThen (Stmt.walkAll body)))
      (Stmt.allCallees body) (do
        emit .prologue .none []
        inScope (do
          bindParameters f.loc 0 f.params
          bracketed (statements body))
        emit .epilogue .none []
        emit .ret .none []) fun _ => True := by
    refine course_skip (fun _ => enacts_idle ⟨trivial, rfl⟩ rfl rfl (forall_mem_nil _)) fun _ _ => ?_
    refine course_last (course_scoped inner) fun _ _ => ?_
    refine course_skip (fun _ => enacts_idle ⟨trivial, rfl⟩ rfl rfl (forall_mem_nil _)) fun _ _ => ?_
    exact course_silent fun _ => enacts_return
  rw [functionFrame_eq] at run
  exact course_inScope whole proper returns run

end Functions

/-! ## Programs -/

/-- The code of a piece of file scope: directives for a declaration, and for a function its name and a
body that fits what it returns. -/
def TypedItem : TopLevel → List Instr → Prop
  | .declare _, code => ∀ i ∈ code, i.InBody none
  | .define f _, code =>
    ∃ body, code = .function f.name :: body ∧ ∀ i ∈ body, i.InBody (some f.result)

/-- The code of a piece of file scope, under a table of names. -/
structure PieceCode (N : Set Name) (t : TopLevel) (item : List Instr) : Prop where
  typed : TypedItem t item
  refers : Refers N t.callees item

theorem topLevel_course {t : TopLevel} (wellFormed : ∀ d ∈ t.declarations, d.WellFormed) (proper : s.scopes.Proper)
    (run : topLevel t s = .ok () s') : ∃ item, Names t.walk s s' ∧ s'.code = item.reverse ++ s.code ∧
      CarriesOut (t.walk.events s.scopes.bare) item ∧ PieceCode s'.scopes.offered t item := by
  match t with
  | .declare (.proto f) =>
    have function : f.WellFormed := wellFormed (.proto f) (mem_singleton.2 rfl)
    refine ⟨[], names_declareFunction function proper run, (declareFunction_links run).declares.2, .nil, ?_, ?_⟩
    · exact forall_mem_nil _
    · exact ⟨forall_mem_nil _, .nil⟩
  | .declare (.var v) =>
    have object : v.WellFormed := wellFormed (.var v) (mem_singleton.2 rfl)
    obtain ⟨declares, callees, code⟩ := globalVariable_declares run
    obtain ⟨part, code, enacted⟩ := code none s'.scopes.offered
    refine ⟨part, ?_, code, enacted.carriesOut, enacted.typed, enacted.names, ?_⟩
    · exact declares.names (.globalVariable object.notFunction run) proper
        (Declaration.WellFormed.declarable (d := .var v) object)
    · rw [TopLevel.callees, Declaration.callees, callees]
      exact enacted.carriesOut.calls
  | .define f body =>
    obtain ⟨function, inner⟩ := forall_mem_cons.1 wellFormed
    obtain ⟨_, u, declared, defined⟩ := bind_eq_ok.1 run
    have names := names_declareFunction function proper declared
    rw [← (declareFunction_links declared).declares.2]
    obtain ⟨-, -, t, a, -, named, frame, -, rfl⟩ := defineFunction_steps defined
    obtain ⟨bytes, -, rfl⟩ := emit_eq_ok.1 named
    have opened : Names .stay u { u.push (.function f.name) bytes with
        returnType := some f.result, currentFunction := some f.name } :=
      names_same names.proper rfl rfl (suffix_refl _) rfl
    have course := course_functionFrame function inner opened.proper rfl frame
    obtain ⟨part, code, enacted⟩ := course.code
    have all := (names.trans opened).trans course.toNames
    have events : (TopLevel.define f body).walk.events s.scopes.bare =
        Walk.events (.inside (.inside ((Walk.all Param.walk f.params).andThen (Stmt.walkAll body)))) u.scopes.bare := by
      rw [names.table]
      rfl
    refine ⟨.function f.name :: part, ⟨all.moves.tail (.other rfl rfl (suffix_cons _ _)), all.depth, all.log,
      all.proper, all.table⟩, ?_, ?_, ⟨part, rfl, enacted.typed⟩, ?_⟩
    · show a.code = _
      rw [code, reverse_cons, append_assoc]
      rfl
    · rw [events]
      exact .idle ⟨rfl, rfl, forall_mem_singleton.2 rfl⟩ enacted.carriesOut
    · refine ⟨forall_mem_cons.2 ⟨forall_mem_nil _, enacted.names⟩, ?_⟩
      have calls := enacted.carriesOut.calls
      rw [course.calls] at calls
      exact calls

/-- Pieces of file scope one after the other: each has its own stretch of the code, and nothing that was offered
once is lost.  The code as a whole carries out what happens in the pieces. -/
theorem topLevels_course {ts : List TopLevel} (wellFormed : ∀ t ∈ ts, ∀ d ∈ t.declarations, d.WellFormed)
    (proper : s.scopes.Proper) (run : ts.forM topLevel s = .ok () s') : ∃ items, Names (.all TopLevel.walk ts) s s' ∧
      s'.code = items.flatten.reverse ++ s.code ∧
      CarriesOut ((Walk.all TopLevel.walk ts).events s.scopes.bare) items.flatten ∧
      List.Forall₂ (fun t item => t.Shape item ∧ PieceCode s'.scopes.offered t item) ts items := by
  induction ts generalizing s with
  | nil =>
    obtain ⟨-, rfl⟩ := pure_eq_ok.1 run
    exact ⟨[], names_refl proper, rfl, .nil, .nil⟩
  | cons t ts ih =>
    obtain ⟨first, later⟩ := forall_mem_cons.1 wellFormed
    obtain ⟨_, u, ran, rest⟩ := bind_eq_ok.1 run
    obtain ⟨part, names, written, carriesOut, piece⟩ := topLevel_course first proper ran
    obtain ⟨items, names', code, carriesOut', pieces⟩ := ih later names.proper rest
    obtain ⟨item, news, shape, provided, -⟩ := topLevel_eq_ok ran
    -- The code of a piece is one and the same list.
    obtain rfl : item = part :=
      reverse_injective (append_cancel_right (provided.written.code.symm.trans written))
    refine ⟨item :: items, names.trans names', ?_, ?_, .cons ⟨shape, ?_⟩ pieces⟩
    · rw [code, written, flatten_cons, reverse_append, append_assoc]
    · have events : (Walk.all TopLevel.walk (t :: ts)).events s.scopes.bare =
          t.walk.events s.scopes.bare ++ (Walk.all TopLevel.walk ts).events u.scopes.bare := by
        rw [names.table]
        exact flatMap_append
      rw [events, flatten_cons]
      exact carriesOut.append carriesOut'
    · exact ⟨piece.typed, piece.refers.mono names'.offered⟩

/-! ## Types with and without code

The type of an expression can be found in two ways: by making code for it, and by `typeOf`, which makes none.
Both give the same.  That the operand of a value is annotated with its type, and that places have the type that is
found for them, is part of what is known of the code of any expression.  What remains is that the names of a
program can be declared, wherever code is made for it. -/

theorem proper_of_reached {source : Bytes} {p : Program} (parsed : Program.parse source = .ok p)
    (h : Reached p s) : s.scopes.Proper := fun entry mem =>
  (Program.wellFormed_of_parse parsed).declarable (h.bound entry mem).1

/-- Whatever is found by making code for an expression agrees with what is found without: the type of
the value is the decayed type of the expression, and the type of a place is the type itself. -/
theorem typeOf_of_lowered {source : Bytes} {p : Program} (parsed : Program.parse source = .ok p)
    (reached : Reached p s) (e : Expr) :
    (∀ v s', value e s = .ok v s' → ∃ u, typeOf s.scopes e = .ok u ∧ v.type = u.decay) ∧
      ∀ pl s', place e s = .ok pl s' → typeOf s.scopes e = .ok pl.type := by
  have proper := proper_of_reached parsed reached
  constructor
  · intro v s' run
    obtain ⟨u, found, made⟩ := (enacts_value proper e s v s' rfl run).2.typed
    exact ⟨u, found, made.typed.type⟩
  · intro pl s' run
    exact (enacts_place proper e s pl s' rfl run).2.typed

/-- A row of a matrix is an array, and as a value a pointer to its first element. -/
theorem typeOf_of_lowered_row :
    ∃ p v s', Program.parse (ascii "int m[2][3];") = .ok p ∧ Reached p (stateAfter (program p) {}) ∧
      value (.index ⟨2, 2⟩ (.ident ⟨2, 1⟩ (ascii "m")) (.int ⟨2, 3⟩ 1)) (stateAfter (program p) {}) = .ok v s' ∧
      v.type = .pointer .int ∧
      ∃ u, typeOf (stateAfter (program p) {}).scopes
          (.index ⟨2, 2⟩ (.ident ⟨2, 1⟩ (ascii "m")) (.int ⟨2, 3⟩ 1)) = .ok u ∧
        v.type = u.decay := by
  have computed : (Program.parse (ascii "int m[2][3];")).toOption.any (fun p =>
      succeeds (value (.index ⟨2, 2⟩ (.ident ⟨2, 1⟩ (ascii "m")) (.int ⟨2, 3⟩ 1))) (stateAfter (program p) {})
        fun v _ => v.type == .pointer .int) = true := by decide +kernel
  obtain ⟨p, parsed, holds⟩ := ok_of_any computed
  obtain ⟨v, s', run, pointer⟩ := ok_of_succeeds holds
  have reached := reached_program p
  exact ⟨p, v, s', parsed, reached, run, beq_iff_eq.1 pointer, (typeOf_of_lowered parsed reached _).1 v s' run⟩

/-! ## The code of a program is well typed

Within a function every instruction fits the type that the function returns: expressions add
instructions that fit any function, and `return` adds the one `setret`, whose operand has been
converted to that type.

A program is then a sequence of directives and of function bodies, each behind the directive that
names its function, so the function that an instruction belongs to is the one named last before it. -/

section Programs

variable {source : Bytes} {p : Program} (parsed : Program.parse source = .ok p)
include parsed

/-- The code of a program is well typed, piece by piece, and so is every value that is made on the way:
its operand is annotated with its type. -/
theorem program_wellTyped (run : program p {} = .ok () s) :
    (∃ items, List.Forall₂ TypedItem p items ∧ s.code.reverse = items.flatten) ∧
      ∀ t, Reached p t → ∀ e v t', value e t = .ok v t' → v.operand.encoding = v.type.encoding := by
  constructor
  · obtain ⟨u, _, items, -, rfl⟩ := program_steps run
    obtain ⟨parts, -, code, -, made⟩ := topLevels_course (Program.wellFormed_of_parse parsed) proper_empty items
    exact ⟨parts, made.imp fun _ _ piece => piece.2.typed, by simpa using congrArg List.reverse code⟩
  · intro t reached e v t' lowered
    obtain ⟨_, -, made⟩ := (enacts_value (proper_of_reached parsed reached) e t v t' rfl lowered).2.typed
    exact made.typed.fits.encoding

end Programs

/-- A function that converts what it returns. -/
theorem program_wellTyped_widening :
    ∃ p s, Program.parse (ascii "long f(int a)\x7breturn a;\x7d") = .ok p ∧
      program p {} = .ok () s ∧ (∃ i ∈ s.code, i.opcode = .cvt) ∧ (∃ i ∈ s.code, i.opcode = .setret) ∧
      (∃ items, List.Forall₂ TypedItem p items ∧ s.code.reverse = items.flatten) ∧
      ∀ t, Reached p t → ∀ e v t', value e t = .ok v t' → v.operand.encoding = v.type.encoding := by
  have computed : (Program.parse (ascii "long f(int a)\x7breturn a;\x7d")).toOption.any (fun p =>
      succeeds (program p) {} fun _ s => s.code.any (·.opcode == .cvt) && s.code.any (·.opcode == .setret)) = true :=
    by decide +kernel
  obtain ⟨p, parsed, holds⟩ := ok_of_any computed
  obtain ⟨_, s, run, holds⟩ := ok_of_succeeds holds
  simp only [Bool.and_eq_true, List.any_eq_true, beq_iff_eq] at holds
  exact ⟨p, s, parsed, run, holds.1, holds.2, program_wellTyped parsed run⟩

end Lowering

end Cof
