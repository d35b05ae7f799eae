/-
  Code does not depend on positions, nor on the names of variables.

  Lowering a relabeled program is lowering the program and relabeling the result, whether that is a state
  or an error.  The proof goes through the whole of lowering, from the single instruction up, with one
  statement for each step; what it needs to know of the program is that names which reach the module are
  kept.
-/
import Cof.Compile
import Cof.Proofs.Structured

namespace Cof

open List

namespace Lowering

/-! ## Types without code -/

section Typing

variable {ρ : Relabeling}

theorem mapError_bind {ε α β : Type} (g : ε → ε) (x : Except ε α) (f : α → Except ε β) :
    (x >>= f).mapError g = x.mapError g >>= fun a => (f a).mapError g := by
  cases x <;> rfl

theorem binaryType_relabel (op : BinOp) (left right : CType) (loc : Location) :
    binaryType op left right (ρ.loc loc) = (binaryType op left right loc).mapError (·.relabel ρ) := by
  unfold binaryType
  split
  · rfl
  split
  · rfl
  split
  · rfl
  split
  · rfl
  cases resultType? op left right <;> rfl

theorem unaryType_relabel (op : UnOp) (type : CType) (loc : Location) :
    unaryType op type (ρ.loc loc) = (unaryType op type loc).mapError (·.relabel ρ) := by
  unfold unaryType
  cases op with
  | deref => cases type.decay.pointee? <;> rfl
  | _ => rfl

theorem indexType_relabel (base index : CType) (loc : Location) :
    indexType base index (ρ.loc loc) = (indexType base index loc).mapError (·.relabel ρ) := by
  unfold indexType
  cases base.pointee? <|> index.pointee? <;> rfl

theorem typeOf_relabel (scopes : Scopes) (e : Expr) :
    typeOf (scopes.relabel ρ) (e.relabel ρ) = (typeOf scopes e).mapError (·.relabel ρ) := by
  match e with
  | .int .. | .float .. | .char .. | .string .. | .member .. | .cast .. | .sizeofType .. | .sizeofExpr .. =>
    rfl
  | .ident loc name =>
    rw [Expr.relabel, Expr.translate, typeOf, typeOf, Scopes.lookup_relabel]
    cases scopes.lookup name <;> rfl
  | .binary loc op left right =>
    rw [Expr.relabel, Expr.translate, typeOf, typeOf]
    split
    · rfl
    · simp only [mapError_bind, typeOf_relabel scopes left, typeOf_relabel scopes right, binaryType_relabel]
  | .unary loc op operand =>
    rw [Expr.relabel, Expr.translate, typeOf, typeOf]
    simp only [mapError_bind, typeOf_relabel scopes operand, unaryType_relabel]
  | .step loc change fixity operand =>
    exact typeOf_relabel scopes operand
  | .assign loc target op source =>
    exact typeOf_relabel scopes target
  | .call loc callee args =>
    rw [Expr.relabel, Expr.translate, typeOf, typeOf, mapError_bind, typeOf_relabel scopes callee]
    congr 1
    funext type
    cases (calleeType type).result? <;> rfl
  | .index loc base index =>
    rw [Expr.relabel, Expr.translate, typeOf, typeOf]
    simp only [mapError_bind, typeOf_relabel scopes base, typeOf_relabel scopes index, indexType_relabel]
  | .conditional loc cond yes no =>
    rw [Expr.relabel, Expr.translate, typeOf, typeOf]
    simp only [mapError_bind, typeOf_relabel scopes yes, typeOf_relabel scopes no]
    rfl

theorem mirrors_inferred (e : Expr) : Mirrors ρ (inferred e) (inferred (e.relabel ρ)) := by
  refine mirrors_get fun s _ => ?_
  have same : typeOf (s.relabel ρ).scopes (e.relabel ρ) = _ := typeOf_relabel s.scopes e
  rw [same]
  cases typeOf s.scopes e with
  | ok type => exact mirrors_pure type
  | error err => exact mirrors_throw err

end Typing

/-! ## Expressions -/

section Expressions

variable {ρ : Relabeling}

theorem mirrors_compute (opcode : Opcode) (qualifier : Qualifier) (type : CType) (operands : List Operand) :
    Mirrors ρ (compute opcode qualifier type operands) (compute opcode qualifier type operands) :=
  mirrors_bind (mirrors_temporary type) fun _ => mirrors_bind (mirrors_emit _ _ _) fun _ => mirrors_pure _

theorem mirrors_notePlace (loc : Location) (p : Place) : Mirrors ρ (notePlace loc p) (notePlace (ρ.loc loc) p) :=
  mirrors_bind (mirrors_noteType loc p.type) fun _ => mirrors_pure _

theorem mirrors_namedPlace (loc : Location) (name : Name) :
    Mirrors ρ (namedPlace loc name) (namedPlace (ρ.loc loc) (ρ.name name)) := by
  refine mirrors_lookup name fun found _ => ?_
  cases found with
  | none => exact mirrors_fail (.undefinedVariable name) loc
  | some symbol => exact mirrors_notePlace loc _

theorem mirrors_resolveCallee (callee : Expr) (loc : Location) :
    Mirrors ρ (resolveCallee callee loc) (resolveCallee (callee.relabel ρ) (ρ.loc loc)) := by
  cases callee with
  | ident nameLoc name =>
    refine mirrors_lookup name fun found kept => ?_
    cases found with
    | none => exact mirrors_fail (.undefinedFunction name) nameLoc
    | some symbol =>
      obtain ⟨bound, type, depth, storage⟩ := symbol
      cases type with
      | function result params variadic =>
        -- What is in sight as a function was bound under a name that is kept.
        have same : ρ.translation.name name = name := kept _ rfl rfl
        rw [same]
        exact mirrors_bind (mirrors_noteType nameLoc _) fun _ => mirrors_pure _
      | _ => exact mirrors_fail (.unsupported (.callThrough name)) loc
  | _ =>
    exact mirrors_fail (.unsupported .indirectCall) loc

theorem congruence_mirrors : Congruence ρ (Mirrors ρ) where
  pure _ := mirrors_pure _
  fail := mirrors_fail
  bind := mirrors_then
  noteType := mirrors_noteType
  emit _ _ := mirrors_emit _ _ _
  compute _ _ _ := mirrors_compute _ _ _ _
  namedPlace := mirrors_namedPlace
  resolveCallee := mirrors_resolveCallee
  inferred := mirrors_inferred

theorem flowCongruence_mirrors : FlowCongruence ρ (Mirrors ρ) :=
  StepTracking.flow ⟨congruence_mirrors, mirrors_freshLabel, mirrors_temporary, fun _ _ => mirrors_emit _ _ _⟩

theorem mirrors_value (e : Expr) : Mirrors ρ (value e) (value (e.relabel ρ)) := flowCongruence_mirrors.value e []

end Expressions

/-! ## Declarations -/

section Declarations

variable {ρ : Relabeling}

theorem mirrors_bindGlobal {name : Name} (kept : ρ.name name = name) (type : CType) (loc : Location) :
    Mirrors ρ (bindGlobal name type loc) (bindGlobal (ρ.name name) type (ρ.loc loc)) := by
  refine mirrors_get fun s _ => ?_
  have found : ((s.relabel ρ).scopes.lookupCurrent (ρ.name name)).isNone = (s.scopes.lookupCurrent name).isNone := by
    have same : (s.relabel ρ).scopes.lookupCurrent (ρ.name name) = _ := Scopes.lookupCurrent_relabel s.scopes name
    rw [same, Option.isNone_map]
  rw [found]
  exact mirrors_ite (fun _ => mirrors_bindLinked kept type loc) fun _ => mirrors_pure _

variable {f : FunctionDecl}

theorem mirrors_recordFunction (kept : ρ.name f.name = f.name) (isDefinition : Bool) :
    Mirrors ρ (recordFunction f isDefinition) (recordFunction (f.relabel ρ) isDefinition) := by
  have conflict : ∀ why, Mirrors ρ (fail (.conflictingDeclaration f.name why) f.loc : Lower Unit)
      (fail (.conflictingDeclaration (ρ.name f.name) why) (ρ.loc f.loc)) := fun why =>
    mirrors_fail (.conflictingDeclaration f.name why) f.loc
  unfold recordFunction
  simp only [FunctionDecl.type_relabel]
  refine mirrors_bind (mirrors_global? kept) fun found => ?_
  cases found with
  | none => exact mirrors_addGlobal kept
  | some g =>
    refine mirrors_ite (fun _ => conflict _) fun _ => mirrors_ite (fun _ => conflict _) fun _ => ?_
    exact mirrors_ite (fun _ => conflict _) fun _ => mirrors_refineGlobal kept _ _

theorem mirrors_declareFunction (kept : ρ.name f.name = f.name) (isDefinition : Bool) :
    Mirrors ρ (declareFunction f isDefinition) (declareFunction (f.relabel ρ) isDefinition) := by
  unfold declareFunction
  rw [FunctionDecl.type_relabel]
  exact mirrors_bind (mirrors_recordFunction kept isDefinition) fun _ => mirrors_bindGlobal kept _ _

theorem constantBits?_relabel (type : CType) (init : Expr) :
    constantBits? type (init.relabel ρ) = constantBits? type init := by
  have literal : literalOf (init.relabel ρ) = ((literalOf init).1.relabel ρ, (literalOf init).2) := by
    cases init with
    | unary loc op operand => cases op <;> rfl
    | _ => rfl
  have floating : ∀ e : Expr, floatingLiteral? (e.relabel ρ) = floatingLiteral? e := fun e => by
    cases e <;> rfl
  have integer : ∀ e : Expr, integerLiteral? (e.relabel ρ) = integerLiteral? e := fun e => by
    cases e <;> rfl
  unfold constantBits?
  rw [literal]
  simp only [floating, integer]

theorem mirrors_constantOperand (v : VarDecl) (init : Expr) :
    Mirrors ρ (constantOperand v init) (constantOperand (v.relabel ρ) (init.relabel ρ)) := by
  have loc : (init.relabel ρ).loc = ρ.loc init.loc := init.loc_relabel
  have bits : constantBits? (v.relabel ρ).type (init.relabel ρ) = constantBits? v.type init :=
    constantBits?_relabel v.type init
  unfold constantOperand
  rw [loc, bits]
  refine mirrors_ite (fun _ => mirrors_fail (.unsupported (.initializer v.name v.type)) init.loc) fun _ => ?_
  cases constantBits? v.type init with
  | some bits => exact mirrors_pure _
  | none => exact mirrors_fail (.unsupported (.nonConstantInitializer v.name)) init.loc

theorem mirrors_initialValue (v : VarDecl) : Mirrors ρ (initialValue v) (initialValue (v.relabel ρ)) := by
  unfold initialValue
  have init : (v.relabel ρ).init = v.init.map (·.relabel ρ) := rfl
  rw [init]
  cases v.init with
  | none => exact mirrors_pure _
  | some init => exact mirrors_bind (mirrors_constantOperand v init) fun _ => mirrors_pure _

theorem mirrors_defineObject (name : Name) (v : VarDecl) (isStatic : Bool) :
    Mirrors ρ (defineObject name v isStatic) (defineObject name (v.relabel ρ) isStatic) := by
  refine mirrors_bind (mirrors_initialValue v) fun value => mirrors_bind mirrors_offset fun start => ?_
  exact mirrors_bind (mirrors_emit _ _ _) fun _ => mirrors_modify (fun _ => rfl) fun _ => rfl

variable {v : VarDecl}

theorem mirrors_announceExternal (kept : ρ.name v.name = v.name) :
    Mirrors ρ (announceExternal v) (announceExternal (v.relabel ρ)) := by
  have name : (v.relabel ρ).name = v.name := kept
  unfold announceExternal
  rw [name]
  exact mirrors_emit _ _ _

theorem mirrors_recordVariable (kept : ρ.name v.name = v.name) (isDefinition isStatic : Bool) :
    Mirrors ρ (recordVariable v isDefinition isStatic) (recordVariable (v.relabel ρ) isDefinition isStatic) := by
  refine mirrors_bind (mirrors_global? kept) fun found => ?_
  cases found with
  | none => exact mirrors_bind (mirrors_addGlobal kept) fun _ => mirrors_bindLinked kept v.type v.loc
  | some g =>
    refine mirrors_ite (fun _ => ?_) fun _ => mirrors_ite (fun _ => ?_) fun _ => ?_
    · exact mirrors_fail (.conflictingDeclaration v.name (.redeclared v.type)) v.loc
    · exact mirrors_fail (.duplicateSymbol v.name) v.loc
    · exact mirrors_bind (mirrors_refineGlobal kept _ _) fun _ => mirrors_bindGlobal kept _ _

theorem isSome_init_relabel (v : VarDecl) : (v.relabel ρ).init.isSome = v.init.isSome := by
  show (v.init.map _).isSome = _
  rw [Option.isSome_map]

theorem mirrors_globalVariable (kept : ρ.name v.name = v.name) :
    Mirrors ρ (globalVariable v) (globalVariable (v.relabel ρ)) := by
  have name : (v.relabel ρ).name = v.name := kept
  unfold globalVariable
  rw [isSome_init_relabel, name]
  refine mirrors_bind (mirrors_recordVariable kept _ _) fun _ => ?_
  exact mirrors_ite (fun _ => mirrors_defineObject _ v _) fun _ => mirrors_announceExternal kept

theorem mirrors_localExternal (kept : ρ.name v.name = v.name) :
    Mirrors ρ (localExternal v) (localExternal (v.relabel ρ)) := by
  have bind := mirrors_bindLinked kept v.type v.loc
  unfold localExternal
  rw [isSome_init_relabel]
  refine mirrors_ite (fun _ => mirrors_fail (.unsupported (.externalInitializer v.name)) v.loc) fun _ => ?_
  refine mirrors_bind (mirrors_global? kept) fun found => ?_
  cases found with
  | none =>
    refine mirrors_bind bind fun _ => mirrors_bind (mirrors_addGlobal kept) fun _ => ?_
    exact mirrors_announceExternal kept
  | some g =>
    refine mirrors_ite (fun _ => ?_) fun _ => mirrors_bind bind fun _ => mirrors_announceExternal kept
    exact mirrors_fail (.conflictingDeclaration v.name (.redeclared v.type)) v.loc

theorem mirrors_localStatic (kept : ρ.name v.name = v.name) :
    Mirrors ρ (localStatic v) (localStatic (v.relabel ρ)) := by
  have name : (v.relabel ρ).name = v.name := kept
  refine mirrors_get fun s fits => ?_
  show Mirrors ρ _ (set ({ s with statics := s.statics + 1 }.relabel ρ) >>= fun _ =>
    bindName (ρ.name v.name) v.type
      (.global (staticName (s.currentFunction.getD []) (v.relabel ρ).name s.statics)) (ρ.loc v.loc) >>= fun _ =>
    defineObject (staticName (s.currentFunction.getD []) (v.relabel ρ).name s.statics) (v.relabel ρ) true)
  rw [name]
  refine mirrors_bind (mirrors_set fits) fun _ => ?_
  exact mirrors_bind (mirrors_bindName _ _ fun _ => kept) fun _ => mirrors_defineObject _ v true

theorem mirrors_declareVariable {name : Name} {type : CType} {fill fill' : Operand → Lower Unit} (loc : Location)
    (kept : type.isFunction = true → ρ.name name = name) (h : ∀ target, Mirrors ρ (fill target) (fill' target)) :
    Mirrors ρ (declareVariable name type loc fill) (declareVariable (ρ.name name) type (ρ.loc loc) fill') :=
  mirrors_bind mirrors_freshVariable fun id => mirrors_bind (mirrors_bindName _ _ kept) fun _ =>
    mirrors_bind (mirrors_createVariable id type) h

theorem mirrors_localAutomatic (kept : v.type.isFunction = true → ρ.name v.name = v.name) :
    Mirrors ρ (localAutomatic v) (localAutomatic (v.relabel ρ)) := by
  refine mirrors_ite (fun _ => mirrors_fail (.unsupported (.incompleteVariable v.name v.type)) v.loc) fun _ => ?_
  refine mirrors_declareVariable v.loc kept fun target => ?_
  exact flowCongruence_mirrors.fillVariable v target [] trivial

theorem mirrors_localDeclaration {d : Declaration} (keeps : ρ.Keeps d) :
    Mirrors ρ (localDeclaration d) (localDeclaration (d.relabel ρ)) := by
  cases d with
  | proto f => exact mirrors_declareFunction keeps false
  | var v =>
    have kept : v.linkage ≠ .plain ∨ v.type.isFunction = true → ρ.name v.name = v.name := keeps
    have linkage : (v.relabel ρ).linkage = v.linkage := rfl
    simp only [localDeclaration, Declaration.relabel, Declaration.translate, linkage]
    cases given : v.linkage with
    | external => exact mirrors_localExternal (kept (.inl (by rw [given]; decide)))
    | static => exact mirrors_localStatic (kept (.inl (by rw [given]; decide)))
    | plain => exact mirrors_localAutomatic fun isFunction => kept (.inr isFunction)

end Declarations

/-! ## Statements -/

section Statements

variable {ρ : Relabeling}

theorem mirrors_discard (e : Expr) : Mirrors ρ (discard (value e)) (discard (value (e.relabel ρ))) :=
  mirrors_map (mirrors_value e)

theorem mirrors_conditionValue (e : Expr) : Mirrors ρ (conditionValue e) (conditionValue (e.relabel ρ)) :=
  flowCongruence_mirrors.conditionValue e []

theorem mirrors_returnStatement (value? : Option Expr) (loc : Location) :
    Mirrors ρ (returnStatement value? loc) (returnStatement (value?.map (·.relabel ρ)) (ρ.loc loc)) :=
  mirrors_get fun s _ => flowCongruence_mirrors.returnAs value? loc s.returnType []

theorem mirrors_leave (target : LoopLabels → Int32) (what : Unsupported) (loc : Location)
    (same : what.relabel ρ = what) : Mirrors ρ (leaveLoop target what loc) (leaveLoop target what (ρ.loc loc)) := by
  refine mirrors_get fun s _ => ?_
  have loops : (s.relabel ρ).loops = s.loops := rfl
  rw [loops]
  cases s.loops with
  | nil =>
    have mirrored := mirrors_fail (α := Unit) (ρ := ρ) (.unsupported what) loc
    rw [Fault.relabel, same] at mirrored
    exact mirrored
  | cons labels rest => exact mirrors_emit _ _ _

theorem sequential_mirrors : Sequential ρ ρ.Keeps .unit fun _ m m' => Mirrors ρ m m' where
  done := mirrors_pure _
  evaluation := mirrors_discard
  declaration := mirrors_localDeclaration
  returning := mirrors_returnStatement
  onBreak loc := mirrors_leave _ _ loc rfl
  onContinue loc := mirrors_leave _ _ loc rfl
  scope inner := mirrors_bind mirrors_enterScope fun _ => mirrors_bind (mirrors_bind (mirrors_emit _ _ _) fun _ =>
    mirrors_bind inner fun _ => mirrors_emit _ _ _) fun _ => mirrors_exitScope
  bind := mirrors_bind
  freshLabel := mirrors_freshLabel
  defineLabel _ := mirrors_emit _ _ _
  jump _ := mirrors_emit _ _ _
  branchOn _ e _ := mirrors_bind (mirrors_conditionValue e) fun v =>
    mirrors_bind (congruence_mirrors.compareZero v) fun _ => mirrors_emit _ _ _
  decision cond _ _ _ inner := by
    refine mirrors_bind (mirrors_conditionValue cond) fun c => ?_
    refine mirrors_bind mirrors_freshLabel fun l => mirrors_bind mirrors_freshLabel fun l' => ?_
    exact mirrors_bind (congruence_mirrors.compareZero c) fun _ => mirrors_bind (mirrors_emit _ _ _) fun _ => inner l l'
  inLoop labels := mirrors_inLoop labels

theorem mirrors_statements (body : List Stmt) (keeps : ∀ d ∈ Stmt.allDeclarations body, ρ.Keeps d) :
    Mirrors ρ (statements body) (statements (Stmt.relabelAll ρ body)) :=
  sequential_mirrors.structured.statements Grading.grades_unit body keeps

end Statements

/-! ## Whole programs -/

section Programs

variable {ρ : Relabeling}

theorem mirrors_bindParameters (loc : Location) (index : Nat) {params : List Param}
    (keeps : ∀ p ∈ params, ρ.KeepsParam p) :
    Mirrors ρ (bindParameters loc index params) (bindParameters (ρ.loc loc) index (params.map (·.relabel ρ))) := by
  induction params generalizing index with
  | nil => exact mirrors_pure _
  | cons p rest ih =>
    obtain ⟨named, kept⟩ := keeps p mem_cons_self
    rw [map_cons, bindParameters_cons, bindParameters_cons]
    simp only [named]
    refine mirrors_bind (mirrors_declareVariable loc kept fun _ => mirrors_emit _ _ _) fun _ => ?_
    exact ih (index + 1) fun p' mem => keeps p' (mem_cons_of_mem _ mem)

variable {f : FunctionDecl} {body : List Stmt}

theorem mirrors_functionFrame
    (params : ∀ p ∈ f.params, ρ.KeepsParam p) (keeps : ∀ d ∈ Stmt.allDeclarations body, ρ.Keeps d) :
    Mirrors ρ (functionFrame f body) (functionFrame (f.relabel ρ) (Stmt.relabelAll ρ body)) := by
  refine mirrors_bind mirrors_enterScope fun _ => mirrors_bind (mirrors_emit _ _ _) fun _ => ?_
  have bound := mirrors_bindParameters f.loc 0 params
  rw [← FunctionDecl.params_relabel] at bound
  refine mirrors_bind mirrors_enterScope fun _ => mirrors_bind bound fun _ => ?_
  refine mirrors_bind (mirrors_emit _ _ _) fun _ => ?_
  refine mirrors_bind (mirrors_statements body keeps) fun _ => mirrors_bind (mirrors_emit _ _ _) fun _ => ?_
  refine mirrors_bind mirrors_exitScope fun _ => mirrors_bind (mirrors_emit _ _ _) fun _ => ?_
  exact mirrors_bind (mirrors_emit _ _ _) fun _ => mirrors_exitScope

theorem mirrors_defineFunction (kept : ρ.name f.name = f.name)
    (params : ∀ p ∈ f.params, ρ.KeepsParam p) (keeps : ∀ d ∈ Stmt.allDeclarations body, ρ.Keeps d) :
    Mirrors ρ (defineFunction f body) (defineFunction (f.relabel ρ) (Stmt.relabelAll ρ body)) := by
  have name : (f.relabel ρ).name = f.name := kept
  unfold defineFunction
  rw [name]
  refine mirrors_bind mirrors_offset fun start => mirrors_bind (mirrors_emit _ _ _) fun _ => ?_
  refine mirrors_get fun s fits => ?_
  -- The function is entered without a change of scopes.
  have inside : Fits ρ { s with returnType := some f.result, currentFunction := some f.name } := fits
  refine mirrors_bind (mirrors_set inside) fun _ => ?_
  refine mirrors_bind (mirrors_functionFrame params keeps) fun _ => ?_
  refine mirrors_bind (mirrors_modify (fun _ => rfl) fun _ => rfl) fun _ => ?_
  exact mirrors_bind mirrors_offset fun stop => mirrors_modify (fun _ => rfl) fun _ => rfl

theorem mirrors_topLevel {t : TopLevel} (keeps : ρ.KeepsItem t) : Mirrors ρ (topLevel t) (topLevel (t.relabel ρ)) := by
  match t with
  | .declare (.proto f) => exact mirrors_declareFunction keeps false
  | .declare (.var v) => exact mirrors_globalVariable keeps
  | .define f body =>
    obtain ⟨kept, params, inner⟩ := keeps
    exact mirrors_bind (mirrors_declareFunction kept true) fun _ => mirrors_defineFunction kept params inner

theorem mirrors_topLevels {ts : List TopLevel} (keeps : ∀ t ∈ ts, ρ.KeepsItem t) :
    Mirrors ρ (ts.forM topLevel) ((ts.map (·.relabel ρ)).forM topLevel) := by
  induction ts with
  | nil => exact mirrors_pure _
  | cons t ts ih =>
    refine mirrors_bind (mirrors_topLevel (keeps t mem_cons_self)) fun _ => ?_
    exact ih fun t' mem => keeps t' (mem_cons_of_mem _ mem)

theorem mirrors_listExternals : Mirrors ρ listExternals listExternals := by
  refine mirrors_modify (fun s => ?_) fun s => ?_
  · exact foldl_hom (State.relabel ρ) fun _ _ => rfl
  · obtain ⟨_, -, same⟩ := exists_foldl_list (s.globals.reverse.filterMap external?) s
    rw [same]

theorem program_relabel {p : Program} (keeps : ∀ t ∈ p, ρ.KeepsItem t) :
    program (p.relabel ρ) {} = relabelResult ρ (program p {}) := by
  have mirrors : Mirrors ρ (program p) (program (p.relabel ρ)) :=
    mirrors_bind (mirrors_topLevels keeps) fun _ => mirrors_listExternals
  exact (mirrors {} (forall_mem_nil _)).1

end Programs

end Lowering

variable {ρ : Relabeling} {p : Program}

theorem Program.start?_relabel (keeps : ∀ t ∈ p, ρ.KeepsItem t) : (p.relabel ρ).start? = p.start?.map ρ.loc := by
  induction p with
  | nil => rfl
  | cons t p ih =>
    have rest := ih fun t' mem => keeps t' (mem_cons_of_mem _ mem)
    have first := keeps t mem_cons_self
    show List.findSome? _ (t.relabel ρ :: Program.relabel ρ p) = (List.findSome? _ (t :: p)).map ρ.loc
    rw [findSome?_cons, findSome?_cons]
    cases t with
    | declare d => exact rest
    | define f body =>
      have name : (f.relabel ρ).name = f.name := first.1
      by_cases entry : f.name = entryName
      · simp only [TopLevel.relabel, TopLevel.translate, name, if_pos entry]
        rfl
      · simp only [TopLevel.relabel, TopLevel.translate, name, if_neg entry]
        exact rest

theorem Program.entryPoint_relabel (keeps : ∀ t ∈ p, ρ.KeepsItem t) : (p.relabel ρ).entryPoint = p.entryPoint := by
  unfold Program.entryPoint
  rw [Program.start?_relabel keeps, Option.isSome_map]

end Cof
