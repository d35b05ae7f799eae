/-
  Lowering of programs with other positions and names.

  A relabeling moves the positions of a program and renames what it declares, and leaves types alone.  It
  can be applied to errors and to the states of lowering too: there it changes the names in scope
  and the positions that types were noted at, and nothing of the code.

  Lowering carries positions along, for messages and for the table of types, and looks names up; it never
  compares positions, and of names it only asks whether they are the same.  So one expects of every step
  that it does to relabeled states what it does to states.  `Mirrors` says this of two steps, of which one
  is for the relabeled program, and has a rule for each way to make steps.

  Names with linkage are in the module.  A relabeling has to leave them alone, and those of block-scope
  statics and of functions too.  A call puts the name it was written with into the code, so of every name
  that is bound to a function it must be known that it was kept: `Fits` says so of a state.
-/
import Cof.Proofs.Parsed
import Cof.Proofs.Runs
import Mathlib.Logic.Function.Basic

namespace Cof

/-! ## Programs -/

/-- A change of positions and names, by which different names stay different. -/
structure Relabeling where
  loc : Location → Location
  name : Name → Name
  injective : Function.Injective name

namespace Relabeling

def identity : Relabeling := ⟨id, id, Function.injective_id⟩

def moving (f : Location → Location) : Relabeling := ⟨f, fun name => name, Function.injective_id⟩

abbrev translation (ρ : Relabeling) : Translation CType Signature CType Signature :=
  ⟨ρ.loc, ρ.name, fun type => type, fun signature => signature⟩

end Relabeling

variable (ρ : Relabeling)

abbrev Expr.relabel : Expr → Expr := Expr.translate ρ.translation

abbrev Expr.relabelAll : List Expr → List Expr := Expr.translateAll ρ.translation

abbrev VarDecl.relabel : VarDecl → VarDecl := VarDecl.translate ρ.translation

def Param.relabel (p : Param) : Param := { p with name := p.name.map ρ.name }

abbrev FunctionDecl.relabel : FunctionDecl → FunctionDecl := FunctionDecl.translate ρ.translation

abbrev Declaration.relabel : Declaration → Declaration := Declaration.translate ρ.translation

abbrev ForInit.relabel : ForInit → ForInit := ForInit.translate ρ.translation

abbrev Stmt.relabel : Stmt → Stmt := Stmt.translate ρ.translation

abbrev Stmt.relabelAll : List Stmt → List Stmt := Stmt.translateAll ρ.translation

abbrev TopLevel.relabel : TopLevel → TopLevel := TopLevel.translate ρ.translation

abbrev Program.relabel : Program → Program := Program.translate ρ.translation

section

variable {ρ : Relabeling}

theorem Expr.loc_relabel (e : Expr) : (e.relabel ρ).loc = ρ.loc e.loc := by
  cases e <;> simp only [Expr.translate, Expr.loc]

theorem Expr.length_relabelAll (args : List Expr) : (Expr.relabelAll ρ args).length = args.length := by
  rw [Expr.relabelAll, Expr.translateAll_eq_map, List.length_map]

theorem FunctionDecl.type_relabel (f : FunctionDecl) : (f.relabel ρ).type = f.type := rfl

theorem FunctionDecl.params_relabel (f : FunctionDecl) : (f.relabel ρ).params = f.params.map (·.relabel ρ) := by
  rw [FunctionDecl.params, FunctionDecl.params, List.map_zipWith]
  exact List.zipWith_map_left

end

theorem Param.relabel_moving (f : Location → Location) (p : Param) : p.relabel (.moving f) = p := by
  obtain ⟨name, type⟩ := p
  cases name <;> rfl

/-! ## Errors -/

namespace Lowering

def Unsupported.relabel (ρ : Relabeling) : Unsupported → Unsupported
  | .callThrough name => .callThrough (ρ.name name)
  | .initializer name type => .initializer (ρ.name name) type
  | .nonConstantInitializer name => .nonConstantInitializer (ρ.name name)
  | .arrayInitializer name => .arrayInitializer (ρ.name name)
  | .externalInitializer name => .externalInitializer (ρ.name name)
  | .incompleteVariable name type => .incompleteVariable (ρ.name name) type
  | what => what

def Fault.relabel (ρ : Relabeling) : Fault → Fault
  | .undefinedVariable name => .undefinedVariable (ρ.name name)
  | .undefinedFunction name => .undefinedFunction (ρ.name name)
  | .duplicateSymbol name => .duplicateSymbol (ρ.name name)
  | .conflictingDeclaration name why => .conflictingDeclaration (ρ.name name) why
  | .unsupported what => .unsupported (what.relabel ρ)
  | cause => cause

end Lowering

def LowerError.relabel (ρ : Relabeling) : LowerError → LowerError
  | .fault cause loc => .fault (cause.relabel ρ) (ρ.loc loc)
  | .write cause => .write cause

/-! ## Names in scope -/

def Symbol.relabel (ρ : Relabeling) (symbol : Symbol) : Symbol := { symbol with name := ρ.name symbol.name }

def Entry.relabel (ρ : Relabeling) (e : Entry) : Entry := { e with symbol := e.symbol.relabel ρ }

def Scopes.relabel (ρ : Relabeling) (t : Scopes) : Scopes := { t with log := t.log.map (·.relabel ρ) }

namespace Scopes

variable {ρ : Relabeling}

theorem exit_log (t : Scopes) : t.exit.log = t.log := by
  unfold exit
  split <;> rfl

theorem exit_relabel (t : Scopes) : (t.relabel ρ).exit = t.exit.relabel ρ := by
  obtain ⟨log, current, outer, last⟩ := t
  cases outer <;> rfl

theorem find_relabel (log : List Entry) (name : Name) (inScope : Nat → Bool) :
    ((log.map (·.relabel ρ)).find? fun e => e.symbol.name == ρ.name name && inScope e.scope) =
      (log.find? fun e => e.symbol.name == name && inScope e.scope).map (·.relabel ρ) := by
  rw [List.find?_map]
  congr 2
  funext e
  have same : (ρ.name e.symbol.name == ρ.name name) = (e.symbol.name == name) := by
    by_cases equal : e.symbol.name = name
    · simp [equal]
    · have other : ρ.name e.symbol.name ≠ ρ.name name := fun both => equal (ρ.injective both)
      rw [beq_eq_false_iff_ne.2 equal, beq_eq_false_iff_ne.2 other]
  show (ρ.name e.symbol.name == ρ.name name && inScope e.scope) = _
  rw [same]

theorem lookup_relabel (t : Scopes) (name : Name) :
    (t.relabel ρ).lookup (ρ.name name) = (t.lookup name).map (·.relabel ρ) := by
  have found := find_relabel (ρ := ρ) t.log name t.isOpen
  rw [lookup, lookup, Option.map_map]
  exact (congrArg (Option.map (·.symbol)) found).trans (by rw [Option.map_map])

theorem lookupCurrent_relabel (t : Scopes) (name : Name) :
    (t.relabel ρ).lookupCurrent (ρ.name name) = (t.lookupCurrent name).map (·.relabel ρ) := by
  have found := find_relabel (ρ := ρ) t.log name (· == t.current)
  rw [lookupCurrent, lookupCurrent, Option.map_map]
  exact (congrArg (Option.map (·.symbol)) found).trans (by rw [Option.map_map])

end Scopes

namespace Lowering

/-! ## States -/

def State.relabel (ρ : Relabeling) (s : State) : State :=
  { s with scopes := s.scopes.relabel ρ, types := s.types.map fun note => (ρ.loc note.1, note.2) }

def relabelResult {α : Type} (ρ : Relabeling) : EStateM.Result LowerError State α → EStateM.Result LowerError State α
  | .ok a s => .ok a (s.relabel ρ)
  | .error e s => .error (e.relabel ρ) (s.relabel ρ)

def Fits (ρ : Relabeling) (s : State) : Prop :=
  ∀ e ∈ s.scopes.log, e.symbol.type.isFunction = true → ρ.name e.symbol.name = e.symbol.name

/-- A step does to relabeled states what another does to states. -/
def Mirrors {α : Type} (ρ : Relabeling) (m m' : Lower α) : Prop :=
  ∀ s, Fits ρ s → m' (s.relabel ρ) = relabelResult ρ (m s) ∧ ∀ a s', m s = .ok a s' → Fits ρ s'

section Mirrors

variable {α β : Type} {ρ : Relabeling} {m m' : Lower α} {f f' : α → Lower β}

theorem mirrors_then (hm : Mirrors ρ m m') (hf : ∀ s a t, m s = .ok a t → Mirrors ρ (f a) (f' a)) :
    Mirrors ρ (m >>= f) (m' >>= f') := by
  intro s fits
  obtain ⟨same, keeps⟩ := hm s fits
  show EStateM.bind m' f' (s.relabel ρ) = relabelResult ρ (EStateM.bind m f s) ∧
    ∀ b s', EStateM.bind m f s = .ok b s' → Fits ρ s'
  unfold EStateM.bind
  rw [same]
  cases run : m s with
  | error e t => exact ⟨rfl, fun b s' ended => by cases ended⟩
  | ok a t => exact hf s a t run t (keeps a t run)

theorem mirrors_bind (hm : Mirrors ρ m m') (hf : ∀ a, Mirrors ρ (f a) (f' a)) :
    Mirrors ρ (m >>= f) (m' >>= f') := mirrors_then hm fun _ a _ _ => hf a

theorem mirrors_map {g : α → β} (hm : Mirrors ρ m m') : Mirrors ρ (g <$> m) (g <$> m') := by
  have same : ∀ n : Lower α, g <$> n = n >>= fun a => pure (g a) := fun n => by
    rw [bind_pure_comp]
  exact mirrors_bind hm fun a s fits => ⟨rfl, fun b s' ended => by cases ended; exact fits⟩

theorem mirrors_pure (a : α) : Mirrors ρ (pure a : Lower α) (pure a) := by
  intro s fits
  refine ⟨rfl, fun b s' run => ?_⟩
  obtain ⟨_, rfl⟩ := pure_eq_ok.1 run
  exact fits

theorem mirrors_throw (e : LowerError) : Mirrors ρ (throw e : Lower α) (throw (e.relabel ρ)) := by
  intro s fits
  exact ⟨rfl, fun a s' run => by cases run⟩

theorem mirrors_fail (cause : Fault) (loc : Location) :
    Mirrors ρ (fail cause loc : Lower α) (fail (cause.relabel ρ) (ρ.loc loc)) :=
  mirrors_throw (.fault cause loc)

theorem mirrors_ite {c : Prop} [Decidable c] {n n' : Lower α} (hm : c → Mirrors ρ m m')
    (hn : ¬ c → Mirrors ρ n n') : Mirrors ρ (if c then m else n) (if c then m' else n') := by
  by_cases holds : c
  · rw [if_pos holds, if_pos holds]
    exact hm holds
  · rw [if_neg holds, if_neg holds]
    exact hn holds

theorem mirrors_get {f f' : State → Lower β} (hf : ∀ s, Fits ρ s → Mirrors ρ (f s) (f' (s.relabel ρ))) :
    Mirrors ρ (get >>= f) (get >>= f') := fun s fits => hf s fits s fits

theorem mirrors_set {s : State} (fits : Fits ρ s) : Mirrors ρ (set s : Lower Unit) (set (s.relabel ρ)) := by
  intro t _
  refine ⟨rfl, fun u s' run => ?_⟩
  obtain rfl := set_eq_ok.1 run
  exact fits

theorem mirrors_modify {g g' : State → State} (same : ∀ s, g' (s.relabel ρ) = (g s).relabel ρ)
    (log : ∀ s, (g s).scopes.log = s.scopes.log) :
    Mirrors ρ (modify g : Lower Unit) (modify g') := by
  intro s fits
  refine ⟨?_, fun u s' run => ?_⟩
  · show EStateM.Result.ok () (g' (s.relabel ρ)) = .ok () ((g s).relabel ρ)
    rw [same]
  · obtain rfl := modify_eq_ok.1 run
    unfold Fits
    rw [log]
    exact fits

theorem mirrors_emit (opcode : Opcode) (qualifier : Qualifier) (operands : List Operand) :
    Mirrors ρ (emit opcode qualifier operands) (emit opcode qualifier operands) := by
  intro s fits
  cases encodes : Instr.encode ⟨opcode, qualifier, operands⟩ with
  | ok bytes =>
    rw [emit_of_ok encodes, emit_of_ok encodes]
    refine ⟨rfl, fun u s' run => ?_⟩
    cases run
    exact fits
  | error f =>
    rw [emit_of_error encodes, emit_of_error encodes]
    exact ⟨rfl, fun u s' run => by cases run⟩

theorem mirrors_offset : Mirrors ρ offset offset := by
  refine mirrors_get fun s _ => ?_
  have out : (s.relabel ρ).out = s.out := rfl
  rw [out]
  cases s.out.offset with
  | ok n => exact mirrors_pure n
  | error e => exact mirrors_throw (.write e)

theorem mirrors_freshVariable : Mirrors ρ freshVariable freshVariable := by
  intro s fits
  refine ⟨rfl, fun id s' run => ?_⟩
  obtain ⟨_, rfl⟩ := freshVariable_eq_ok.1 run
  exact fits

theorem mirrors_freshLabel : Mirrors ρ freshLabel freshLabel := by
  intro s fits
  refine ⟨rfl, fun l s' run => ?_⟩
  obtain ⟨_, rfl⟩ := freshLabel_eq_ok.1 run
  exact fits

theorem mirrors_temporary (type : CType) : Mirrors ρ (temporary type) (temporary type) :=
  mirrors_bind mirrors_freshVariable fun _ => mirrors_pure _

theorem mirrors_createVariable (id : UInt32) (type : CType) :
    Mirrors ρ (createVariable id type) (createVariable id type) :=
  mirrors_bind (mirrors_emit _ _ _) fun _ => mirrors_pure _

theorem mirrors_noteType (loc : Location) (type : CType) : Mirrors ρ (noteType loc type) (noteType (ρ.loc loc) type) :=
  mirrors_modify (fun _ => rfl) fun _ => rfl

theorem mirrors_enterScope : Mirrors ρ enterScope enterScope := mirrors_modify (fun _ => rfl) fun _ => rfl

theorem mirrors_exitScope : Mirrors ρ exitScope exitScope := by
  refine mirrors_modify (fun s => ?_) fun s => ?_
  · show State.mk .. = State.mk ..
    congr 1
    exact s.scopes.exit_relabel
  · exact s.scopes.exit_log

theorem mirrors_lookup {f f' : Option Symbol → Lower β} (name : Name)
    (hf : ∀ found : Option Symbol, (∀ symbol ∈ found, symbol.type.isFunction = true → ρ.name name = name) →
      Mirrors ρ (f found) (f' (found.map (·.relabel ρ)))) :
    Mirrors ρ (lookup name >>= f) (lookup (ρ.name name) >>= f') := by
  intro s fits
  have kept : ∀ symbol ∈ s.scopes.lookup name, symbol.type.isFunction = true → ρ.name name = name := by
    intro symbol found isFunction
    obtain ⟨e, search, rfl⟩ := Option.map_eq_some_iff.1 found
    have matching := List.find?_some search
    simp only [Bool.and_eq_true, beq_iff_eq] at matching
    rw [← matching.1]
    exact fits e (List.mem_of_find?_eq_some search) isFunction
  have after := hf (s.scopes.lookup name) kept s fits
  rw [← Scopes.lookup_relabel] at after
  exact after

variable {name : Name}

theorem mirrors_bindName {type : CType} (storage : Storage) (loc : Location)
    (kept : type.isFunction = true → ρ.name name = name) :
    Mirrors ρ (bindName name type storage loc) (bindName (ρ.name name) type storage (ρ.loc loc)) := by
  refine mirrors_get fun s fits => ?_
  have scopes : (s.relabel ρ).scopes = s.scopes.relabel ρ := rfl
  unfold Scopes.add
  rw [scopes, Scopes.lookupCurrent_relabel]
  cases s.scopes.lookupCurrent name with
  | some symbol => exact mirrors_bind (mirrors_set fits) fun _ => mirrors_fail (.duplicateSymbol name) loc
  | none =>
    let t : State := { s with scopes := { s.scopes with log := ⟨s.scopes.current, name, type, s.scopes.depth, storage⟩ :: s.scopes.log } }
    refine mirrors_bind (mirrors_set (s := t) ?_) fun _ => mirrors_pure _
    intro e mem isFunction
    rcases List.mem_cons.1 mem with rfl | mem
    · exact kept isFunction
    · exact fits e mem isFunction

theorem mirrors_bindLinked (kept : ρ.name name = name) (type : CType) (loc : Location) :
    Mirrors ρ (bindName name type (.global name) loc)
      (bindName (ρ.name name) type (.global (ρ.name name)) (ρ.loc loc)) := by
  have storage : Storage.global (ρ.name name) = .global name := by rw [kept]
  rw [storage]
  exact mirrors_bindName _ loc fun _ => kept

theorem mirrors_global? (kept : ρ.name name = name) : Mirrors ρ (global? name) (global? (ρ.name name)) := by
  rw [kept]
  exact mirrors_get fun s _ => mirrors_pure _

theorem mirrors_addGlobal {g : Global} (kept : ρ.name g.name = g.name) :
    Mirrors ρ (addGlobal g) (addGlobal { g with name := ρ.name g.name }) := by
  rw [kept]
  exact mirrors_modify (fun _ => rfl) fun _ => rfl

theorem mirrors_refineGlobal (kept : ρ.name name = name) (defined isStatic : Bool) :
    Mirrors ρ (refineGlobal name defined isStatic) (refineGlobal (ρ.name name) defined isStatic) := by
  rw [kept]
  exact mirrors_modify (fun _ => rfl) fun _ => rfl

theorem mirrors_inLoop (labels : LoopLabels) (h : Mirrors ρ m m') : Mirrors ρ (inLoop labels m) (inLoop labels m') := by
  intro s fits
  obtain ⟨same, keeps⟩ := h { s with loops := labels :: s.loops } fits
  have inside : m' { s.relabel ρ with loops := labels :: s.loops } =
      relabelResult ρ (m { s with loops := labels :: s.loops }) := same
  unfold inLoop
  show (match m' { s.relabel ρ with loops := labels :: s.loops } with
    | .ok a s => EStateM.Result.ok a { s with loops := s.loops.tail }
    | .error e s => .error e { s with loops := s.loops.tail }) = _ ∧ _
  rw [inside]
  cases run : m { s with loops := labels :: s.loops } with
  | error e t => exact ⟨rfl, fun b s' ended => by cases ended⟩
  | ok a t =>
    refine ⟨rfl, fun b s' ended => ?_⟩
    cases ended
    exact keeps a t run

end Mirrors

end Lowering

/-! ## What has to be kept -/

namespace Relabeling

/-- In a block, the names of functions and of variables with linkage or static storage are kept. -/
def Keeps (ρ : Relabeling) : Declaration → Prop
  | .proto f => ρ.name f.name = f.name
  | .var v => v.linkage ≠ .plain ∨ v.type.isFunction = true → ρ.name v.name = v.name

/-- A parameter of a definition may have any name, but must have one for it to be changed. -/
structure KeepsParam (ρ : Relabeling) (p : Param) : Prop where
  named : (p.relabel ρ).name.getD [] = ρ.name (p.name.getD [])
  kept : p.type.isFunction = true → ρ.name (p.name.getD []) = p.name.getD []

def KeepsItem (ρ : Relabeling) : TopLevel → Prop
  | .declare d => ρ.name d.name = d.name
  | .define f body => ρ.name f.name = f.name ∧ (∀ p ∈ f.params, ρ.KeepsParam p) ∧
    ∀ d ∈ Stmt.allDeclarations body, ρ.Keeps d

end Relabeling

end Cof
