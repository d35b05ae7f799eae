/-
  What declarations do, step by step.

  A declaration that creates no variable takes note of a name with linkage and binds it, which is `Linking`, or
  adds a directive, or does both.  Every function that does so is taken apart here, once, into the states that it
  goes through.  Whatever else is to be known of such a declaration is read off these states.
-/
import Cof.Proofs.DeclaredLinkage
import Cof.Proofs.Runs
import Cof.Proofs.Shadowing

namespace Cof.Lowering

variable {s s' : State}

/-! ## Names -/

variable {name : Name} {loc : Location} {g k : Global} {scopes : Scopes} {f : FunctionDecl}
  {isDefinition isStatic : Bool} {v : VarDecl}

theorem bindName_free {type : CType} {storage : Storage}
    (run : bindName name type storage loc s = .ok () s') : s.scopes.lookupCurrent name = none ∧
      s' = { s with scopes := s.scopes.bind ⟨name, type, s.scopes.depth, storage⟩ } := by
  cases taken : s.scopes.lookupCurrent name with
  | some symbol =>
    rw [Scopes.bindName_taken taken] at run
    cases run
  | none =>
    rw [Scopes.bindName_of_free taken] at run
    cases run
    exact ⟨rfl, rfl⟩

theorem global?_eq_ok {found : Option Global} :
    global? name s = .ok found s' ↔ s.globals.find? (·.name == name) = found ∧ s = s' := by
  show EStateM.Result.ok (s.globals.find? _) s = .ok found s' ↔ _
  simp

theorem note_addGlobal (fresh : s.globals.find? (·.name == g.name) = none) : Note s.globals g (g :: s.globals) where
  after := by rw [note, fresh]
  agrees k found := by rw [fresh] at found; cases found

theorem note_again (found : s.globals.find? (·.name == g.name) = some k)
    (kind : k.isFunction = g.isFunction) (single : (k.defined && g.defined) = false) :
    Note s.globals g (s.globals.map (·.again g)) where
  after := by rw [note, found]
  agrees k' found' := by
    obtain rfl := Option.some.inj (found.symm.trans found')
    exact ⟨kind, single⟩

theorem note_same (found : s.globals.find? (·.name == g.name) = some k)
    (kind : k.isFunction = g.isFunction) (defined : g.defined = false) (isStatic : g.isStatic = false) :
    Note s.globals g s.globals := by
  have unchanged : ∀ k : Global, k.again g = k := by
    intro k
    rw [Global.again, defined, isStatic, Bool.or_false, Bool.or_false]
    split <;> rfl
  have same : s.globals.map (·.again g) = s.globals := by
    rw [List.map_congr_left fun k _ => unchanged k, List.map_id']
  have note := note_again found kind (by rw [defined, Bool.and_false])
  rwa [same] at note

/-- A name with linkage is bound in the current scope, unless it has a binding there. -/
inductive Links (g : Global) (t : Scopes) : Scopes → Prop
  | bound (free : t.lookupCurrent g.name = none) : Links g t (t.bind ⟨g.name, g.type, t.depth, .global g.name⟩)
  | present {symbol : Symbol} (taken : t.lookupCurrent g.name = some symbol) : Links g t t

theorem bindGlobal_links (run : bindGlobal g.name g.type loc s = .ok () s') :
    ∃ scopes, Links g s.scopes scopes ∧ s' = { s with scopes := scopes } := by
  obtain ⟨_, _, found, run⟩ := bind_eq_ok.1 run
  obtain ⟨rfl, rfl⟩ := get_eq_ok.1 found
  rcases ite_eq_ok.1 run with ⟨-, run⟩ | ⟨taken, run⟩
  · obtain ⟨free, rfl⟩ := bindName_free run
    exact ⟨_, .bound free, rfl⟩
  · obtain ⟨-, rfl⟩ := pure_eq_ok.1 run
    rw [Option.isNone_iff_eq_none] at taken
    obtain ⟨symbol, here⟩ := Option.ne_none_iff_exists'.1 taken
    exact ⟨_, .present here, rfl⟩

/-! ## Names with linkage -/

/-- A name with linkage is taken note of and bound, which changes the two tables of names and nothing else. -/
structure Linking (g : Global) (s s' : State) : Prop where
  note : Note s.globals g s'.globals
  types : ∀ k, s.globals.find? (·.name == g.name) = some k → k.type = g.type
  scopes : Links g s.scopes s'.scopes
  same : ∃ globals scopes, s' = { s with globals := globals, scopes := scopes }

theorem linking_again {globals : List Global}
    (found : s.globals.find? (·.name == g.name) = some k) (type : k.type = g.type)
    (note : Note s.globals g globals) (links : Links g s.scopes scopes) :
    Linking g s { s with globals := globals, scopes := scopes } where
  note := note
  types k' found' := by
    obtain rfl := Option.some.inj (found.symm.trans found')
    exact type
  scopes := links
  same := ⟨_, _, rfl⟩

theorem linking_first (fresh : s.globals.find? (·.name == g.name) = none)
    (links : Links g s.scopes scopes) : Linking g s { s with globals := g :: s.globals, scopes := scopes } where
  note := note_addGlobal fresh
  types k found := by rw [fresh] at found; cases found
  scopes := links
  same := ⟨_, _, rfl⟩

theorem declareFunction_links
    (run : declareFunction f isDefinition s = .ok () s') : Linking (f.link isDefinition) s s' := by
  obtain ⟨_, t, recorded, bound⟩ := bind_eq_ok.1 run
  obtain ⟨scopes, links, rfl⟩ := bindGlobal_links (g := f.link isDefinition) bound
  obtain ⟨found, _, looked, recorded⟩ := bind_eq_ok.1 recorded
  obtain ⟨known, rfl⟩ := global?_eq_ok.1 looked
  cases found with
  | none =>
    obtain rfl := modify_eq_ok.1 recorded
    exact linking_first known links
  | some g =>
    simp only [ite_eq_ok, fail_eq_ok, and_false, false_or] at recorded
    obtain ⟨function, type, single, recorded⟩ := recorded
    obtain rfl := modify_eq_ok.1 recorded
    have kind : g.isFunction = true := by simpa using function
    have single : (g.defined && isDefinition) = false := Bool.not_eq_true _ ▸ single
    exact linking_again known (not_not.1 type) (note_again known kind single) links

theorem agrees_iff : ¬ disagrees g v = true ↔ g.isFunction = false ∧ g.type = v.type := by
  rw [disagrees, Bool.or_eq_true, not_or, Bool.not_eq_true, decide_eq_true_eq, not_not]

theorem recordVariable_links
    (run : recordVariable v isDefinition isStatic s = .ok () s') : Linking (v.link isDefinition isStatic) s s' := by
  obtain ⟨found, _, looked, run⟩ := bind_eq_ok.1 run
  obtain ⟨known, rfl⟩ := global?_eq_ok.1 looked
  cases found with
  | none =>
    obtain ⟨_, t, added, bound⟩ := bind_eq_ok.1 run
    obtain rfl := modify_eq_ok.1 added
    obtain ⟨free, rfl⟩ := bindName_free bound
    exact linking_first known (.bound free)
  | some g =>
    simp only [ite_eq_ok, fail_eq_ok, and_false, false_or] at run
    obtain ⟨agrees, single, run⟩ := run
    obtain ⟨kind, type⟩ := agrees_iff.1 agrees
    obtain ⟨_, t, refined, bound⟩ := bind_eq_ok.1 run
    obtain rfl := modify_eq_ok.1 refined
    obtain ⟨scopes, links, rfl⟩ := bindGlobal_links (g := v.link isDefinition isStatic) bound
    exact linking_again known type (note_again known kind (Bool.not_eq_true _ ▸ single)) links

/-! ## Variables of static storage -/

theorem initialValue_eq_ok {given : List Operand} (run : initialValue v s = .ok given s') :
    s = s' ∧ (v.init = none ∧ given = [] ∨ ∃ init bits, v.init = some init ∧
      constantBits? v.type init = some bits ∧ given = [.imm v.type.encoding bits]) := by
  unfold initialValue at run
  cases init : v.init with
  | none =>
    rw [init] at run
    obtain ⟨rfl, rfl⟩ := pure_eq_ok.1 run
    exact ⟨rfl, .inl ⟨rfl, rfl⟩⟩
  | some e =>
    rw [init] at run
    obtain ⟨operand, t, found, last⟩ := bind_eq_ok.1 run
    obtain ⟨rfl, rfl⟩ := pure_eq_ok.1 last
    rcases ite_eq_ok.1 found with ⟨-, failed⟩ | ⟨-, found⟩
    · exact (unsupported_eq_ok.1 failed).elim
    cases bits : constantBits? v.type e with
    | none =>
      rw [bits] at found
      exact (unsupported_eq_ok.1 found).elim
    | some n =>
      rw [bits] at found
      obtain ⟨rfl, rfl⟩ := pure_eq_ok.1 found
      exact ⟨rfl, .inr ⟨e, n, rfl, bits, rfl⟩⟩

/-- What defines an object: its name, its size and its first value, if it has one. -/
def definition (name : Name) (type : CType) (isStatic : Bool) (first : List Operand) : Instr :=
  ⟨.sym, if isStatic then .static else .global, .symbol type.encoding.tag name :: .size type.size :: first⟩

def announcement (v : VarDecl) : Instr := ⟨.sym, .external, [.symbol v.type.encoding.tag v.name]⟩

theorem defineObject_steps
    (run : defineObject name v isStatic s = .ok () s') : ∃ first start bytes,
      initialValue v s = .ok first s ∧ Module.fitWord32 s.size "code section" = .ok start ∧
      (definition name v.type isStatic first).encode = .ok bytes ∧
      s' = (s.push (definition name v.type isStatic first) bytes).list
        ⟨name, start, CType.clampWord32 v.type.size, .object, if isStatic then .internal else .global⟩ := by
  obtain ⟨first, _, initial, run⟩ := bind_eq_ok.1 run
  obtain ⟨rfl, -⟩ := initialValue_eq_ok initial
  obtain ⟨start, _, placed, run⟩ := bind_eq_ok.1 run
  obtain ⟨fits, rfl⟩ := offset_eq_ok.1 placed
  obtain ⟨_, t, emitted, listed⟩ := bind_eq_ok.1 run
  obtain ⟨bytes, encodes, rfl⟩ := emit_eq_ok.1 emitted
  exact ⟨first, start, bytes, initial, fits, encodes, (modify_eq_ok.1 listed).symm⟩

theorem globalVariable_steps (run : globalVariable v s = .ok () s') :
    ∃ t, Linking (v.link v.isDefinition (v.linkage = .static)) s t ∧
      (v.isDefinition = true ∧ defineObject v.name v (v.linkage = .static) t = .ok () s' ∨
        v.isDefinition = false ∧ announceExternal v t = .ok () s') := by
  obtain ⟨_, t, recorded, run⟩ := bind_eq_ok.1 run
  refine ⟨t, recordVariable_links recorded, ?_⟩
  exact (ite_eq_ok.1 run).imp_right fun undefined => ⟨Bool.not_eq_true _ ▸ undefined.1, undefined.2⟩

/-! ## Variables of blocks -/

theorem localExternal_steps (run : localExternal v s = .ok () s') :
    v.init = none ∧ ∃ t, Linking (v.link false false) s t ∧ announceExternal v t = .ok () s' := by
  rcases ite_eq_ok.1 run with ⟨-, failed⟩ | ⟨without, run⟩
  · exact (unsupported_eq_ok.1 failed).elim
  refine ⟨Option.not_isSome_iff_eq_none.1 without, ?_⟩
  obtain ⟨found, _, looked, run⟩ := bind_eq_ok.1 run
  obtain ⟨known, rfl⟩ := global?_eq_ok.1 looked
  cases found with
  | none =>
    obtain ⟨_, _, bound, run⟩ := bind_eq_ok.1 run
    obtain ⟨free, rfl⟩ := bindName_free bound
    obtain ⟨_, _, added, announced⟩ := bind_eq_ok.1 run
    obtain rfl := modify_eq_ok.1 added
    exact ⟨_, linking_first known (.bound free), announced⟩
  | some g =>
    rcases ite_eq_ok.1 run with ⟨-, failed⟩ | ⟨agrees, run⟩
    · exact (fail_eq_ok.1 failed).elim
    obtain ⟨kind, type⟩ := agrees_iff.1 agrees
    obtain ⟨_, _, bound, announced⟩ := bind_eq_ok.1 run
    obtain ⟨free, rfl⟩ := bindName_free bound
    exact ⟨_, linking_again known type (note_same known kind rfl rfl) (.bound free), announced⟩

theorem localStatic_steps (run : localStatic v s = .ok () s') :
    s.scopes.lookupCurrent v.name = none ∧
      defineObject (staticName (s.currentFunction.getD []) v.name s.statics) v true
        { s with
          statics := s.statics + 1
          scopes := s.scopes.bind ⟨v.name, v.type, s.scopes.depth,
            .global (staticName (s.currentFunction.getD []) v.name s.statics)⟩ } = .ok () s' := by
  obtain ⟨_, _, got, run⟩ := bind_eq_ok.1 run
  obtain ⟨rfl, rfl⟩ := get_eq_ok.1 got
  obtain ⟨_, _, counted, run⟩ := bind_eq_ok.1 run
  obtain rfl := set_eq_ok.1 counted
  obtain ⟨_, _, bound, run⟩ := bind_eq_ok.1 run
  obtain ⟨free, rfl⟩ := bindName_free bound
  exact ⟨free, run⟩

/-- A variable is numbered, bound to a name and created, and then something is put into it. -/
def declareVariable (name : Name) (type : CType) (loc : Location) (fill : Operand → Lower Unit) : Lower Unit := do
  let id ← freshVariable
  bindName name type (.slot id) loc
  let target ← createVariable id type
  fill target

theorem declareVariable_steps {name : Name} {type : CType} {loc : Location} {fill : Operand → Lower Unit}
    (run : declareVariable name type loc fill s = .ok () s') : s.scopes.lookupCurrent name = none ∧
      ∃ t, fill (.var type.encoding (.ofNat s.variableCount)) t = .ok () s' ∧
        emit .var .none [.var type.encoding (.ofNat s.variableCount), .size type.size]
          { s with
            variableCount := s.variableCount + 1
            scopes := s.scopes.bind ⟨name, type, s.scopes.depth, .slot (.ofNat s.variableCount)⟩ } = .ok () t := by
  obtain ⟨id, _, numbered, run⟩ := bind_eq_ok.1 run
  obtain ⟨rfl, rfl⟩ := freshVariable_eq_ok.1 numbered
  obtain ⟨_, _, bound, run⟩ := bind_eq_ok.1 run
  obtain ⟨free, rfl⟩ := bindName_free bound
  obtain ⟨target, t, created, run⟩ := bind_eq_ok.1 run
  obtain ⟨_, _, made, same⟩ := bind_eq_ok.1 created
  obtain ⟨rfl, rfl⟩ := pure_eq_ok.1 same
  exact ⟨free, _, run, made⟩

def fillVariable (v : VarDecl) (target : Operand) : Lower Unit := do
  match v.init with
  | none => return ()
  | some init =>
    if v.type.isArray then unsupported (.arrayInitializer v.name) init.loc
    else
      let given ← value init
      let given ← convertAssigned given v.type init.loc
      emit .mov .none [target, given.operand]

def takeArgument (index : Nat) (target : Operand) : Lower Unit :=
  emit .bindparam .none [.size (UInt64.ofNat index), target]

theorem localAutomatic_declares (v : VarDecl) : localAutomatic v =
    if v.type.size = 0 then unsupported (.incompleteVariable v.name v.type) v.loc
    else declareVariable v.name v.type v.loc (fillVariable v) := rfl

theorem localAutomatic_steps (run : localAutomatic v s = .ok () s') :
    v.type.size ≠ 0 ∧ declareVariable v.name v.type v.loc (fillVariable v) s = .ok () s' := by
  rcases ite_eq_ok.1 (localAutomatic_declares v ▸ run) with ⟨-, failed⟩ | complete
  · exact (unsupported_eq_ok.1 failed).elim
  · exact complete

theorem bindParameters_cons (loc : Location) (index : Nat) (p : Param) (rest : List Param) :
    bindParameters loc index (p :: rest) = (do
      declareVariable (p.name.getD []) p.type loc (takeArgument index)
      bindParameters loc (index + 1) rest) := by
  simp only [bindParameters, declareVariable, takeArgument, bind_assoc]

theorem localVariable_cases (run : localDeclaration (.var v) s = .ok () s') :
    v.linkage = .external ∧ localExternal v s = .ok () s' ∨ v.linkage = .static ∧ localStatic v s = .ok () s' ∨
      v.linkage = .plain ∧ localAutomatic v s = .ok () s' := by
  unfold localDeclaration at run
  cases linkage : v.linkage with
  | external =>
    simp only [linkage] at run
    exact .inl ⟨rfl, run⟩
  | static =>
    simp only [linkage] at run
    exact .inr (.inl ⟨rfl, run⟩)
  | plain =>
    simp only [linkage] at run
    exact .inr (.inr ⟨rfl, run⟩)

/-! ## Functions -/

theorem defineFunction_steps {body : List Stmt}
    (run : defineFunction f body s = .ok () s') : ∃ start stop t u, Module.fitWord32 s.size "code section" = .ok start ∧
      emit .sym .function [.symbol Encoding.ptr.tag f.name] s = .ok () t ∧
      functionFrame f body { t with returnType := some f.result, currentFunction := some f.name } = .ok () u ∧
      Module.fitWord32 u.size "code section" = .ok stop ∧
      s' = ({ u with returnType := t.returnType, currentFunction := t.currentFunction } : State).list
        ⟨f.name, start, stop - start, .function, if f.linkage = .static then .internal else .global⟩ := by
  simp only [defineFunction, bind_eq_ok, offset_eq_ok, get_eq_ok, set_eq_ok, modify_eq_ok] at run
  obtain ⟨start, _, ⟨fits, rfl⟩, _, t, named, _, _, ⟨rfl, rfl⟩, _, _, rfl, _, u, frame, _, _, rfl, stop, _,
    ⟨fits', rfl⟩, listed⟩ := run
  exact ⟨start, stop, t, u, fits, named, frame, fits', (modify_eq_ok.1 listed).symm⟩

end Cof.Lowering
