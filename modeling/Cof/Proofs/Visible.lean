/-
  What a declaration makes visible.

  A name with linkage is known twice: among the names of the whole program, and in the table of names, in
  every scope that declares it.  An object of a block is known in the table only.  Declaring a function
  takes note of it for the program, and binds its name unless the current scope has a binding of it.
-/
import Cof.Proofs.AddedCode
import Cof.Proofs.Enacted

namespace Cof

open Lowering Relation List

/-! ## Names with linkage that stay known -/

namespace Lowering

variable {s s' t : State}

/-- Two records of one name, of one type. -/
structure Global.Same (k g : Global) : Prop where
  name : k.name = g.name
  type : k.type = g.type
  isFunction : k.isFunction = g.isFunction

theorem Global.again_same (k g : Global) : (k.again g).Same k := by
  unfold Global.again
  split <;> exact ⟨rfl, rfl, rfl⟩

variable {after : List Global} {g : Global} {type : CType} {init : Expr} {bits : UInt64} {v : VarDecl}

theorem Note.kept {known : List Global} {k : Global} (h : Note known g after) (mem : k ∈ known) :
    ∃ k' ∈ after, k'.Same k := by
  rw [h.after, note]
  split
  · exact ⟨k.again g, mem_map_of_mem mem, k.again_same g⟩
  · exact ⟨k, mem_cons_of_mem _ mem, rfl, rfl, rfl⟩

theorem Note.known {known : List Global} (h : Note known g after)
    (types : ∀ k, known.find? (·.name == g.name) = some k → k.type = g.type) : ∃ k ∈ after, k.Same g := by
  cases found : known.find? (·.name == g.name) with
  | none =>
    rw [h.after, note, found]
    exact ⟨g, mem_cons_self .., rfl, rfl, rfl⟩
  | some k =>
    obtain ⟨k', mem, same⟩ := h.kept (mem_of_find?_eq_some found)
    have named : k.name = g.name := by simpa using find?_some found
    exact ⟨k', mem, same.name.trans named, same.type.trans (types k found), same.isFunction.trans (h.agrees k found).1⟩

/-! ## What declarations do -/

/-- A name with linkage is declared. -/
structure Declares (g : Global) (s s' : State) : Prop where
  note : Note s.globals g s'.globals
  types : ∀ k, s.globals.find? (·.name == g.name) = some k → k.type = g.type
  scopes : Links g s.scopes s'.scopes
  symbols : s.symbols <:+ s'.symbols

/-- A name is bound to an object of a block.  If the object has a name in the module, it is listed. -/
structure Introduces (name : Name) (type : CType) (storage : Storage) (s s' : State) : Prop where
  free : s.scopes.lookupCurrent name = none
  scopes : s'.scopes = s.scopes.bind ⟨name, type, s.scopes.depth, storage⟩
  globals : s'.globals = s.globals
  symbols : s.symbols <:+ s'.symbols
  listed : ∀ target, storage = .global target → ∃ l ∈ s'.symbols, l.name = target

theorem Linking.declares (h : Linking g s s') : Declares g s s' ∧ s'.code = s.code := by
  obtain ⟨_, _, rfl⟩ := h.same
  exact ⟨⟨h.note, h.types, h.scopes, suffix_refl _⟩, rfl⟩

/-! ## Variables of static storage -/

theorem literal_of_constantBits? (h : constantBits? type init = some bits) :
    (floatingLiteral? (literalOf init).1).isSome = true ∨ (integerLiteral? (literalOf init).1).isSome = true := by
  cases type with
  | floating width =>
    obtain ⟨x, found, -⟩ := Option.map_eq_some_iff.1 h
    exact .inl (Option.isSome_of_eq_some found)
  | _ =>
    obtain ⟨n, found, -⟩ := Option.map_eq_some_iff.1 h
    exact .inr (Option.isSome_of_eq_some found)

theorem callees_of_constant (h : constantBits? type init = some bits) : init.callees = [] := by
  have literal : ∀ e : Expr, (floatingLiteral? e).isSome = true ∨ (integerLiteral? e).isSome = true →
      e.callees = [] := by
    intro e known
    cases e with
    | int | char | float => rw [Expr.callees]
    | _ => rcases known with known | known <;> cases known
  have known := literal _ (literal_of_constantBits? h)
  match init with
  | .unary _ .neg operand =>
    exact known
  | .unary _ .plus _ | .unary _ .bitNot _ | .unary _ .not _ | .unary _ .addrOf _ | .unary _ .deref _ => exact known
  | .int .. | .float .. | .char .. | .string .. | .ident .. | .binary .. | .step .. | .assign .. | .call ..
  | .index .. | .member .. | .conditional .. | .cast .. | .sizeofType .. | .sizeofExpr .. => exact known

/-- Nothing is called to find the value of an object of static storage, and no operand of it is void. -/
theorem initialValue_silent {given : List Operand} (run : initialValue v s = .ok given s') :
    v.callees = [] ∧ ∀ o ∈ given, o.isVoid = false := by
  unfold VarDecl.callees
  rcases (initialValue_eq_ok run).2 with ⟨init, rfl⟩ | ⟨e, bits, init, constant, rfl⟩
  · rw [init]
    exact ⟨rfl, forall_mem_nil _⟩
  · rw [init]
    exact ⟨callees_of_constant constant, forall_mem_singleton.2 rfl⟩

/-- Nothing is evaluated for a variable, and its code is no part of anything that happens. -/
structure Static (v : VarDecl) (s s' : State) : Prop where
  callees : v.callees = []
  code : ∀ returned N, Shows returned N [] s s'

theorem defineObject_names {name : Name} {isStatic : Bool} (run : defineObject name v isStatic s = .ok () s') :
    s'.scopes = s.scopes ∧ s'.globals = s.globals ∧ (∃ l, l.name = name ∧ s'.symbols = l :: s.symbols) ∧
      Static v s s' := by
  obtain ⟨first, start, bytes, initial, -, -, rfl⟩ := defineObject_steps run
  obtain ⟨silent, solid⟩ := initialValue_silent initial
  have other : (if isStatic then Qualifier.static else .global) ≠ .function := by
    cases isStatic <;> exact Qualifier.noConfusion
  refine ⟨rfl, rfl, ⟨_, rfl, rfl⟩, silent, fun _ _ => shows_sym rfl other ?_⟩
  exact forall_mem_cons.2 ⟨rfl, forall_mem_cons.2 ⟨rfl, solid⟩⟩

theorem globalVariable_declares (run : globalVariable v s = .ok () s') :
    Declares (v.link v.isDefinition (v.linkage = .static)) s s' ∧ Static v s s' := by
  obtain ⟨t, linked, rest⟩ := globalVariable_steps run
  obtain ⟨declares, code⟩ := linked.declares
  have start : ∀ returned N, Shows returned N [] s t := fun _ _ => shows_nil code
  rcases rest with ⟨-, run⟩ | ⟨undefined, run⟩
  · obtain ⟨scopes, globals, ⟨l, -, symbols⟩, static⟩ := defineObject_names run
    refine ⟨⟨globals ▸ declares.note, declares.types, scopes ▸ declares.scopes, ?_⟩, static.callees,
      fun returned N => (start returned N).trans (static.code returned N)⟩
    rw [symbols]
    exact declares.symbols.trans (suffix_cons l _)
  · obtain ⟨bytes, -, rfl⟩ := emit_eq_ok.1 run
    refine ⟨⟨declares.note, declares.types, declares.scopes, declares.symbols⟩, ?_, fun returned N =>
      (start returned N).trans (shows_sym rfl Qualifier.noConfusion (forall_mem_singleton.2 rfl))⟩
    -- A variable that is not defined has no value.
    have without : v.init = none := by simpa using (Bool.or_eq_false_iff.1 undefined).2
    rw [VarDecl.callees, without]
    rfl

/-! ## Variables of blocks -/

theorem localExternal_declares (run : localExternal v s = .ok () s') :
    Declares (v.link false false) s s' ∧ Static v s s' := by
  obtain ⟨without, t, linked, announced⟩ := localExternal_steps run
  obtain ⟨declares, code⟩ := linked.declares
  obtain ⟨bytes, -, rfl⟩ := emit_eq_ok.1 announced
  refine ⟨⟨declares.note, declares.types, declares.scopes, declares.symbols⟩, ?_, fun _ _ => ?_⟩
  · rw [VarDecl.callees, without]
    rfl
  · exact (shows_nil code).trans (shows_sym rfl Qualifier.noConfusion (forall_mem_singleton.2 rfl))

theorem localStatic_introduces (run : localStatic v s = .ok () s') :
    (∃ storage, Introduces v.name v.type storage s s') ∧ Static v s s' := by
  obtain ⟨free, run⟩ := localStatic_steps run
  obtain ⟨scopes, globals, ⟨l, named, symbols⟩, callees, code⟩ := defineObject_names run
  refine ⟨⟨_, free, scopes, globals, ?_, ?_⟩, callees, code⟩
  · rw [symbols]
    exact suffix_cons l _
  · rintro _ ⟨⟩
    rw [symbols]
    exact ⟨l, mem_cons_self .., named⟩

theorem localAutomatic_introduces (run : localAutomatic v s = .ok () s') :
    ∃ storage, Introduces v.name v.type storage s s' := by
  obtain ⟨free, t, filled, created⟩ := declareVariable_steps (localAutomatic_steps run).2
  obtain ⟨_, -, rfl⟩ := emit_eq_ok.1 created
  obtain ⟨scopes, globals, symbols⟩ := names_of_growth ((follows_fillVariable v _).of_ok filled)
  refine ⟨_, free, scopes, globals, symbols ▸ suffix_refl _, ?_⟩
  rintro _ ⟨⟩

/-! ## Moves -/

/-- One thing that is done to names while code is made. -/
inductive Move (s : State) : State → Prop
  /-- Names are left alone; there may be more symbols for the module. -/
  | other {s' : State} (scopes : s'.scopes = s.scopes) (globals : s'.globals = s.globals)
    (symbols : s.symbols <:+ s'.symbols) : Move s s'
  | enterScope : Move s { s with scopes := s.scopes.enter }
  | exitScope : Move s { s with scopes := s.scopes.exit }
  | declareFunction {f : FunctionDecl} {isDefinition : Bool} {s' : State}
    (run : declareFunction f isDefinition s = .ok () s') : Move s s'
  | globalVariable {v : VarDecl} {s' : State} (object : v.type.isFunction = false)
    (run : globalVariable v s = .ok () s') : Move s s'
  | localVariable {v : VarDecl} {s' : State} (object : v.type.isFunction = false)
    (inside : s.scopes.atFileScope = false) (run : localDeclaration (.var v) s = .ok () s') : Move s s'
  | bindParameter {name : Name} {type : CType} {id : UInt32} {loc : Location} {s' : State}
    (object : type.isFunction = false) (inside : s.scopes.atFileScope = false)
    (run : bindName name type (.slot id) loc s = .ok () s') : Move s s'

/-- States that making code can lead to, as far as names are concerned.  Those that a program leads to are among
them (`reachable_topLevels`). -/
def Reachable (s : State) : Prop := ReflTransGen Move {} s

/-! ## What bindings stand for -/

/-- A binding in the table is of a name with linkage, which is known with that type, or of an object that is
not at file scope and is listed if it has a name in the module. -/
inductive Stands (s : State) (e : Entry) : Prop
  | linked {g : Global} (known : g ∈ s.globals) (name : g.name = e.symbol.name) (type : g.type = e.symbol.type)
    (kind : g.isFunction = e.symbol.type.isFunction) (storage : e.symbol.storage = .global e.symbol.name)
  | own (object : e.symbol.type.isFunction = false) (inside : e.scope ≠ 0)
    (listed : ∀ target, e.symbol.storage = .global target → ∃ l ∈ s.symbols, l.name = target)

/-- What moves keep.  File scope has the number 0 and is the outermost scope. -/
structure Bound (s : State) : Prop where
  made : s.scopes.Made
  bottom : s.scopes.chain.getLast? = some 0
  recorded : ∃ links, Recorded links s.globals
  entries : ∀ e ∈ s.scopes.log, Stands s e

theorem bound_empty : Bound {} := ⟨Scopes.made_empty, rfl, ⟨[], recorded_nil⟩, forall_mem_nil _⟩

theorem Stands.persist {e : Entry} (h : Stands s e)
    (globals : ∀ g ∈ s.globals, ∃ g' ∈ s'.globals, g'.Same g) (symbols : s.symbols <:+ s'.symbols) :
    Stands s' e := by
  cases h with
  | linked known name type kind storage =>
    obtain ⟨g, mem, same⟩ := globals _ known
    exact .linked mem (same.name.trans name) (same.type.trans type) (same.isFunction.trans kind) storage
  | own object inside listed =>
    refine .own object inside fun target here => ?_
    obtain ⟨l, mem, named⟩ := listed target here
    exact ⟨l, symbols.subset mem, named⟩

section Bound

theorem Bound.current_file (h : Bound s) (file : s.scopes.atFileScope = true) : s.scopes.current = 0 := by
  have outer : s.scopes.outer = [] := eq_nil_of_length_eq_zero (beq_iff_eq.1 file)
  have bottom := h.bottom
  rw [Scopes.chain, outer] at bottom
  exact Option.some.inj bottom

theorem Bound.current_inside (h : Bound s) (inside : s.scopes.atFileScope = false) : s.scopes.current ≠ 0 := by
  have falling := (pairwise_cons.1 h.made.ordered.falling).1
  cases outer : s.scopes.outer with
  | nil =>
    have depth : s.scopes.depth = 0 := by rw [Scopes.depth, outer]; rfl
    rw [Scopes.atFileScope, depth] at inside
    cases inside
  | cons scope rest =>
    have lower := falling scope (outer ▸ mem_cons_self ..)
    omega

variable {name : Name}

theorem made_bind {t : Scopes} (made : t.Made) (free : t.lookupCurrent name = none)
    (type : CType) (storage : Storage) : (t.bind ⟨name, type, t.depth, storage⟩).Made :=
  (Scopes.Varies.bind free).made made

theorem Bound.other (h : Bound s) (scopes : s'.scopes = s.scopes) (globals : s'.globals = s.globals)
    (symbols : s.symbols <:+ s'.symbols) : Bound s' where
  made := scopes ▸ h.made
  bottom := scopes ▸ h.bottom
  recorded := globals ▸ h.recorded
  entries := by
    intro e mem
    rw [scopes] at mem
    refine (h.entries e mem).persist (fun g known => ?_) symbols
    exact ⟨g, globals ▸ known, rfl, rfl, rfl⟩

theorem Bound.enterScope (h : Bound s) : Bound { s with scopes := s.scopes.enter } where
  made := h.made.perform .enter
  bottom := by
    show ((s.scopes.last + 1) :: s.scopes.chain).getLast? = some 0
    exact h.bottom
  recorded := h.recorded
  entries e mem := (h.entries e mem).persist (fun g known => ⟨g, known, rfl, rfl, rfl⟩) (suffix_refl _)

theorem Bound.exitScope (h : Bound s) : Bound { s with scopes := s.scopes.exit } where
  made := h.made.perform .exit
  bottom := by
    have bottom := h.bottom
    cases outer : s.scopes.outer with
    | nil =>
      have same : s.scopes.exit = s.scopes := by rw [Scopes.exit, outer]
      rw [same]
      exact bottom
    | cons scope rest =>
      have chain : s.scopes.exit.chain = scope :: rest := by rw [Scopes.exit, outer]; rfl
      rw [Scopes.chain, outer, getLast?_cons_cons] at bottom
      rw [chain]
      exact bottom
  recorded := h.recorded
  entries e mem := by
    have old : e ∈ s.scopes.log := s.scopes.exit_log ▸ mem
    exact (h.entries e old).persist (fun g known => ⟨g, known, rfl, rfl, rfl⟩) (suffix_refl _)

theorem Bound.declares {g : Global} (h : Bound s) (declares : Declares g s s')
    (kind : g.isFunction = g.type.isFunction) : Bound s' := by
  have kept : ∀ e ∈ s.scopes.log, Stands s' e := fun e mem =>
    (h.entries e mem).persist (fun _ => declares.note.kept) declares.symbols
  have recorded : ∃ links, Recorded links s'.globals := by
    obtain ⟨links, before⟩ := h.recorded
    exact ⟨_, before.note declares.note⟩
  obtain ⟨k, known, same⟩ := declares.note.known declares.types
  have links := declares.scopes
  generalize after : s'.scopes = t at links
  cases links with
  | present taken => exact ⟨after ▸ h.made, after ▸ h.bottom, recorded, after ▸ kept⟩
  | bound free =>
    refine ⟨after ▸ made_bind h.made free _ _, after ▸ h.bottom, recorded, ?_⟩
    rw [after]
    refine forall_mem_cons.2 ⟨?_, kept⟩
    exact .linked known same.name same.type (same.isFunction.trans kind) rfl

theorem Bound.introduces {type : CType} {storage : Storage} (h : Bound s)
    (introduces : Introduces name type storage s s') (object : type.isFunction = false)
    (inside : s.scopes.atFileScope = false) : Bound s' := by
  have kept : ∀ e ∈ s.scopes.log, Stands s' e := fun e mem =>
    (h.entries e mem).persist (fun g known => ⟨g, introduces.globals ▸ known, rfl, rfl, rfl⟩) introduces.symbols
  refine ⟨?_, ?_, introduces.globals ▸ h.recorded, ?_⟩
  · rw [introduces.scopes]
    exact made_bind h.made introduces.free _ _
  · rw [introduces.scopes]
    exact h.bottom
  · rw [introduces.scopes]
    refine forall_mem_cons.2 ⟨?_, kept⟩
    exact .own object (h.current_inside inside) introduces.listed

end Bound

theorem Move.bound (move : Move s s') (h : Bound s) : Bound s' := by
  cases move with
  | other scopes globals symbols => exact h.other scopes globals symbols
  | enterScope => exact h.enterScope
  | exitScope => exact h.exitScope
  | declareFunction run => exact h.declares (declareFunction_links run).declares.1 rfl
  | globalVariable object run => exact h.declares (globalVariable_declares run).1 object.symm
  | @localVariable v _ object inside run =>
    rcases localVariable_cases run with ⟨-, run⟩ | ⟨-, run⟩ | ⟨-, run⟩
    · exact h.declares (localExternal_declares run).1 object.symm
    · obtain ⟨⟨storage, introduces⟩, -⟩ := localStatic_introduces run
      exact h.introduces introduces object inside
    · obtain ⟨storage, introduces⟩ := localAutomatic_introduces run
      exact h.introduces introduces object inside
  | bindParameter object inside run =>
    obtain ⟨free, rfl⟩ := bindName_free run
    refine h.introduces ⟨free, rfl, rfl, suffix_refl _, ?_⟩ object inside
    rintro _ ⟨⟩

theorem bound_of_moves (moves : ReflTransGen Move s s') (h : Bound s) : Bound s' := by
  induction moves with
  | refl => exact h
  | tail _ move ih => exact move.bound ih

theorem Reachable.bound (h : Reachable s) : Bound s := bound_of_moves h bound_empty

end Lowering

/-! ## Function declarations in sight -/

/-- A function can be seen: its name is found, with its type, and stands for the function itself. -/
def FunctionDecl.Visible (f : FunctionDecl) (t : Scopes) : Prop :=
  ∃ symbol, t.lookup f.name = some symbol ∧ symbol.type = f.type ∧ symbol.storage = .global f.name

def Scopes.HasObject (t : Scopes) (name : Name) : Prop :=
  ∃ symbol, t.lookupCurrent name = some symbol ∧ symbol.type.isFunction = false

namespace Lowering

variable {s s' : State} {f : FunctionDecl} {isDefinition : Bool}

theorem lookup_declareFunction (made : s.scopes.Made) (run : declareFunction f isDefinition s = .ok () s') :
    s'.scopes.lookup f.name = s'.scopes.lookupCurrent f.name :=
  (declareFunction_links run).nests.scopes.lookup_own made (mem_singleton.2 rfl)

variable {symbol : Symbol}

theorem Bound.stands_current {name : Name} (h : Bound s) (found : s.scopes.lookupCurrent name = some symbol) :
    ∃ e, Stands s e ∧ e.symbol = symbol ∧ symbol.name = name ∧ e.scope = s.scopes.current := by
  obtain ⟨e, first, rfl⟩ := Option.map_eq_some_iff.1 found
  have here := find?_some first
  rw [Bool.and_eq_true, beq_iff_eq, beq_iff_eq] at here
  exact ⟨e, h.entries e (mem_of_find?_eq_some first), rfl, here.1, here.2⟩

theorem Bound.find_global {g : Global} (h : Bound s) (known : g ∈ s.globals) :
    s.globals.find? (·.name == g.name) = some g := by
  obtain ⟨links, recorded⟩ := h.recorded
  cases found : s.globals.find? (·.name == g.name) with
  | none =>
    have missing := find?_eq_none.1 found g known
    simp at missing
  | some k =>
    have named : k.name = g.name := by simpa using find?_some found
    rw [inj_on_of_nodup_map recorded.once (mem_of_find?_eq_some found) known named]

/-- What the current scope has under the name of a function that is declared is the function, or an object of
the block. -/
theorem Bound.taken_cases (h : Bound s)
    (taken : s.scopes.lookupCurrent f.name = some symbol) (run : declareFunction f isDefinition s = .ok () s') :
    symbol.type = f.type ∧ symbol.storage = .global f.name ∨
      symbol.type.isFunction = false ∧ s.scopes.atFileScope = false := by
  obtain ⟨e, stands, rfl, named, scope⟩ := h.stands_current taken
  cases stands with
  | own object inside _ =>
    refine .inr ⟨object, Bool.eq_false_iff.2 fun file => ?_⟩
    exact inside (scope.trans (h.current_file file))
  | @linked g known name type kind storage =>
    have same := h.find_global known
    rw [name, named] at same
    exact .inl ⟨type.symm.trans ((declareFunction_links run).declares.1.types g same), named ▸ storage⟩

/-- After a declaration the function is visible, or else an object of the block is in the way. -/
theorem Bound.sight_cases (h : Bound s) (run : declareFunction f isDefinition s = .ok () s') :
    f.Visible s'.scopes ∧ ¬ s.scopes.HasObject f.name ∨
      ¬ f.Visible s'.scopes ∧ s.scopes.HasObject f.name ∧ s.scopes.atFileScope = false := by
  have sight := lookup_declareFunction h.made run
  have links := (declareFunction_links run).declares.1.scopes
  generalize s'.scopes = t at links sight ⊢
  cases links with
  | bound free =>
    refine .inl ⟨⟨⟨f.name, f.type, s.scopes.depth, .global f.name⟩, sight.trans ?_, rfl, rfl⟩, ?_⟩
    · exact (Scopes.bindingIn_bind ..).trans (if_pos ⟨rfl, rfl⟩)
    · rintro ⟨symbol, taken, -⟩
      cases free.symm.trans taken
  | @present symbol taken =>
    rcases h.taken_cases taken run with ⟨type, storage⟩ | ⟨object, inside⟩
    · refine .inl ⟨⟨symbol, sight.trans taken, type, storage⟩, ?_⟩
      rintro ⟨other, here, object⟩
      obtain rfl := Option.some.inj (taken.symm.trans here)
      rw [type] at object
      cases object
    · refine .inr ⟨?_, ⟨symbol, taken, object⟩, inside⟩
      rintro ⟨other, found, type, -⟩
      obtain rfl := Option.some.inj (found.symm.trans (sight.trans taken))
      rw [type] at object
      cases object

/-- A function that is declared is visible, unless the current scope has an object under its name: then the
declaration succeeds, and the object stays in sight.  There are no such objects at file scope. -/
theorem visible_iff_declareFunction (reachable : Reachable s) (run : declareFunction f isDefinition s = .ok () s') :
    (f.Visible s'.scopes ↔ ¬ s.scopes.HasObject f.name) ∧ (s.scopes.atFileScope = true → f.Visible s'.scopes) := by
  rcases reachable.bound.sight_cases run with ⟨visible, free⟩ | ⟨hidden, object, inside⟩
  · exact ⟨iff_of_true visible free, fun _ => visible⟩
  · refine ⟨iff_of_false hidden (not_not.2 object), fun file => ?_⟩
    rw [inside] at file
    cases file

def shadowed : State := { scopes := Scopes.empty.enter.bind ⟨ascii "f", .int, 1, .slot 0⟩ }

def plainFunction : FunctionDecl := ⟨ascii "f", ⟨.int, [], false⟩, [], .plain, ⟨1, 1⟩⟩

theorem reachable_shadowed : Reachable shadowed := by
  have inside : Reachable { scopes := Scopes.empty.enter } := .single .enterScope
  have run : bindName (ascii "f") .int (.slot 0) ⟨1, 1⟩ { scopes := Scopes.empty.enter } = .ok () shadowed := rfl
  exact inside.tail (.bindParameter rfl rfl run)

/-- Where there is a number under the name already, and at file scope. -/
theorem visible_iff_declareFunction_shadowed :
    (∃ s', declareFunction plainFunction false shadowed = .ok () s' ∧
      (plainFunction.Visible s'.scopes ↔ ¬ shadowed.scopes.HasObject plainFunction.name) ∧
      (shadowed.scopes.atFileScope = true → plainFunction.Visible s'.scopes)) ∧
    ∃ s', declareFunction plainFunction true {} = .ok () s' ∧ plainFunction.Visible s'.scopes :=
  ⟨⟨_, rfl, visible_iff_declareFunction reachable_shadowed rfl⟩, _, rfl, (visible_iff_declareFunction .refl rfl).2 rfl⟩

/-- A function that is declared where there is a number under its name, and then called. -/
def callHidden : Bytes := ascii "int g(void)\x7bint f;int f(void);return f();\x7d"

/-- A declaration may succeed and leave the name to the number, which cannot be called. -/
theorem hidden_declareFunction : (∃ s s', Reachable s ∧ declareFunction plainFunction false s = .ok () s' ∧
      ¬ plainFunction.Visible s'.scopes) ∧
    compile callHidden = .error (.lower (.unsupported (.callThrough (ascii "f"))) ⟨1, 39⟩) := by
  constructor
  · refine ⟨shadowed, _, reachable_shadowed, rfl, ?_⟩
    rintro ⟨symbol, found, type, -⟩
    obtain rfl : ⟨ascii "f", .int, 1, .slot 0⟩ = symbol := Option.some.inj found
    cases type
  · decide +kernel

end Lowering

end Cof
