/-
  The states that making code for a program goes through.

  Under a statement, the state changes by growth (code, numbers and types), by opening and closing
  scopes, by binding names, and by what is kept about names with linkage and symbols.  `Change` lists
  these changes.  None of them touches the enclosing loops or the enclosing function: a loop is pushed
  before its body and popped after it, so that outside of `inLoop` nothing is seen of it.
-/
import Cof.Proofs.Declared
import Cof.Proofs.Structured

namespace Cof

open List

/-! ## Scopes -/

variable {t : Scopes} {name : Name} {symbol : Symbol}

theorem Scopes.lookup_mem (h : t.lookup name = some symbol) : ∃ entry ∈ t.log, entry.symbol = symbol := by
  obtain ⟨entry, found, rfl⟩ := Option.map_eq_some_iff.1 h
  exact ⟨entry, mem_of_find?_eq_some found, rfl⟩

namespace Lowering

open Relation

variable {α β : Type} {s s' : State}

/-! ## Changes -/

/-- What changes are limited to: the instructions that may be added, whether labels may be taken, the
types that names may get, and the names that may be recorded and listed. -/
structure Limits where
  instrs : Instr → Prop
  labels : Prop
  types : CType → Prop
  names : Name → Prop

/-- One change made for a statement. -/
inductive Change (L : Limits) (s : State) : State → Prop
  | growth {s' : State} (h : Growth L.instrs L.labels s s') : Change L s s'
  | enterScope : Change L s { s with scopes := s.scopes.enter }
  | exitScope : Change L s { s with scopes := s.scopes.exit }
  | bindName {name : Name} {type : CType} {storage : Storage} (free : s.scopes.lookupCurrent name = none)
    (declared : L.types type) (issued : ∀ id, storage = .slot id → ∃ k < s.variableCount, id = UInt32.ofNat k) :
    Change L s { s with scopes := s.scopes.bind ⟨name, type, s.scopes.depth, storage⟩ }
  | addGlobal {g : Global} (declared : L.names g.name) : Change L s { s with globals := g :: s.globals }
  | refineGlobal (name : Name) (defined isStatic : Bool) :
    Change L s { s with
      globals := s.globals.map fun g =>
        if g.name == name then
          { g with defined := g.defined || defined, isStatic := g.isStatic || isStatic }
        else g }
  | countStatic : Change L s { s with statics := s.statics + 1 }
  | listSymbol {symbol : Listed}
    (declared : L.names symbol.name ∨ ∃ name number, L.names name ∧
      symbol.name = staticName (s.currentFunction.getD []) name number) :
    Change L s (s.list symbol)

/-- One change made for a program. -/
inductive Advance (L : Limits) (s : State) : State → Prop
  | change {s' : State} (h : Change L s s') : Advance L s s'
  | setLoops (loops : List LoopLabels) : Advance L s { s with loops := loops }
  | setFunction (type : Option CType) {name : Option Name} (declared : ∀ n, name = some n → L.names n) :
    Advance L s { s with returnType := type, currentFunction := name }

def ofProgram (p : Program) : Limits where
  instrs _ := True
  labels := True
  types type := type ∈ p.types
  names name := name ∈ p.names

/-- A state that making code for a program may go through. -/
def Reached (p : Program) (s : State) : Prop := ReflTransGen (Advance (ofProgram p)) {} s

variable {p : Program} {L : Limits} {m : Lower α} {f : FunctionDecl} {body : List Stmt} {t : TopLevel}
  {ts : List TopLevel}

theorem Reached.induction {I : State → Prop} (start : I {})
    (step : ∀ s s', I s → Advance (ofProgram p) s s' → I s') (h : Reached p s) : I s := by
  induction h with
  | refl => exact start
  | tail _ change ih => exact step _ _ ih change

theorem Reached.bound {p : Program} (h : Reached p s) : ∀ entry ∈ s.scopes.log,
    entry.symbol.type ∈ p.types ∧
      ∀ id, entry.symbol.storage = .slot id → ∃ k < s.variableCount, id = UInt32.ofNat k := by
  refine h.induction (I := fun s => ∀ entry ∈ s.scopes.log, entry.symbol.type ∈ p.types ∧
    ∀ id, entry.symbol.storage = .slot id → ∃ k < s.variableCount, id = UInt32.ofNat k) nofun ?_
  intro s s' ih step
  cases step with
  | setLoops | setFunction => exact ih
  | change step =>
    cases step with
    | growth step =>
      cases step with
      | emit | refuse | freshLabel | noteType => exact ih
      | freshVariable =>
        intro entry hentry
        refine ⟨(ih entry hentry).1, fun id hid => ?_⟩
        obtain ⟨k, hk, rfl⟩ := (ih entry hentry).2 id hid
        exact ⟨k, Nat.lt_succ_of_lt hk, rfl⟩
    | enterScope => exact ih
    | exitScope => exact fun entry hentry => ih entry (s.scopes.exit_log ▸ hentry)
    | bindName free declared issued =>
      intro entry hentry
      rcases mem_cons.1 hentry with rfl | hentry
      · exact ⟨declared, issued⟩
      · exact ih entry hentry
    | addGlobal | refineGlobal | countStatic | listSymbol => exact ih

/-! ## Loops and functions are left alone -/

section Frame

variable {L : Limits}

theorem Change.loops (h : Change L s s') : s'.loops = s.loops := by
  cases h with
  | growth h => cases h <;> rfl
  | _ => rfl

theorem Change.returnType (h : Change L s s') : s'.returnType = s.returnType := by
  cases h with
  | growth h => cases h <;> rfl
  | _ => rfl

theorem Change.currentFunction (h : Change L s s') : s'.currentFunction = s.currentFunction := by
  cases h with
  | growth h => cases h <;> rfl
  | _ => rfl

theorem Change.withLoops (h : Change L s s') (loops : List LoopLabels) :
    Change L { s with loops := loops } { s' with loops := loops } := by
  cases h with
  | growth h =>
    cases h with
    | emit encodes ok => exact .growth (.emit encodes ok)
    | refuse written => exact .growth (.refuse written)
    | freshVariable => exact .growth .freshVariable
    | freshLabel ok => exact .growth (.freshLabel ok)
    | noteType loc type => exact .growth (.noteType loc type)
  | enterScope => exact .enterScope
  | exitScope => exact .exitScope
  | bindName free declared issued => exact .bindName free declared issued
  | addGlobal declared => exact .addGlobal declared
  | refineGlobal name defined isStatic => exact .refineGlobal name defined isStatic
  | countStatic => exact .countStatic
  | listSymbol declared => exact .listSymbol declared

variable (h : ReflTransGen (Change L) s s')
include h

theorem loops_of_changes : s'.loops = s.loops := by
  induction h with
  | refl => rfl
  | tail _ change ih => rw [change.loops, ih]

theorem returnType_of_changes : s'.returnType = s.returnType := by
  induction h with
  | refl => rfl
  | tail _ change ih => rw [change.returnType, ih]

theorem currentFunction_of_changes : s'.currentFunction = s.currentFunction := by
  induction h with
  | refl => rfl
  | tail _ change ih => rw [change.currentFunction, ih]

theorem code_of_changes : ∃ added, s'.code = added ++ s.code ∧ ∀ i ∈ added, L.instrs i := by
  induction h with
  | refl => exact ⟨[], rfl, nofun⟩
  | tail _ change ih =>
    obtain ⟨added, code, ok⟩ := ih
    cases change with
    | growth change =>
      cases change with
      | emit encodes allowed =>
        refine ⟨_ :: added, congrArg (List.cons _) code, fun i hi => ?_⟩
        rcases mem_cons.1 hi with rfl | hi
        · exact allowed
        · exact ok i hi
      | refuse | freshVariable | freshLabel | noteType => exact ⟨added, code, ok⟩
    | _ => exact ⟨added, code, ok⟩

theorem changes_withLoops (loops : List LoopLabels) :
    ReflTransGen (Change L) { s with loops := loops } { s' with loops := loops } := by
  induction h with
  | refl => exact .refl
  | tail _ change ih => exact ih.tail (change.withLoops loops)

end Frame

theorem follows_inLoop (labels : LoopLabels) (h : Follows (Change L) m) : Follows (Change L) (inLoop labels m) := by
  intro s
  have body := h { s with loops := labels :: s.loops }
  have same := loops_of_changes body
  have outside := changes_withLoops body s.loops
  unfold stateAfter inLoop at *
  cases run : m { s with loops := labels :: s.loops } with
  | ok a t =>
    simp only [run] at same outside ⊢
    simpa only [same, tail_cons] using outside
  | error e t =>
    simp only [run] at same outside ⊢
    simpa only [same, tail_cons] using outside

/-! ## Declarations -/

section Declarations

variable {L : Limits}

theorem Follows.change {m : Lower α} (h : Follows (Growth L.instrs L.labels) m) :
    Follows (Change L) m := h.mono fun _ _ => .growth

variable {name : Name} {type : CType} {loc : Location} {f : FunctionDecl} {v : VarDecl} {T : State → State → Prop}

/-- A relation that is wide enough for declarations within limits: it allows to bind and to record what is declared,
and to list objects, with the directives for them. -/
structure Records (L : Limits) (T : State → State → Prop) : Prop where
  bindName : ∀ {name type storage loc s}, L.types type →
    (∀ id, storage = .slot id → ∃ k < s.variableCount, id = UInt32.ofNat k) →
    ReflTransGen T s (stateAfter (bindName name type storage loc) s)
  addGlobal : ∀ {g}, L.names g.name → Follows T (addGlobal g)
  refineGlobal : ∀ name defined isStatic, Follows T (refineGlobal name defined isStatic)
  countStatic : ∀ s, T s { s with statics := s.statics + 1 }
  directive : ∀ {qualifier operands}, qualifier ≠ .label → qualifier ≠ .function →
    Follows T (emit .sym qualifier operands)
  defineObject : ∀ {name v isStatic s},
    (L.names name ∨ ∃ n number, L.names n ∧ name = staticName (s.currentFunction.getD []) n number) →
    ReflTransGen T s (stateAfter (defineObject name v isStatic) s)

section Records

variable (hT : Records L T)
include hT

theorem Records.bindLinked {global : Name} (declared : L.types type) :
    Follows T (Lowering.bindName name type (.global global) loc) := fun _ => hT.bindName declared nofun

theorem Records.bindGlobal (declared : L.types type) : Follows T (bindGlobal name type loc) :=
  follows_seq follows_get fun _ => follows_ite (hT.bindLinked declared) follows_pure

theorem Records.declareFunction (isDefinition : Bool) (name : L.names f.name) (type : L.types f.type) :
    Follows T (declareFunction f isDefinition) := by
  refine follows_seq (follows_seq (follows_seq follows_get fun _ => follows_pure) fun found => ?_) fun _ =>
    hT.bindGlobal type
  cases found with
  | none => exact hT.addGlobal name
  | some g =>
    refine follows_ite follows_fail (follows_ite follows_fail (follows_ite follows_fail ?_))
    exact hT.refineGlobal _ _ _

theorem Records.globalVariable (name : L.names v.name) (type : L.types v.type) : Follows T (globalVariable v) := by
  refine follows_seq (follows_seq (follows_seq follows_get fun _ => follows_pure) fun found => ?_) fun _ => ?_
  · cases found with
    | none => exact follows_seq (hT.addGlobal name) fun _ => hT.bindLinked type
    | some g =>
      refine follows_ite follows_fail (follows_ite follows_fail ?_)
      exact follows_seq (hT.refineGlobal _ _ _) fun _ => hT.bindGlobal type
  · exact follows_ite (fun _ => hT.defineObject (.inl name)) (hT.directive (by decide) (by decide))

theorem Records.localExternal (name : L.names v.name) (type : L.types v.type) : Follows T (localExternal v) := by
  refine follows_ite follows_unsupported ?_
  refine follows_seq (follows_seq follows_get fun _ => follows_pure) fun found => ?_
  cases found with
  | none =>
    refine follows_seq (hT.bindLinked type) fun _ => ?_
    exact follows_seq (hT.addGlobal name) fun _ => hT.directive (by decide) (by decide)
  | some g =>
    refine follows_ite follows_fail (follows_seq (hT.bindLinked type) fun _ => ?_)
    exact hT.directive (by decide) (by decide)

theorem Records.localStatic (name : L.names v.name) (type : L.types v.type) : Follows T (localStatic v) := by
  intro s
  refine stateAfter_bind .refl fun t u run => ?_
  obtain ⟨rfl, rfl⟩ := get_eq_ok.1 run
  refine stateAfter_bind (.single (hT.countStatic s)) fun _ t run => ?_
  obtain rfl := set_eq_ok.1 run
  refine stateAfter_bind (hT.bindLinked type _) fun _ t run => ?_
  obtain ⟨-, rfl⟩ := bindName_free run
  exact hT.defineObject (.inr ⟨v.name, s.statics, name, rfl⟩)

end Records

theorem follows_initialValue (v : VarDecl) : Follows T (initialValue v) := by
  unfold initialValue
  cases v.init with
  | none => exact follows_pure
  | some init =>
    refine follows_seq (follows_ite follows_unsupported ?_) fun _ => follows_pure
    cases constantBits? v.type init with
    | none => exact follows_unsupported
    | some bits => exact follows_pure

theorem follows_offset : Follows T offset := by
  refine follows_seq follows_get fun t => ?_
  cases t.out.offset with
  | ok n => exact follows_pure
  | error e => exact follows_throw

theorem records_change (directive : ∀ qualifier operands, qualifier ≠ .label → qualifier ≠ .function →
    L.instrs ⟨.sym, qualifier, operands⟩) : Records L (Change L) where
  bindName {name type storage loc s} declared issued := by
    cases taken : s.scopes.lookupCurrent name with
    | none =>
      rw [stateAfter, Scopes.bindName_of_free taken]
      exact .single (.bindName taken declared issued)
    | some symbol =>
      rw [stateAfter, Scopes.bindName_taken taken]
  addGlobal declared := follows_modify fun _ => .addGlobal declared
  refineGlobal name defined isStatic := follows_modify fun _ => .refineGlobal name defined isStatic
  countStatic _ := .countStatic
  directive other other' := (follows_emit (directive _ _ other other')).change
  defineObject {name v isStatic s} declared := by
    refine stateAfter_bind (follows_initialValue v s) fun value t run => ?_
    have same := currentFunction_of_changes (L := L) ((follows_initialValue v).of_ok run)
    refine stateAfter_bind (follows_offset t) fun start u run => ?_
    have same := (currentFunction_of_changes (L := L) (follows_offset.of_ok run)).trans same
    refine stateAfter_bind ((follows_emit ?_).change u) fun _ w run => ?_
    · cases isStatic <;> exact directive _ _ (by decide) (by decide)
    have same : w.currentFunction = s.currentFunction := by
      obtain ⟨bytes, _, rfl⟩ := emit_eq_ok.1 run
      exact same
    exact .single (.listSymbol (by rwa [same]))

end Declarations

/-! ## Statements -/

/-- Limits that any instruction and any label pass. -/
structure Limits.Open (L : Limits) : Prop where
  instrs : ∀ i, L.instrs i
  labels : L.labels

/-- A declaration of a name and a type within the limits. -/
structure Limits.Admits (L : Limits) (d : Declaration) : Prop where
  name : L.names d.name
  type : L.types d.type

def Limits.unbounded : Limits := ⟨fun _ => True, True, fun _ => True, fun _ => True⟩

theorem Limits.unbounded_open : unbounded.Open := ⟨fun _ => trivial, trivial⟩

theorem Limits.unbounded_admits (d : Declaration) : unbounded.Admits d := ⟨trivial, trivial⟩

/-- A relation that is wide enough for statements: it allows growth, any instruction, opening and closing
scopes, and whatever it allows also inside of a loop.  What declarations do is up to it. -/
structure Hosts (T : State → State → Prop) : Prop where
  growth : ∀ s s', AnyGrowth s s' → T s s'
  emit : ∀ opcode qualifier operands, Follows T (emit opcode qualifier operands)
  enterScope : Follows T enterScope
  exitScope : Follows T exitScope
  inLoop : ∀ (labels : LoopLabels) (m : Lower Unit), Follows T m → Follows T (inLoop labels m)

section Hosts

variable {T : State → State → Prop}

theorem Hosts.grows {m : Lower α} (hT : Hosts T) (h : Follows AnyGrowth m) : Follows T m := h.mono hT.growth

theorem Hosts.growing (hT : Hosts T) : Growing (fun d => Follows T (localDeclaration d)) .unit fun _ m => Follows T m where
  silent _ := rfl
  growth := hT.grows
  bind := follows_seq
  declaration := id
  scope inner := follows_seq hT.enterScope fun _ =>
    follows_seq (follows_seq (hT.emit _ _ _) fun _ => follows_seq inner fun _ => hT.emit _ _ _) fun _ => hT.exitScope
  inLoop labels := hT.inLoop labels _

end Hosts

theorem follows_fillVariable (v : VarDecl) (target : Operand) : Follows AnyGrowth (fillVariable v target) :=
  growing.fillVariable v target [] trivial

theorem Hosts.functionFrame {T : State → State → Prop} (hT : Hosts T)
    (params : Follows T (bindParameters f.loc 0 f.params))
    (h : ∀ d ∈ Stmt.allDeclarations body, Follows T (localDeclaration d)) : Follows T (functionFrame f body) := by
  refine follows_seq hT.enterScope fun _ => ?_
  refine follows_seq (hT.emit _ _ _) fun _ => ?_
  refine follows_seq hT.enterScope fun _ => ?_
  refine follows_seq params fun _ => ?_
  refine follows_seq (hT.emit _ _ _) fun _ => ?_
  refine follows_seq (hT.growing.statements Grading.grades_unit body h) fun _ => ?_
  refine follows_seq (hT.emit _ _ _) fun _ => ?_
  refine follows_seq hT.exitScope fun _ => ?_
  refine follows_seq (hT.emit _ _ _) fun _ => ?_
  exact follows_seq (hT.emit _ _ _) fun _ => hT.exitScope

section Records

variable {L : Limits} {T : State → State → Prop} (records : Records L T) (hosts : Hosts T)
include records hosts

theorem Records.bindFresh {name : Name} {type : CType} {loc : Location} {f : UInt32 → Lower α}
    (declared : L.types type) (rest : ∀ id, Follows T (f id)) : Follows T (do
      let id ← freshVariable
      Lowering.bindName name type (.slot id) loc
      f id) := by
  intro s
  refine stateAfter_bind (hosts.grows follows_freshVariable s) fun id t run => ?_
  obtain ⟨rfl, rfl⟩ := freshVariable_eq_ok.1 run
  refine stateAfter_bind (records.bindName declared ?_) fun _ _ _ => rest _ _
  rintro id ⟨⟩
  exact ⟨_, Nat.lt_succ_self _, rfl⟩

theorem Records.localAutomatic {v : VarDecl} (type : L.types v.type) : Follows T (localAutomatic v) := by
  refine follows_ite follows_unsupported (records.bindFresh hosts type fun id => ?_)
  refine follows_seq (follows_seq (hosts.emit _ _ _) fun _ => follows_pure) fun target => ?_
  exact hosts.grows (follows_fillVariable v target)

theorem Records.localDeclaration {d : Declaration} (h : L.Admits d) : Follows T (localDeclaration d) := by
  cases d with
  | proto f => exact records.declareFunction false h.name h.type
  | var v =>
    unfold Lowering.localDeclaration
    simp only
    split
    · exact records.localExternal h.name h.type
    · exact records.localStatic h.name h.type
    · exact records.localAutomatic hosts h.type

theorem Records.functionFrame {f : FunctionDecl} {body : List Stmt} (params : ∀ p ∈ f.params, L.types p.type)
    (h : ∀ d ∈ Stmt.allDeclarations body, L.Admits d) : Follows T (functionFrame f body) := by
  refine hosts.functionFrame ?_ fun d mem => records.localDeclaration hosts (h d mem)
  generalize f.params = bound at params
  generalize 0 = index
  induction bound generalizing index with
  | nil => exact follows_pure
  | cons p rest ih =>
    refine records.bindFresh hosts (params p (by simp)) fun id => ?_
    refine follows_seq (follows_seq (hosts.emit _ _ _) fun _ => follows_pure) fun var => ?_
    exact follows_seq (hosts.emit _ _ _) fun _ => ih (fun q mem => params q (by simp [mem])) _

end Records

section Statements

variable {L : Limits}

theorem follows_enterScope : Follows (Change L) enterScope := follows_modify fun _ => .enterScope

theorem follows_exitScope : Follows (Change L) exitScope := follows_modify fun _ => .exitScope

variable (hL : L.Open)
include hL

theorem hosts_change : Hosts (Change L) where
  growth s s' change := by
    refine .growth ?_
    cases change with
    | emit encodes _ => exact .emit encodes (hL.instrs _)
    | refuse written => exact .refuse written
    | freshVariable => exact .freshVariable
    | freshLabel _ => exact .freshLabel hL.labels
    | noteType loc type => exact .noteType loc type
  emit _ _ _ := (follows_emit (hL.instrs _)).change
  enterScope := follows_enterScope
  exitScope := follows_exitScope
  inLoop labels _ := follows_inLoop labels

theorem Follows.changeOpen {m : Lower α} (h : Follows AnyGrowth m) : Follows (Change L) m := (hosts_change hL).grows h

theorem follows_emitOpen (opcode : Opcode) (qualifier : Qualifier) (operands : List Operand) :
    Follows (Change L) (emit opcode qualifier operands) := (hosts_change hL).emit _ _ _

theorem records_open : Records L (Change L) := records_change fun _ _ _ _ => hL.instrs _

theorem follows_localAutomatic {v : VarDecl} (type : L.types v.type) : Follows (Change L) (localAutomatic v) :=
  (records_open hL).localAutomatic (hosts_change hL) type

theorem follows_localDeclaration {d : Declaration} (h : L.Admits d) : Follows (Change L) (localDeclaration d) :=
  (records_open hL).localDeclaration (hosts_change hL) h

theorem follows_statement (st : Stmt) (h : ∀ d ∈ st.declarations, L.Admits d) : Follows (Change L) (statement st) :=
  (hosts_change hL).growing.statement Grading.grades_unit st fun d hd => follows_localDeclaration hL (h d hd)

end Statements

/-! ## Programs -/

theorem follows_functionFrame (hL : L.Open)
    (params : ∀ p ∈ f.params, L.types p.type) (h : ∀ d ∈ Stmt.allDeclarations body, L.Admits d) :
    Follows (Change L) (functionFrame f body) :=
  (records_open hL).functionFrame (hosts_change hL) params h

/-- What a state keeps of names is within limits. -/
structure Limits.Covers (L : Limits) (s : State) : Prop where
  function : ∀ name, s.currentFunction = some name → L.names name
  globals : ∀ g ∈ s.globals, L.names g.name

theorem Limits.Covers.advance (h : L.Covers s) (step : Advance L s s') : L.Covers s' := by
  obtain ⟨function, globals⟩ := h
  cases step with
  | setLoops loops => exact ⟨function, globals⟩
  | setFunction type declared => exact ⟨declared, globals⟩
  | change step =>
    cases step with
    | growth step => cases step <;> exact ⟨function, globals⟩
    | addGlobal declared =>
      refine ⟨function, fun g hg => ?_⟩
      rcases mem_cons.1 hg with rfl | hg
      · exact declared
      · exact globals g hg
    | refineGlobal name defined isStatic =>
      refine ⟨function, fun g hg => ?_⟩
      obtain ⟨g', hg', rfl⟩ := mem_map.1 hg
      have declared := globals g' hg'
      split <;> exact declared
    | _ => exact ⟨function, globals⟩

theorem Limits.Covers.advances (h : L.Covers s) (steps : ReflTransGen (Advance L) s s') : L.Covers s' := by
  induction steps with
  | refl => exact h
  | tail _ step ih => exact ih.advance step

theorem Follows.advance (h : Follows (Change L) m) : Follows (Advance L) m := h.mono fun _ _ => .change

theorem advances_defineFunction (hL : L.Open) (name : L.names f.name) (params : ∀ p ∈ f.params, L.types p.type)
    (h : ∀ d ∈ Stmt.allDeclarations body, L.Admits d) (hs : L.Covers s) :
    ReflTransGen (Advance L) s (stateAfter (defineFunction f body) s) := by
  refine stateAfter_bind (follows_offset s) fun start t run => ?_
  have ht := hs.advances (follows_offset.of_ok run)
  refine stateAfter_bind ((follows_emitOpen hL _ _ _).advance t) fun _ u run => ?_
  have hu := ht.advances ((follows_emitOpen hL _ _ _).advance.of_ok run)
  refine stateAfter_bind .refl fun before t run => ?_
  obtain ⟨rfl, rfl⟩ := get_eq_ok.1 run
  refine stateAfter_bind (.single (.setFunction _ ?_)) fun _ t run => ?_
  · rintro _ ⟨⟩
    exact name
  clear run
  revert t
  refine follows_seq (follows_functionFrame hL params h).advance fun _ => ?_
  refine follows_seq (follows_modify fun _ => .setFunction _ hu.function) fun _ => ?_
  refine follows_seq follows_offset fun stop => ?_
  exact follows_modify fun _ => .change (.listSymbol (.inl name))

theorem advances_topLevel (hL : L.Open)
    (h : ∀ d ∈ t.declarations, L.Admits d) (params : ∀ type ∈ t.parameterTypes, L.types type)
    (hs : L.Covers s) : ReflTransGen (Advance L) s (stateAfter (topLevel t) s) := by
  match t with
  | .declare (.proto f) =>
    have hf := h (.proto f) (by simp [TopLevel.declarations])
    exact ((records_open hL).declareFunction false hf.name hf.type).advance s
  | .declare (.var v) =>
    have hv := h (.var v) (by simp [TopLevel.declarations])
    exact ((records_open hL).globalVariable hv.name hv.type).advance s
  | .define f body =>
    have hf := h (.proto f) (by simp [TopLevel.declarations])
    have declare := ((records_open hL).declareFunction true hf.name hf.type).advance
    refine stateAfter_bind (declare s) fun _ t run => ?_
    refine advances_defineFunction hL hf.name (fun p hp => ?_) (fun d hd => ?_) (hs.advances (declare.of_ok run))
    · exact params p.type (mem_map.2 ⟨p, hp, rfl⟩)
    · exact h d (by simp [TopLevel.declarations, hd])

theorem advances_topLevels (hL : L.Open) (h : ∀ t ∈ ts, ∀ d ∈ t.declarations, L.Admits d)
    (params : ∀ t ∈ ts, ∀ type ∈ t.parameterTypes, L.types type)
    (hs : L.Covers s) : ReflTransGen (Advance L) s (stateAfter (ts.forM topLevel) s) := by
  induction ts generalizing s with
  | nil => exact .refl
  | cons t ts ih =>
    have first := advances_topLevel hL (h t (by simp)) (params t (by simp)) hs
    refine stateAfter_bind first fun _ u run => ?_
    refine ih (fun t ht => h t (by simp [ht])) (fun t ht => params t (by simp [ht])) ?_
    exact hs.advances (by simpa only [stateAfter, run] using first)

theorem advances_listSymbols (symbols : List Listed) (h : ∀ symbol ∈ symbols, L.names symbol.name) :
    ReflTransGen (Advance L) s (symbols.foldl State.list s) := by
  induction symbols generalizing s with
  | nil => exact .refl
  | cons symbol symbols ih =>
    have first : Advance L s (s.list symbol) := .change (.listSymbol (.inl (h symbol (mem_cons_self ..))))
    exact .head first (ih fun x hx => h x (mem_cons_of_mem _ hx))

theorem external?_name {g : Global} {symbol : Listed} (h : external? g = some symbol) : symbol.name = g.name := by
  unfold external? at h
  split at h
  · simp at h
  · rw [← Option.some.inj h]

theorem advances_listExternals (hs : L.Covers s) : ReflTransGen (Advance L) s (stateAfter listExternals s) := by
  refine advances_listSymbols _ fun symbol hsymbol => ?_
  obtain ⟨g, hg, found⟩ := mem_filterMap.1 hsymbol
  rw [external?_name found]
  exact hs.globals g (mem_reverse.1 hg)

theorem ofProgram_open (p : Program) : (ofProgram p).Open := ⟨fun _ => trivial, trivial⟩

theorem ofProgram_admits (ht : t ∈ p) {d : Declaration} (hd : d ∈ t.declarations) : (ofProgram p).Admits d := by
  constructor
  · exact mem_flatMap.2 ⟨t, ht, mem_map.2 ⟨d, hd, rfl⟩⟩
  · exact mem_flatMap.2 ⟨t, ht, mem_append_left _ (mem_map.2 ⟨d, hd, rfl⟩)⟩

theorem ofProgram_parameters (ht : t ∈ p) {type : CType} (h : type ∈ t.parameterTypes) : (ofProgram p).types type :=
  mem_flatMap.2 ⟨t, ht, mem_append_right _ h⟩

theorem ofProgram_covers (p : Program) : (ofProgram p).Covers {} := ⟨nofun, nofun⟩

theorem reached_topLevels (h : ts ⊆ p) : Reached p (stateAfter (ts.forM topLevel) {}) :=
  advances_topLevels (ofProgram_open p) (fun _ ht _ hd => ofProgram_admits (h ht) hd)
    (fun _ ht _ htype => ofProgram_parameters (h ht) htype) (ofProgram_covers p)

theorem reached_program (p : Program) : Reached p (stateAfter (program p) {}) := by
  have items := reached_topLevels (List.Subset.refl p)
  refine stateAfter_bind items fun _ t run => advances_listExternals ?_
  exact (ofProgram_covers p).advances (by simpa only [stateAfter, run, Reached] using items)

end Lowering

end Cof
