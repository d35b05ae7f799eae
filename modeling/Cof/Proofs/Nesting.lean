/-
  What a statement leaves behind.

  A block and a `for` open a scope and close it, and a loop is pushed and popped around its body.  So
  behind a statement the same scopes are open as before, and of the bindings in them only those of the
  names that the statement itself declares have changed: what is declared further inside went into
  scopes that are closed again.  `Varies` says this of two tables, scope by scope, which is what makes it
  compose; what it means for looking names up follows from the order that every table keeps.
-/
import Cof.Proofs.Filing

namespace Cof

open List

/-- The names that a statement declares outside of any block or `for` in it. -/
def Stmt.ownNames : Stmt → List Name
  | .decls _ ds => ds.map Declaration.name
  | .ifThen _ _ yes => yes.ownNames
  | .ifElse _ _ yes no => yes.ownNames ++ no.ownNames
  | .whileLoop _ _ body | .doWhile _ body _ => body.ownNames
  | .expr .. | .block .. | .forLoop .. | .ret .. | .brk _ | .cont _ | .empty _ => []

/-! ## Brackets -/

namespace Instr

def isBracket (i : Instr) : Bool :=
  match i.opcode with
  | .scopeBegin | .scopeEnd => true
  | _ => false

/-- Code in which each instruction that opens a scope has its partner. -/
inductive WellNested : List Instr → Prop
  | nil : WellNested []
  | other {i : Instr} (h : i.isBracket = false) : WellNested [i]
  | append {part part' : List Instr} (h : WellNested part) (h' : WellNested part') :
    WellNested (part ++ part')
  | scope {part : List Instr} (h : WellNested part) :
    WellNested ([⟨.scopeBegin, .none, []⟩] ++ part ++ [⟨.scopeEnd, .none, []⟩])

theorem isBracket_of_isPlain {i : Instr} (h : i.isPlain = true) : i.isBracket = false := by
  obtain ⟨opcode, qualifier, operands⟩ := i
  cases opcode with
  | scopeBegin | scopeEnd => cases h
  | _ => rfl

end Instr

/-! ## Tables before and after -/

namespace Scopes

variable {t t' t'' : Scopes} {names names' : List Name}

/-- A table that was made by operations on the empty one. -/
def Made (t : Scopes) : Prop := ∃ ops, t = (run Scopes.perform .empty ops).2

theorem run_append {σ : Type} (step : σ → Op → Answer × σ) (s : σ) (ops more : List Op) :
    (run step s (ops ++ more)).2 = (run step (run step s ops).2 more).2 := by
  induction ops generalizing s with
  | nil => rfl
  | cons op ops ih => exact ih (step s op).2

theorem made_empty : Made .empty := ⟨[], rfl⟩

theorem Made.perform (h : t.Made) (op : Op) : (t.perform op).2.Made := by
  obtain ⟨ops, rfl⟩ := h
  exact ⟨ops ++ [op], (run_append _ _ ops [op]).symm⟩

theorem Made.ordered (h : t.Made) : t.Ordered := by
  obtain ⟨ops, rfl⟩ := h
  exact (represents_empty.run ops).2.ordered

/-- The same scopes are open, and of their bindings only those of some names in the current scope have
changed. -/
structure Varies (names : List Name) (t t' : Scopes) : Prop where
  chain : t'.chain = t.chain
  last : t.last ≤ t'.last
  others : ∀ scope ≤ t.last, ∀ name, (scope = t.current → name ∉ names) →
    t'.bindingIn scope name = t.bindingIn scope name
  bound : ∀ name ∈ names, (t'.lookupCurrent name).isSome = true
  made : t.Made → t'.Made

theorem Varies.refl (t : Scopes) : Varies [] t t := ⟨rfl, Nat.le_refl _, fun _ _ _ _ => rfl, forall_mem_nil _, id⟩

theorem Varies.current (h : Varies names t t') : t'.current = t.current := (List.cons.inj h.chain).1

theorem Made.current_le (h : t.Made) : t.current ≤ t.last := h.ordered.chain_le t.current (mem_cons_self ..)

theorem Varies.trans (h : Varies names t t') (h' : Varies names' t' t'') (made : t.Made) :
    Varies (names ++ names') t t'' where
  chain := h'.chain.trans h.chain
  last := Nat.le_trans h.last h'.last
  others scope known name other := by
    have first : scope = t.current → name ∉ names := fun here mem =>
      other here (mem_append_left _ mem)
    have second : scope = t'.current → name ∉ names' := fun here mem =>
      other (here.trans h.current) (mem_append_right _ mem)
    rw [h'.others scope (Nat.le_trans known h.last) name second, h.others scope known name first]
  bound name mem := by
    by_cases later : name ∈ names'
    · exact h'.bound name later
    · -- What the first part bound is still there after the second.
      have earlier := (mem_append.1 mem).resolve_right later
      have kept : t''.lookupCurrent name = t'.lookupCurrent name := by
        show t''.bindingIn t''.current name = t'.bindingIn t'.current name
        rw [h'.current]
        exact h'.others _ (h.made made).current_le name fun _ => later
      rw [kept]
      exact h.bound name earlier
  made known := h'.made (h.made known)

theorem Varies.bind {name : Name} {type : CType} {storage : Storage} (free : t.lookupCurrent name = none) :
    Varies [name] t (t.bind ⟨name, type, t.depth, storage⟩) where
  chain := rfl
  last := Nat.le_refl _
  others scope _ other different := by
    have elsewhere : ¬ (name = other ∧ t.current = scope) := fun both =>
      different both.2.symm (mem_singleton.2 both.1.symm)
    rw [bindingIn_bind, if_neg elsewhere]
  bound other mem := by
    obtain rfl := mem_singleton.1 mem
    show (bindingIn _ t.current other).isSome = true
    rw [bindingIn_bind, if_pos ⟨rfl, rfl⟩]
    rfl
  made known := by
    have added := known.perform (.add name type storage)
    simpa only [Scopes.perform, add_free free] using added

theorem Varies.present {name : Name} (taken : (t.lookupCurrent name).isSome = true) : Varies [name] t t where
  chain := rfl
  last := Nat.le_refl _
  others _ _ _ _ := rfl
  bound other mem := by rwa [mem_singleton.1 mem]
  made := id

theorem Varies.inside (h : Varies names t.enter t') : Varies [] t t'.exit := by
  have outer : t'.outer = t.current :: t.outer := (List.cons.inj h.chain).2
  have exit : t'.exit = { t' with current := t.current, outer := t.outer } := by
    rw [Scopes.exit, outer]
  refine ⟨?_, ?_, ?_, forall_mem_nil _, ?_⟩
  · rw [exit]
    rfl
  · rw [exit]
    exact Nat.le_of_succ_le h.last
  · intro scope known name _
    -- The scope that was open in between has a number that was not in use.
    have kept := h.others scope (Nat.le_succ_of_le known) name fun new =>
      absurd known (by rw [new]; exact Nat.not_succ_le_self _)
    rw [exit]
    exact kept
  · intro known
    exact (h.made (known.perform .enter)).perform .exit

variable {name : Name}

theorem Varies.lookup (h : Varies names t t') (made : t.Made) (other : name ∉ names) :
    t'.lookup name = t.lookup name := by
  have same : ∀ scope ∈ t.chain, t'.bindingIn scope name = t.bindingIn scope name := fun scope mem =>
    h.others scope (made.ordered.chain_le scope mem) name fun _ => other
  rw [(h.made made).ordered.lookup, made.ordered.lookup, h.chain]
  generalize t.chain = scopes at same
  induction scopes with
  | nil => rfl
  | cons scope scopes ih =>
    rw [findSome?_cons, findSome?_cons, same scope mem_cons_self,
      ih fun scope' mem => same scope' (mem_cons_of_mem _ mem)]

theorem Varies.lookup_own (h : Varies names t t') (made : t.Made) (own : name ∈ names) :
    t'.lookup name = t'.lookupCurrent name := by
  obtain ⟨symbol, found⟩ := Option.isSome_iff_exists.1 (h.bound name own)
  have here : t'.bindingIn t'.current name = some symbol := found
  rw [(h.made made).ordered.lookup, found, Scopes.chain, findSome?_cons, here]

/-! ## Variables in sight -/

/-- A variable that a name in an open scope stands for, even if another name hides it. -/
def Sees (t : Scopes) (id : UInt32) : Prop :=
  ∃ scope ∈ t.chain, ∃ name symbol, t.bindingIn scope name = some symbol ∧ symbol.storage = .slot id

variable {id : UInt32}

theorem Made.sees_enter (h : t.Made) : t.enter.Sees id ↔ t.Sees id := by
  constructor
  · rintro ⟨scope, mem, name, symbol, bound, slot⟩
    have unchanged : t.bindingIn scope name = some symbol := bound
    rcases mem_cons.1 mem with rfl | mem
    · have empty : t.bindingIn (t.last + 1) name = none := bindingIn_eq_none.2 fun e listed _ =>
        Nat.ne_of_lt (Nat.lt_succ_of_le (h.ordered.log_le e listed))
      cases empty.symm.trans unchanged
    · exact ⟨scope, mem, name, symbol, unchanged, slot⟩
  · rintro ⟨scope, mem, name, symbol, bound, slot⟩
    exact ⟨scope, mem_cons_of_mem _ mem, name, symbol, bound, slot⟩

theorem Sees.of_exit (h : t.exit.Sees id) : t.Sees id := by
  obtain ⟨scope, mem, name, symbol, bound, slot⟩ := h
  have outer : scope ∈ t.chain := by
    unfold Scopes.exit at mem
    split at mem
    · exact mem
    · rename_i next rest same
      rw [Scopes.chain, same]
      exact mem_cons_of_mem _ mem
  refine ⟨scope, outer, name, symbol, ?_, slot⟩
  rw [← bound, bindingIn, bindingIn, t.exit_log]

theorem sees_bind {type : CType} {storage : Storage} (free : t.lookupCurrent name = none) :
    (t.bind ⟨name, type, t.depth, storage⟩).Sees id ↔ t.Sees id ∨ storage = .slot id := by
  constructor
  · rintro ⟨scope, mem, other, symbol, bound, slot⟩
    rw [bindingIn_bind] at bound
    split at bound
    · cases bound
      exact .inr slot
    · exact .inl ⟨scope, mem, other, symbol, bound, slot⟩
  · rintro (⟨scope, mem, other, symbol, bound, slot⟩ | slot)
    · refine ⟨scope, mem, other, symbol, ?_, slot⟩
      -- The name was free, so nothing is hidden in its own scope.
      have elsewhere : ¬ (name = other ∧ t.current = scope) := by
        rintro ⟨rfl, rfl⟩
        have none : t.bindingIn t.current name = none := free
        rw [none] at bound
        cases bound
      rw [bindingIn_bind, if_neg elsewhere, bound]
    · refine ⟨t.current, mem_cons_self .., name, ⟨name, type, t.depth, storage⟩, ?_, slot⟩
      rw [bindingIn_bind, if_pos ⟨rfl, rfl⟩]

theorem Made.sees_of_lookup (h : t.Made) {symbol : Symbol}
    (found : t.lookup name = some symbol) (slot : symbol.storage = .slot id) : t.Sees id := by
  rw [h.ordered.lookup] at found
  obtain ⟨scope, mem, bound⟩ := exists_of_findSome?_eq_some found
  exact ⟨scope, mem, name, symbol, bound, slot⟩

theorem Varies.sees (h : Varies [] t t') (made : t.Made) : t'.Sees id ↔ t.Sees id := by
  have same : ∀ scope ∈ t.chain, ∀ name, t'.bindingIn scope name = t.bindingIn scope name :=
    fun scope mem name => h.others scope (made.ordered.chain_le scope mem) name fun _ => not_mem_nil
  constructor
  · rintro ⟨scope, mem, name, symbol, bound, slot⟩
    rw [h.chain] at mem
    rw [same scope mem] at bound
    exact ⟨scope, mem, name, symbol, bound, slot⟩
  · rintro ⟨scope, mem, name, symbol, bound, slot⟩
    refine ⟨scope, h.chain ▸ mem, name, symbol, ?_, slot⟩
    rw [same scope mem, bound]

end Scopes

namespace Lowering

variable {α β : Type} {s s' : State}

/-! ## States before and after -/

/-- Some names are bound in the current scope, and well nested code is added. -/
structure Nests (names : List Name) (s s' : State) : Prop where
  scopes : s.scopes.Varies names s'.scopes
  code : ∃ part, s'.code.reverse = s.code.reverse ++ part ∧ Instr.WellNested part

def Nested (names : List Name) (m : Lower α) : Prop := ∀ s a s', s.scopes.Made → m s = .ok a s' → Nests names s s'

section Nested

variable {names names' : List Name} {m : Lower α} {g : α → Lower β}

theorem nests_code {part : List Instr} (scopes : s'.scopes = s.scopes)
    (code : s'.code = part.reverse ++ s.code) (nested : Instr.WellNested part) : Nests [] s s' := by
  refine ⟨?_, part, ?_, nested⟩
  · rw [scopes]
    exact .refl _
  · rw [code, reverse_append, reverse_reverse]

theorem Nests.trans {t : State} (h : Nests names s t) (h' : Nests names' t s') (made : s.scopes.Made) :
    Nests (names ++ names') s s' := by
  obtain ⟨part, code, nested⟩ := h.code
  obtain ⟨part', code', nested'⟩ := h'.code
  refine ⟨h.scopes.trans h'.scopes made, part ++ part', ?_, nested.append nested'⟩
  rw [code', code, append_assoc]

theorem nested_bind (hm : Nested names m) (hg : ∀ a, Nested names' (g a)) : Nested (names ++ names') (m >>= g) := by
  intro s b s' made run
  obtain ⟨a, t, first, second⟩ := bind_eq_ok.1 run
  have before := hm s a t made first
  have after := hg a t b s' (before.scopes.made made) second
  exact before.trans after made

theorem nested_skip (hm : Nested [] m) (hg : ∀ a, Nested names (g a)) : Nested names (m >>= g) := nested_bind hm hg

theorem nested_last (hm : Nested names m) (hg : ∀ a, Nested [] (g a)) : Nested names (m >>= g) := by
  have both := nested_bind hm hg
  rwa [append_nil] at both

theorem nested_emit {opcode : Opcode} {qualifier : Qualifier} {operands : List Operand}
    (other : Instr.isBracket ⟨opcode, qualifier, operands⟩ = false) :
    Nested [] (emit opcode qualifier operands) := by
  intro s u s' _ run
  obtain ⟨bytes, _, rfl⟩ := emit_eq_ok.1 run
  exact nests_code rfl rfl (.other other)

theorem nested_growth (h : Follows AnyGrowth m) : Nested [] m := by
  intro s a s' made run
  have steps := h.of_ok run
  clear run
  induction steps with
  | refl => exact nests_code rfl rfl .nil
  | tail _ step ih =>
    refine ih.trans ?_ made
    cases step with
    | emit encodes plain => exact nests_code rfl rfl (.other (Instr.isBracket_of_isPlain plain))
    | refuse | freshVariable | freshLabel | noteType => exact nests_code rfl rfl .nil

theorem nested_pure {a : α} : Nested [] (pure a : Lower α) := nested_growth follows_pure

theorem nested_inLoop (labels : LoopLabels) (h : Nested names m) : Nested names (inLoop labels m) := by
  intro s a s' made run
  obtain ⟨t, ran, rfl⟩ := inLoop_eq_ok.1 run
  have inner := h (s.inside labels) a t made ran
  exact ⟨inner.scopes, inner.code⟩

end Nested

/-! ## Scopes around steps -/

theorem functionFrame_eq (f : FunctionDecl) (body : List Stmt) :
    functionFrame f body = inScope (do
      emit .prologue .none []
      inScope (do
        bindParameters f.loc 0 f.params
        bracketed (statements body))
      emit .epilogue .none []
      emit .ret .none []) := by
  simp only [functionFrame, inScope, bracketed, bind_assoc]

section Scoped

variable {m : Lower Unit}

theorem nested_inScope (names : List Name) (h : Nested names m) : Nested [] (inScope m) := by
  intro s u s' made run
  obtain ⟨_, t₁, entered, run⟩ := bind_eq_ok.1 run
  obtain ⟨_, t₂, ran, left⟩ := bind_eq_ok.1 run
  obtain rfl := modify_eq_ok.1 entered
  obtain rfl := modify_eq_ok.1 left
  have inner := h { s with scopes := s.scopes.enter } _ t₂ (made.perform .enter) ran
  exact ⟨inner.scopes.inside, inner.code⟩

theorem nested_bracketed {names : List Name} (h : Nested names m) : Nested names (bracketed m) := by
  intro s u s' made run
  obtain ⟨_, t₁, opened, run⟩ := bind_eq_ok.1 run
  obtain ⟨_, t₂, ran, closed⟩ := bind_eq_ok.1 run
  obtain ⟨_, _, rfl⟩ := emit_eq_ok.1 opened
  obtain ⟨_, _, rfl⟩ := emit_eq_ok.1 closed
  have inner := h (s.push _ _) _ t₂ made ran
  obtain ⟨part, code, nested⟩ := inner.code
  refine ⟨inner.scopes, _, ?_, nested.scope⟩
  simp only [State.push, reverse_cons] at code ⊢
  rw [code, append_assoc, append_assoc, append_assoc]

end Scoped

/-! ## Declarations -/

theorem nested_bindName (name : Name) (type : CType) (storage : Storage) (loc : Location) :
    Nested [name] (bindName name type storage loc) := by
  intro s u s' _ run
  obtain ⟨free, rfl⟩ := bindName_free run
  exact ⟨.bind free, [], (append_nil _).symm, .nil⟩

variable {g : Global} {t t' : Scopes} {names : List Name}

theorem Links.varies (h : Links g t t') : t.Varies [g.name] t' := by
  cases h with
  | bound free => exact .bind free
  | present taken => exact .present (Option.isSome_of_eq_some taken)

theorem Links.sees {id : UInt32} (h : Links g t t') : t'.Sees id ↔ t.Sees id := by
  cases h with
  | bound free => exact (Scopes.sees_bind free).trans (or_iff_left (by rintro ⟨⟩))
  | present => exact Iff.rfl

theorem Linking.nests (h : Linking g s s') : Nests [g.name] s s' := by
  obtain ⟨_, _, rfl⟩ := h.same
  exact ⟨h.scopes.varies, [], (append_nil _).symm, .nil⟩

theorem nested_declareVariable {name : Name} {type : CType} {loc : Location} {fill : Operand → Lower Unit}
    (h : ∀ target, Nested [] (fill target)) : Nested [name] (declareVariable name type loc fill) := by
  refine nested_skip (nested_growth follows_freshVariable) fun id => ?_
  refine nested_last (nested_bindName _ _ _ _) fun _ => ?_
  exact nested_skip (nested_skip (nested_emit rfl) fun _ => nested_pure) h

def bindings : Ledger (List Name) where
  one := []
  mul := (· ++ ·)
  link name := [name]
  object _ := []
  automatic name _ := [name]
  frame _ _ := []
  one_mul _ := rfl
  mul_one := append_nil

theorem declaring_nested :
    Declaring bindings (fun _ => True) fun names s s' => s.scopes.Made → Nests names s s' where
  refl s _ := nests_code rfl rfl .nil
  trans first second made := (first made).trans (second ((first made).scopes.made made)) made
  linking linked _ := linked.nests
  bound _ _ _ free _ := ⟨.bind free, [], (append_nil _).symm, .nil⟩
  announced run made := nested_emit rfl _ () _ made run
  defined {name v isStatic _ _} run _ := by
    obtain ⟨first, start, bytes, -, -, -, rfl⟩ := defineObject_steps run
    exact nests_code rfl rfl (.other rfl)
  filled _ run made := nested_declareVariable (fun target => nested_growth (follows_fillVariable _ target)) _ () _ made run
  taken _ run made := nested_declareVariable (fun _ => nested_emit rfl) _ () _ made run

theorem nested_localDeclaration (d : Declaration) : Nested [d.name] (localDeclaration d) := by
  have names : bindings.declaration d = [d.name] := by
    cases d with
    | proto f => rfl
    | var v => cases linkage : v.linkage <;> simp only [Ledger.declaration, linkage] <;> rfl
  exact fun s _ s' made run => names ▸ declaring_nested.localDeclaration run made

/-! ## Statements -/

/-- Statements are graded by the names that they bind in the current scope. -/
def naming : Grading (List Name) where
  one := []
  mul := (· ++ ·)
  inside _ := []
  evaluation _ := []
  declarations := (·.map Declaration.name)
  one_mul _ := rfl
  mul_one := append_nil
  nil := rfl
  cons _ _ := rfl

theorem grades_ownNames : naming.Grades Stmt.ownNames (·.flatMap Stmt.ownNames) where
  expr _ _ := rfl
  block _ _ := rfl
  ifThen _ _ _ := rfl
  ifElse _ _ _ _ := rfl
  whileLoop _ _ _ := rfl
  doWhile _ body _ := (append_nil body.ownNames).symm
  forLoop _ _ _ _ _ := rfl
  ret _ e := by cases e <;> rfl
  decls _ _ := rfl
  brk _ := rfl
  cont _ := rfl
  empty _ := rfl
  none := rfl
  more _ _ := rfl

theorem growing_nested : Growing (fun _ => True) naming fun names m => Nested names m where
  silent _ := rfl
  growth := nested_growth
  bind := nested_bind
  declaration _ := nested_localDeclaration _
  scope inner := nested_inScope _ (nested_bracketed inner)
  inLoop := nested_inLoop

theorem nested_statement (st : Stmt) : Nested st.ownNames (statement st) :=
  growing_nested.statement grades_ownNames st fun _ _ => trivial

theorem nested_statements (body : List Stmt) : ∃ names, Nested names (statements body) :=
  ⟨_, growing_nested.statements grades_ownNames body fun _ _ => trivial⟩

/-! ## Pieces of file scope -/

theorem nested_bindParameters (loc : Location) (index : Nat) (params : List Param) :
    Nested (bindings.parameters params) (bindParameters loc index params) :=
  fun _ _ _ made run => declaring_nested.bindParameters (fun _ _ => trivial) run made

theorem nested_functionFrame (f : FunctionDecl) (body : List Stmt) : Nested [] (functionFrame f body) := by
  have opening := nested_bindParameters f.loc 0 f.params
  obtain ⟨names, inner⟩ := nested_statements body
  rw [functionFrame_eq]
  refine nested_inScope [] (nested_skip (nested_emit rfl) fun _ => ?_)
  refine nested_skip (nested_inScope _ (nested_bind opening fun _ => nested_bracketed inner)) fun _ => ?_
  exact nested_skip (nested_emit rfl) fun _ => nested_emit rfl

theorem filing_nested : Filing bindings (fun _ => True) fun names s s' => s.scopes.Made → Nests names s s' where
  toDeclaring := declaring_nested
  directive run made := nested_emit rfl _ () _ made run
  resembles same _ := nests_code same.scopes (by exact same.code) .nil
  framed _ run made := nested_functionFrame _ _ _ () _ made run

theorem nested_topLevel (t : TopLevel) : Nested [t.name] (topLevel t) := by
  have names : bindings.topLevel t = [t.name] := by
    match t with
    | .declare (.proto f) => rfl
    | .declare (.var v) => exact congrArg ([v.name] ++ ·) (ite_self ([] : List Name))
    | .define f body => rfl
  exact fun s _ s' made run => names ▸ filing_nested.topLevel (fun _ _ _ _ _ => trivial) run made

/-- The same scopes and loops are open, in the same function. -/
structure Restores (s s' : State) : Prop where
  chain : s'.scopes.chain = s.scopes.chain
  loops : s'.loops = s.loops
  returnType : s'.returnType = s.returnType
  currentFunction : s'.currentFunction = s.currentFunction

theorem Nests.restores {m : Lower α} {a : α} (h : Nests names s s') (follows : Follows (Change .unbounded) m)
    (run : m s = .ok a s') : Restores s s' :=
  ⟨h.scopes.chain, loops_of_changes (follows.of_ok run), returnType_of_changes (follows.of_ok run),
    currentFunction_of_changes (follows.of_ok run)⟩

theorem follows_statementUnbounded (st : Stmt) : Follows (Change .unbounded) (statement st) :=
  follows_statement Limits.unbounded_open st fun d _ => Limits.unbounded_admits d

theorem defineFunction_restores {f : FunctionDecl} {body : List Stmt} (run : defineFunction f body s = .ok () s') :
    s'.loops = s.loops ∧ s'.returnType = s.returnType ∧ s'.currentFunction = s.currentFunction := by
  obtain ⟨-, -, t, u, -, named, framed, -, rfl⟩ := defineFunction_steps run
  obtain ⟨bytes, -, rfl⟩ := emit_eq_ok.1 named
  have follows : Follows (Change .unbounded) (functionFrame f body) :=
    follows_functionFrame Limits.unbounded_open (fun _ _ => trivial) fun d _ => Limits.unbounded_admits d
  have loops := loops_of_changes (follows.of_ok framed)
  exact ⟨loops, rfl, rfl⟩

theorem restores_topLevel {t : TopLevel} (made : s.scopes.Made) (run : topLevel t s = .ok () s') : Restores s s' := by
  have nests := nested_topLevel t s () s' made run
  have rules := records_open Limits.unbounded_open
  match t with
  | .declare (.proto f) => exact nests.restores (rules.declareFunction false trivial trivial) run
  | .declare (.var v) => exact nests.restores (rules.globalVariable trivial trivial) run
  | .define f body =>
    obtain ⟨_, u, declared, defined⟩ := bind_eq_ok.1 run
    have changes := (rules.declareFunction true trivial trivial).of_ok declared
    obtain ⟨loops, returnType, function⟩ := defineFunction_restores defined
    exact ⟨nests.scopes.chain, loops.trans (loops_of_changes changes),
      returnType.trans (returnType_of_changes changes), function.trans (currentFunction_of_changes changes)⟩

/-! ## The discipline of scopes and loops -/

/-- Behind a statement the same scopes and loops are open, in the same function; its code opens and closes
scopes in pairs, and of the visible names only its own have changed.  The loops are those before even if
it fails.  A piece of file scope ends in file scope, with everything else put back too. -/
theorem statement_discipline (s : State) (made : s.scopes.Made) (st : Stmt) :
    (stateAfter (statement st) s).loops = s.loops ∧
      (∀ s', statement st s = .ok () s' →
        s'.scopes.Made ∧ Restores s s' ∧ (∃ part, s'.code.reverse = s.code.reverse ++ part ∧ Instr.WellNested part) ∧
          (∀ name ∉ st.ownNames, s'.scopes.lookup name = s.scopes.lookup name) ∧
          ∀ name ∈ st.ownNames, (s'.scopes.lookupCurrent name).isSome = true ∧
            s'.scopes.lookup name = s'.scopes.lookupCurrent name) ∧
      ∀ t s', s.scopes.depth = 0 → topLevel t s = .ok () s' → s'.scopes.depth = 0 ∧ Restores s s' := by
  refine ⟨loops_of_changes (follows_statementUnbounded st s), ?_, ?_⟩
  · intro s' run
    have nests := nested_statement st s () s' made run
    refine ⟨nests.scopes.made made, ?_, nests.code, ?_, ?_⟩
    · exact nests.restores (follows_statementUnbounded st) run
    · exact fun name other => nests.scopes.lookup made other
    · exact fun name own => ⟨nests.scopes.bound name own, nests.scopes.lookup_own made own⟩
  · intro t s' atFile run
    have restores := restores_topLevel made run
    have outer : s'.scopes.outer = s.scopes.outer := (List.cons.inj restores.chain).2
    refine ⟨?_, restores⟩
    rw [Scopes.depth, outer]
    exact atFile

def declaringBranch : Stmt :=
  .whileLoop ⟨1, 1⟩ (.int ⟨1, 8⟩ 1) (.ifElse ⟨1, 11⟩ (.int ⟨1, 15⟩ 1)
    (.decls ⟨1, 18⟩ [.var ⟨ascii "x", .int, none, .plain, ⟨1, 22⟩⟩])
    (.block ⟨1, 30⟩ [.decls ⟨1, 32⟩ [.var ⟨ascii "y", .int, none, .plain, ⟨1, 36⟩⟩], .brk ⟨1, 39⟩]))

/-- A branch declares a name for what follows, and a block declares one for itself. -/
theorem statement_discipline_branch : Scopes.Made ({} : State).scopes ∧
    (∃ s', statement declaringBranch {} = .ok () s' ∧ s'.code.any (·.isBracket) = true ∧
      Restores {} s' ∧ Instr.WellNested s'.code.reverse ∧
      s'.scopes.lookup (ascii "y") = ({} : State).scopes.lookup (ascii "y") ∧
      (s'.scopes.lookupCurrent (ascii "x")).isSome = true ∧
      s'.scopes.lookup (ascii "x") = s'.scopes.lookupCurrent (ascii "x")) ∧
    ∃ s', topLevel (.define ⟨ascii "f", ⟨.void, [], false⟩, [], .plain, ⟨1, 1⟩⟩ [declaringBranch]) {} = .ok () s' ∧
      s'.scopes.depth = 0 ∧ Restores {} s' := by
  have made : Scopes.Made ({} : State).scopes := Scopes.made_empty
  obtain ⟨-, after, piece⟩ := statement_discipline {} made declaringBranch
  refine ⟨made, ?_, ?_⟩
  · have computed : succeeds (statement declaringBranch) {} (fun _ s' => s'.code.any (·.isBracket)) = true := by
      decide +kernel
    obtain ⟨_, s', run, brackets⟩ := ok_of_succeeds computed
    obtain ⟨-, restores, ⟨part, code, nested⟩, others, own⟩ := after s' run
    have whole : s'.code.reverse = part := code
    exact ⟨s', run, brackets, restores, whole ▸ nested, others _ (by decide), own _ (by decide)⟩
  · have computed : succeeds (topLevel (.define ⟨ascii "f", ⟨.void, [], false⟩, [], .plain, ⟨1, 1⟩⟩ [declaringBranch])) {}
        (fun _ _ => true) = true := by decide +kernel
    obtain ⟨_, s', run, -⟩ := ok_of_succeeds computed
    exact ⟨s', run, piece _ s' rfl run⟩

end Lowering

end Cof
