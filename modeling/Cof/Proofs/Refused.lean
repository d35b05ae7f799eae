/-
  Declarations that are refused.

  A declaration of a name with linkage is refused if it *clashes* with what is known of the name: in being a
  function or a variable, in its type, or because both declarations define it.  All of that is checked
  before anything is changed.

  There is one place where a check comes behind a change.  A variable of file scope that is declared for the
  first time is taken note of and then bound, which fails if the scope has a binding of the name.  The crux
  is that it has none: whatever is bound at file scope has linkage, and is known (`Bound`).
-/
import Cof.Proofs.Course
import Cof.Proofs.SymbolTable

namespace Cof

open Lowering Relation

def LowerError.isRedeclaration : LowerError → Bool
  | .fault (.conflictingDeclaration ..) _ | .fault (.duplicateSymbol _) _ => true
  | _ => false

namespace Lowering

variable {s s' : State}

/-! ## Clashes -/

/-- Two declarations of a name with linkage that cannot stand together. -/
structure Global.Clashes (k g : Global) : Prop where
  name : k.name = g.name
  differ : k.isFunction ≠ g.isFunction ∨ k.type ≠ g.type ∨ k.defined = true ∧ g.defined = true

/-- A declaration clashes with something that is known. -/
def State.Clash (s : State) (g : Global) : Prop := ∃ k ∈ s.globals, k.Clashes g

variable {g : Global} {name : Name} {f : FunctionDecl} {isDefinition : Bool} {v : VarDecl}

theorem Bound.clash_iff (h : Bound s) : s.Clash g ↔ ∃ k, s.globals.find? (·.name == g.name) = some k ∧ k.Clashes g := by
  constructor
  · rintro ⟨k, known, clashes⟩
    refine ⟨k, ?_, clashes⟩
    rw [← clashes.name]
    exact h.find_global known
  · rintro ⟨k, found, clashes⟩
    exact ⟨k, List.mem_of_find?_eq_some found, clashes⟩

theorem Global.agree_of_find {known : List Global} {k : Global}
    (found : known.find? (·.name == g.name) = some k) (agree : ¬ k.Clashes g) :
    k.isFunction = g.isFunction ∧ k.type = g.type ∧ ¬ (k.defined && g.defined) = true := by
  have named : k.name = g.name := by simpa using List.find?_some found
  have same := mt (Clashes.mk named) agree
  rw [not_or, not_or, not_not, not_not] at same
  rwa [Bool.and_eq_true]

theorem global?_bind {α : Type} (name : Name) (next : Option Global → Lower α) :
    (global? name >>= next) s = next (s.globals.find? (·.name == name)) s := rfl

/-! ## Functions -/

section Functions

variable {f : FunctionDecl} {isDefinition : Bool}

theorem recordFunction_clash {k : Global} (found : s.globals.find? (·.name == f.name) = some k)
    (clashes : k.Clashes (f.link isDefinition)) :
    ∃ why, recordFunction f isDefinition s = .error (.fault (.conflictingDeclaration f.name why) f.loc) s := by
  unfold recordFunction
  rw [global?_bind, found]
  dsimp only
  by_cases function : k.isFunction = true
  · rw [if_neg (by rw [function]; decide)]
    by_cases type : k.type = f.type
    · have both : (k.defined && isDefinition) = true := by
        rcases clashes.differ with kind | other | ⟨before, now⟩
        · exact absurd function kind
        · exact absurd type other
        · rw [before]
          exact now
      rw [if_neg (not_not.2 type), if_pos both]
      exact ⟨_, rfl⟩
    · rw [if_pos type]
      exact ⟨_, rfl⟩
  · rw [if_pos (by rw [Bool.eq_false_iff.2 function]; rfl)]
    exact ⟨_, rfl⟩

theorem recordFunction_agree
    (agree : ∀ k, s.globals.find? (·.name == f.name) = some k → ¬ k.Clashes (f.link isDefinition)) :
    ∃ globals, recordFunction f isDefinition s = .ok () { s with globals := globals } := by
  unfold recordFunction
  rw [global?_bind]
  cases found : s.globals.find? (·.name == f.name) with
  | none => exact ⟨_, rfl⟩
  | some k =>
    obtain ⟨function, type, single⟩ : k.isFunction = true ∧ k.type = f.type ∧ ¬ (k.defined && isDefinition) = true :=
      Global.agree_of_find found (agree k found)
    dsimp only
    rw [if_neg (by rw [function]; decide), if_neg (not_not.2 type), if_neg single]
    exact ⟨_, rfl⟩

end Functions

/-! ## Bindings -/

theorem bindGlobal_total (name : Name) (type : CType) (loc : Location) :
    ∃ scopes, bindGlobal name type loc s = .ok () { s with scopes := scopes } := by
  cases free : s.scopes.lookupCurrent name with
  | none =>
    refine ⟨_, bind_eq_ok.2 ⟨s, s, rfl, ite_eq_ok.2 (.inl ⟨?_, Scopes.bindName_of_free free ..⟩)⟩⟩
    rw [free]
    rfl
  | some symbol =>
    refine ⟨_, bind_eq_ok.2 ⟨s, s, rfl, ite_eq_ok.2 (.inr ⟨?_, rfl⟩)⟩⟩
    rw [free]
    exact Bool.false_ne_true

theorem Bound.free_of_unknown (h : Bound s) (file : s.scopes.atFileScope = true)
    (unknown : s.globals.find? (·.name == name) = none) : s.scopes.lookupCurrent name = none := by
  cases taken : s.scopes.lookupCurrent name with
  | none => rfl
  | some symbol =>
    obtain ⟨e, stands, rfl, named, scope⟩ := h.stands_current taken
    cases stands with
    | own _ inside _ => exact absurd (scope.trans (h.current_file file)) inside
    | linked known name _ _ _ =>
      have other := List.find?_eq_none.1 unknown _ known
      rw [name, named, beq_self_eq_true] at other
      exact absurd rfl other

/-! ## Variables of file scope -/

section Variables

variable {v : VarDecl} {isDefinition isStatic : Bool}

theorem recordVariable_clash {k : Global} (found : s.globals.find? (·.name == v.name) = some k)
    (clashes : k.Clashes (v.link isDefinition isStatic)) :
    ∃ e, recordVariable v isDefinition isStatic s = .error e s ∧ e.isRedeclaration = true := by
  unfold recordVariable
  rw [global?_bind, found]
  dsimp only
  by_cases disagree : disagrees k v = true
  · rw [if_pos disagree]
    exact ⟨_, rfl, rfl⟩
  · have both : (k.defined && isDefinition) = true := by
      rw [disagrees, Bool.or_eq_true, not_or, decide_eq_true_eq, not_not] at disagree
      rcases clashes.differ with kind | other | ⟨before, now⟩
      · exact absurd (Bool.eq_false_iff.2 disagree.1) kind
      · exact absurd disagree.2 other
      · rw [before]
        exact now
    rw [if_neg disagree, if_pos both]
    exact ⟨_, rfl, rfl⟩

theorem Bound.recordVariable_agree (h : Bound s) (file : s.scopes.atFileScope = true)
    (agree : ∀ k, s.globals.find? (·.name == v.name) = some k → ¬ k.Clashes (v.link isDefinition isStatic)) :
    ∃ s', recordVariable v isDefinition isStatic s = .ok () s' := by
  unfold recordVariable
  rw [global?_bind]
  cases found : s.globals.find? (·.name == v.name) with
  | none =>
    refine ⟨_, bind_eq_ok.2 ⟨(), _, rfl, Scopes.bindName_of_free ?_ ..⟩⟩
    exact h.free_of_unknown file found
  | some k =>
    obtain ⟨kind, type, single⟩ : k.isFunction = false ∧ k.type = v.type ∧ ¬ (k.defined && isDefinition) = true :=
      Global.agree_of_find found (agree k found)
    have agrees : ¬ disagrees k v = true := by
      rw [disagrees, kind, type]
      simp
    obtain ⟨scopes, bound⟩ := bindGlobal_total v.name v.type v.loc
    dsimp only
    rw [if_neg agrees, if_neg single]
    exact ⟨_, bind_eq_ok.2 ⟨(), _, rfl, bound⟩⟩

end Variables

/-! ## Errors behind that -/

/-- Whatever errors a step ends in are not about earlier declarations. -/
def Unrelated {α : Type} (m : Lower α) : Prop := ∀ s e s', m s = .error e s' → e.isRedeclaration = false

section Unrelated

variable {α β : Type} {m : Lower α} {f : α → Lower β}

theorem bind_eq_error {e : LowerError} :
    (m >>= f) s = .error e s' ↔ m s = .error e s' ∨ ∃ a t, m s = .ok a t ∧ f a t = .error e s' := by
  show EStateM.bind m f s = .error e s' ↔ _
  unfold EStateM.bind
  cases m s with
  | ok a t => simp
  | error e t => simp

theorem unrelated_bind (hm : Unrelated m) (hf : ∀ a, Unrelated (f a)) : Unrelated (m >>= f) := by
  intro s e s' failed
  rcases bind_eq_error.1 failed with first | ⟨a, t, -, second⟩
  · exact hm s e s' first
  · exact hf a t e s' second

theorem unrelated_pure {a : α} : Unrelated (pure a : Lower α) := by
  rintro s e s' ⟨⟩

theorem unrelated_unsupported {what : Unsupported} {loc : Location} : Unrelated (unsupported what loc : Lower α) := by
  rintro s _ _ ⟨⟩
  rfl

theorem unrelated_modify {g : State → State} : Unrelated (modify g : Lower Unit) := by
  rintro s e s' ⟨⟩

theorem unrelated_emit (opcode : Opcode) (qualifier : Qualifier) (operands : List Operand) :
    Unrelated (emit opcode qualifier operands) := by
  intro s e s' failed
  cases encodes : Instr.encode ⟨opcode, qualifier, operands⟩ with
  | ok bytes =>
    rw [emit_of_ok encodes] at failed
    cases failed
  | error f =>
    rw [emit_of_error encodes] at failed
    cases failed
    rfl

theorem unrelated_offset : Unrelated offset := by
  intro s e s' failed
  rcases bind_eq_error.1 failed with first | ⟨t, _, -, failed⟩
  · cases first
  · cases fits : t.out.offset with
    | ok n =>
      rw [fits] at failed
      cases failed
    | error f =>
      rw [fits] at failed
      cases failed
      rfl

theorem unrelated_constantOperand (v : VarDecl) (init : Expr) : Unrelated (constantOperand v init) := by
  unfold constantOperand
  split
  · exact unrelated_unsupported
  · cases constantBits? v.type init with
    | none => exact unrelated_unsupported
    | some bits => exact unrelated_pure

theorem unrelated_initialValue (v : VarDecl) : Unrelated (initialValue v) := by
  unfold initialValue
  cases v.init with
  | none => exact unrelated_pure
  | some init => exact unrelated_bind (unrelated_constantOperand v init) fun _ => unrelated_pure

theorem unrelated_defineObject (name : Name) (v : VarDecl) (isStatic : Bool) :
    Unrelated (defineObject name v isStatic) := by
  refine unrelated_bind (unrelated_initialValue v) fun given => ?_
  refine unrelated_bind unrelated_offset fun start => ?_
  exact unrelated_bind (unrelated_emit _ _ _) fun _ => unrelated_modify

end Unrelated

/-! ## Refusals -/

theorem Bound.declareFunction_clash (h : Bound s)
    (clash : s.Clash (f.link isDefinition)) : ∃ e, declareFunction f isDefinition s = .error e s := by
  obtain ⟨k, found, clashes⟩ := h.clash_iff.1 clash
  obtain ⟨why, failed⟩ := recordFunction_clash found clashes
  exact ⟨_, bind_eq_error.2 (.inl failed)⟩

theorem Bound.declareFunction_agree (h : Bound s)
    (agree : ¬ s.Clash (f.link isDefinition)) : ∃ s', declareFunction f isDefinition s = .ok () s' := by
  obtain ⟨globals, recorded⟩ := recordFunction_agree fun k found clashes => agree (h.clash_iff.2 ⟨k, found, clashes⟩)
  obtain ⟨scopes, bound⟩ := bindGlobal_total f.name f.type f.loc
  exact ⟨_, bind_eq_ok.2 ⟨(), _, recorded, bound⟩⟩

theorem Bound.globalVariable_clash (h : Bound s) (clash : s.Clash (v.link v.isDefinition (v.linkage = .static))) :
    ∃ e, globalVariable v s = .error e s ∧ e.isRedeclaration = true := by
  obtain ⟨k, found, clashes⟩ := h.clash_iff.1 clash
  obtain ⟨e, failed, redeclares⟩ := recordVariable_clash found clashes
  exact ⟨e, bind_eq_error.2 (.inl failed), redeclares⟩

theorem Bound.globalVariable_agree {e : LowerError} (h : Bound s)
    (file : s.scopes.atFileScope = true) (agree : ¬ s.Clash (v.link v.isDefinition (v.linkage = .static)))
    (failed : globalVariable v s = .error e s') : e.isRedeclaration = false := by
  obtain ⟨t, recorded⟩ := h.recordVariable_agree file fun k found clashes =>
    agree (h.clash_iff.2 ⟨k, found, clashes⟩)
  rcases bind_eq_error.1 failed with first | ⟨_, u, -, second⟩
  · cases first.symm.trans recorded
  · revert second
    split
    · exact unrelated_defineObject _ _ _ u e s'
    · exact unrelated_emit _ _ _ u e s'

theorem reachable_topLevels {p : Program} (wellFormed : p.WellFormed) (run : p.forM topLevel {} = .ok () s) :
    Reachable s ∧ s.scopes.atFileScope = true := by
  obtain ⟨_, names, -⟩ := topLevels_course wellFormed proper_empty run
  refine ⟨names.moves, ?_⟩
  rw [Scopes.atFileScope, names.depth]
  rfl

/-- A declaration of a function, in any scope, and one of a variable at file scope are refused because of an earlier
declaration exactly if they clash with one.  A declaration that is refused so changes nothing. -/
theorem refused_unchanged (reachable : Reachable s) :
    (∀ f isDefinition, ((∃ e s', declareFunction f isDefinition s = .error e s') ↔ s.Clash (f.link isDefinition)) ∧
      ∀ e s', declareFunction f isDefinition s = .error e s' → s' = s) ∧
    (s.scopes.atFileScope = true → ∀ v,
      ((∃ e s', topLevel (.declare (.var v)) s = .error e s' ∧ e.isRedeclaration = true) ↔
        s.Clash (v.link v.isDefinition (v.linkage = .static))) ∧
      ∀ e s', topLevel (.declare (.var v)) s = .error e s' → e.isRedeclaration = true → s' = s) := by
  have bound := reachable.bound
  constructor
  · intro f isDefinition
    by_cases clash : s.Clash (f.link isDefinition)
    · obtain ⟨e, failed⟩ := bound.declareFunction_clash clash
      refine ⟨iff_of_true ⟨e, s, failed⟩ clash, fun e' s' failed' => ?_⟩
      exact (EStateM.Result.error.inj (failed'.symm.trans failed)).2
    · obtain ⟨t, declared⟩ := bound.declareFunction_agree clash
      have never : ∀ e s', declareFunction f isDefinition s ≠ .error e s' := by
        intro e s' failed
        cases failed.symm.trans declared
      refine ⟨iff_of_false ?_ clash, fun e s' failed => absurd failed (never e s')⟩
      rintro ⟨e, s', failed⟩
      exact never e s' failed
  · intro file v
    show ((∃ e s', globalVariable v s = .error e s' ∧ _) ↔ _) ∧ ∀ e s', globalVariable v s = .error e s' → _
    by_cases clash : s.Clash (v.link v.isDefinition (v.linkage = .static))
    · obtain ⟨e, failed, redeclares⟩ := bound.globalVariable_clash clash
      refine ⟨iff_of_true ⟨e, s, failed, redeclares⟩ clash, fun e' s' failed' _ => ?_⟩
      exact (EStateM.Result.error.inj (failed'.symm.trans failed)).2
    · have never : ∀ e s', globalVariable v s = .error e s' → ¬ e.isRedeclaration = true := by
        intro e s' failed
        rw [bound.globalVariable_agree file clash failed]
        exact Bool.false_ne_true
      refine ⟨iff_of_false ?_ clash, fun e s' failed redeclares => absurd redeclares (never e s' failed)⟩
      rintro ⟨e, s', failed, redeclares⟩
      exact never e s' failed redeclares

def plainVariable (type : CType) (linkage : Linkage) : VarDecl := ⟨ascii "g", type, none, linkage, ⟨1, 1⟩⟩

def announced : State where
  scopes := Scopes.empty.enter.bind ⟨ascii "g", .int, 1, .global (ascii "g")⟩
  globals := [(plainVariable .int .external).link false false]

def announcing : State :=
  announced.push ⟨.sym, .external, [.symbol .i32 (ascii "g")]⟩ [80, 35, 1, 4, 3, 1, 0, 103]

theorem reachable_announcing : Reachable announcing := by
  have inside : Reachable { scopes := Scopes.empty.enter } := .single .enterScope
  have run : localDeclaration (.var (plainVariable .int .external)) { scopes := Scopes.empty.enter } =
      emit .sym .external [.symbol .i32 (ascii "g")] announced := rfl
  have encodes : Instr.encode ⟨.sym, .external, [.symbol .i32 (ascii "g")]⟩ = .ok [80, 35, 1, 4, 3, 1, 0, 103] := rfl
  rw [emit_of_ok encodes] at run
  exact inside.tail (.localVariable rfl rfl run)

/-- A function `g` is refused in that block, and a `long` behind it at file scope, which has no binding of `g`. -/
theorem refused_unchanged_announced :
    (∃ e, declareFunction { plainFunction with name := ascii "g" } false announcing = .error e announcing) ∧
    ∃ after e, after.scopes.lookupCurrent (ascii "g") = none ∧ after.globals = announcing.globals ∧
      topLevel (.declare (.var (plainVariable .long .plain))) after = .error e after ∧ e.isRedeclaration = true := by
  have known : (plainVariable .int .external).link false false ∈ announcing.globals := List.mem_singleton.2 rfl
  constructor
  · obtain ⟨clashes, unchanged⟩ :=
      (refused_unchanged reachable_announcing).1 { plainFunction with name := ascii "g" } false
    obtain ⟨e, s', failed⟩ := clashes.2 ⟨_, known, rfl, .inl Bool.false_ne_true⟩
    obtain rfl := unchanged e s' failed
    exact ⟨e, failed⟩
  · have outside : Reachable { announcing with scopes := announcing.scopes.exit } := reachable_announcing.tail .exitScope
    obtain ⟨clashes, unchanged⟩ := (refused_unchanged outside).2 rfl (plainVariable .long .plain)
    obtain ⟨e, s', failed, redeclares⟩ := clashes.2 ⟨_, known, rfl, .inr (.inl (by decide))⟩
    obtain rfl := unchanged e s' failed redeclares
    exact ⟨{ announcing with scopes := announcing.scopes.exit }, e, rfl, rfl, failed, redeclares⟩

end Lowering

end Cof
