/-
  What declarations and pieces of file scope do, from what their steps do.

  Whatever is declared goes through the same few steps: a name with linkage is noted, a name is bound to a
  global one, a directive is added, a variable is created and filled.  Around the frame of a function stands
  its directive, and what is known of the enclosing function changes.  So a relation between the states before
  and after that is graded, as by the names that are bound or the objects that get storage, holds of every
  declaration and of every piece of file scope if it composes and holds of these steps.  `Declaring` and
  `Filing` ask for just that.
-/
import Cof.Proofs.Reach

namespace Cof.Lowering

/-- What the steps of declarations amount to. -/
structure Ledger (G : Type) where
  one : G
  mul : G → G → G
  /-- A name with linkage. -/
  link : Name → G
  /-- An object of static storage. -/
  object : CType → G
  automatic : Name → CType → G
  /-- The frame of a function. -/
  frame : FunctionDecl → List Stmt → G
  one_mul : ∀ g, mul one g = g
  mul_one : ∀ g, mul g one = g

namespace Ledger

variable {G : Type} (γ : Ledger G)

def declaration : Declaration → G
  | .proto f => γ.link f.name
  | .var v =>
    match v.linkage with
    | .external => γ.link v.name
    | .static => γ.mul (γ.link v.name) (γ.object v.type)
    | .plain => γ.automatic v.name v.type

def global (v : VarDecl) : G := γ.mul (γ.link v.name) (if v.isDefinition then γ.object v.type else γ.one)

def parameters : List Param → G
  | [] => γ.one
  | p :: rest => γ.mul (γ.automatic (p.name.getD []) p.type) (parameters rest)

def topLevel : TopLevel → G
  | .declare (.proto f) => γ.link f.name
  | .declare (.var v) => γ.global v
  | .define f body => γ.mul (γ.link f.name) (γ.frame f body)

def unit : Ledger Unit :=
  ⟨(), fun _ _ => (), fun _ => (), fun _ => (), fun _ _ => (), fun _ _ => (), fun _ => rfl, fun _ => rfl⟩

end Ledger

/-- States that differ only in what is known about functions, types and symbols. -/
structure Resembles (s s' : State) : Prop where
  code : s'.code = s.code
  scopes : s'.scopes = s.scopes
  counted : s'.variableCount = s.variableCount
  labels : s'.labelCount = s.labelCount
  loops : s'.loops = s.loops

theorem defineFunction_frame {s s' : State} {f : FunctionDecl} {body : List Stmt}
    (run : defineFunction f body s = .ok () s') :
    ∃ t t' u, emit .sym .function [.symbol Encoding.ptr.tag f.name] s = .ok () t ∧ Resembles t t' ∧
      functionFrame f body t' = .ok () u ∧ Resembles u s' := by
  obtain ⟨-, -, t, u, -, named, framed, -, rfl⟩ := defineFunction_steps run
  refine ⟨t, _, u, named, ?_, framed, ⟨rfl, rfl, rfl, rfl, rfl⟩⟩
  exact ⟨rfl, rfl, rfl, rfl, rfl⟩

variable {G : Type}

/-- A relation that composes and holds of the steps of declarations. -/
structure Declaring (γ : Ledger G) (Allowed : CType → Prop) (T : G → State → State → Prop) : Prop where
  refl : ∀ s, T γ.one s s
  trans : ∀ {g h s t s'}, T g s t → T h t s' → T (γ.mul g h) s s'
  linking : ∀ {g s s'}, Linking g s s' → T (γ.link g.name) s s'
  bound : ∀ {s name} type other statics, s.scopes.lookupCurrent name = none → T (γ.link name) s
    { s with statics := statics, scopes := s.scopes.bind ⟨name, type, s.scopes.depth, .global other⟩ }
  announced : ∀ {v s s'}, announceExternal v s = .ok () s' → T γ.one s s'
  defined : ∀ {name v isStatic s s'}, defineObject name v isStatic s = .ok () s' → T (γ.object v.type) s s'
  filled : ∀ {v s s'}, v.type.size ≠ 0 →
    declareVariable v.name v.type v.loc (fillVariable v) s = .ok () s' → T (γ.automatic v.name v.type) s s'
  taken : ∀ {name type loc index s s'}, Allowed type →
    declareVariable name type loc (takeArgument index) s = .ok () s' → T (γ.automatic name type) s s'

namespace Declaring

variable {γ : Ledger G} {Allowed : CType → Prop} {T : G → State → State → Prop} {s s' : State}
  (h : Declaring γ Allowed T)
include h

theorem globalVariable {v : VarDecl} (run : globalVariable v s = .ok () s') : T (γ.global v) s s' := by
  unfold Ledger.global
  obtain ⟨t, linked, ⟨defines, run⟩ | ⟨undefined, run⟩⟩ := globalVariable_steps run
  · rw [if_pos defines]
    exact h.trans (h.linking linked) (h.defined run)
  · rw [if_neg (Bool.not_eq_true _ ▸ undefined)]
    exact h.trans (h.linking linked) (h.announced run)

theorem localDeclaration {d : Declaration} (run : localDeclaration d s = .ok () s') : T (γ.declaration d) s s' := by
  cases d with
  | proto f => exact h.linking (declareFunction_links run)
  | var v =>
    unfold Ledger.declaration
    rcases localVariable_cases run with ⟨linkage, run⟩ | ⟨linkage, run⟩ | ⟨linkage, run⟩ <;> simp only [linkage]
    · obtain ⟨-, t, linked, run⟩ := localExternal_steps run
      have both := h.trans (h.linking linked) (h.announced run)
      rwa [γ.mul_one] at both
    · obtain ⟨free, run⟩ := localStatic_steps run
      exact h.trans (h.bound _ _ _ free) (h.defined run)
    · obtain ⟨complete, run⟩ := localAutomatic_steps run
      exact h.filled complete run

theorem bindParameters {loc : Location} {index : Nat} {params : List Param} (allowed : ∀ p ∈ params, Allowed p.type)
    (run : bindParameters loc index params s = .ok () s') : T (γ.parameters params) s s' := by
  induction params generalizing s index with
  | nil =>
    obtain ⟨_, rfl⟩ := pure_eq_ok.1 run
    exact h.refl s
  | cons p rest ih =>
    obtain ⟨first, later⟩ := List.forall_mem_cons.1 allowed
    rw [bindParameters_cons] at run
    obtain ⟨_, t, taken, run⟩ := bind_eq_ok.1 run
    exact h.trans (h.taken first taken) (ih later run)

end Declaring

/-- A relation that composes and holds of the steps of pieces of file scope. -/
structure Filing (γ : Ledger G) (Allowed : CType → Prop) (T : G → State → State → Prop) : Prop
    extends Declaring γ Allowed T where
  directive : ∀ {name s s'}, emit .sym .function [.symbol Encoding.ptr.tag name] s = .ok () s' → T γ.one s s'
  resembles : ∀ {s s'}, Resembles s s' → T γ.one s s'
  framed : ∀ {f body s s'}, (∀ p ∈ f.params, Allowed p.type) → functionFrame f body s = .ok () s' →
    T (γ.frame f body) s s'

namespace Filing

variable {γ : Ledger G} {Allowed : CType → Prop} {T : G → State → State → Prop} {s s' : State}
  (h : Filing γ Allowed T)
include h

theorem defineFunction {f : FunctionDecl} {body : List Stmt} (allowed : ∀ p ∈ f.params, Allowed p.type)
    (run : defineFunction f body s = .ok () s') : T (γ.frame f body) s s' := by
  obtain ⟨t, t', u, named, same, framed, same'⟩ := defineFunction_frame run
  have frame := h.trans (h.trans (h.trans (h.directive named) (h.resembles same)) (h.framed allowed framed))
    (h.resembles same')
  rwa [γ.one_mul, γ.one_mul, γ.mul_one] at frame

theorem topLevel {t : TopLevel} (allowed : ∀ f body, t = .define f body → ∀ p ∈ f.params, Allowed p.type)
    (run : topLevel t s = .ok () s') : T (γ.topLevel t) s s' := by
  match t with
  | .declare (.proto f) => exact h.linking (declareFunction_links run)
  | .declare (.var v) => exact h.globalVariable run
  | .define f body =>
    obtain ⟨_, u, declared, defined⟩ := bind_eq_ok.1 run
    exact h.trans (h.linking (declareFunction_links declared)) (h.defineFunction (allowed f body rfl) defined)

end Filing

end Cof.Lowering
