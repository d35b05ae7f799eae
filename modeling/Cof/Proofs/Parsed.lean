/-
  What the grammar guarantees about a program.

  Later stages count on facts that only the reading of the source establishes: a declared name is a
  word, a function returns neither an array nor a function, a parameter is a number or a pointer, a
  variable is no void and no function.

  Here are the words for such facts.  That they hold of whatever is read is proved along with how readers are
  built, since every reader has to be gone through for both.
-/
import Cof.Grammar.Program
import Cof.Program.Translate
import Cof.Proofs.Scanned

namespace Cof

open List

/-! ## Words -/

/-- A name as a source can spell it: not empty, and made of letters, digits and underscores. -/
structure IsWord (name : Name) : Prop where
  nonempty : name ≠ []
  bytes : ∀ b ∈ name, isWordByte b = true

namespace Scan

variable {length : Nat} {rest : Bytes} {first : UInt8} {name : Name}

theorem word_name (start : isWordStart first = true) (h : word (first :: rest) = (.ident name, length)) :
    IsWord name := by
  unfold word at h
  simp only at h
  split at h
  · simp at h
  · injection h with h
    injection h with h
    subst h
    constructor
    · simp [isWordByte, start]
    · intro b hb
      exact all_eq_true.1 all_takeWhile b hb

theorem token_name (h : token first rest = .ok (.ident name, length)) : IsWord name := by
  obtain ⟨_, ⟨⟩⟩ | ⟨starts, named⟩ | ⟨_, ⟨⟩, _⟩ := token_other h rfl
  exact word_name starts named

end Scan

def TokenKind.Worded (kind : TokenKind) : Prop := ∀ name, kind = .ident name → IsWord name

def Tokens.Worded (ts : Tokens) : Prop := ∀ t ∈ ts.ahead, t.kind.Worded

variable {l : Lexer} {d : Declaration} {source : Bytes} {p : Program}

theorem Lexer.next_name {l' : Lexer} {t : Token} {name : Name} (h : l.next = (.ok t, l'))
    (kind : t.kind = .ident name) : IsWord name := by
  unfold Lexer.next at h
  split at h
  · injection h with h
    injection h with h
    subst h
    simp at kind
  · split at h
    · rename_i found
      injection h with h
      injection h with h
      subst h
      subst kind
      exact Scan.token_name found
    · simp at h

theorem Tokens.read_worded {done : List Token} {limit : Nat}
    (h : ∀ t ∈ done, t.kind.Worded) : (read done limit l).Worded := by
  induction limit generalizing done l with
  | zero => simpa [read, Worded] using h
  | succ limit ih =>
    unfold read
    split
    · simpa [Worded] using h
    · rename_i token rest found
      split
      · simpa [Worded] using h
      · refine ih fun t ht name kind => ?_
        rcases mem_cons.1 ht with rfl | ht
        · exact Lexer.next_name found kind
        · exact h t ht name kind

theorem Tokens.ofSource_worded (source : Bytes) : (ofSource source).Worded := read_worded (by simp)

/-! ## What a program declares -/

def Declaration.type : Declaration → CType
  | var v => v.type
  | proto f => f.type

section

variable {τ φ : Type}

def ForInit.declarations : ForInit τ φ → List (Declaration τ φ)
  | expr .. => []
  | decls _ ds => ds

mutual

def Stmt.declarations : Stmt τ φ → List (Declaration τ φ)
  | .block _ body => Stmt.allDeclarations body
  | .ifThen _ _ yes => yes.declarations
  | .ifElse _ _ yes no => yes.declarations ++ no.declarations
  | .whileLoop _ _ body => body.declarations
  | .doWhile _ body _ => body.declarations
  | .forLoop _ init _ _ body => (init.map ForInit.declarations).getD [] ++ body.declarations
  | .decls _ ds => ds
  | .expr .. | .ret .. | .brk _ | .cont _ | .empty _ => []

def Stmt.allDeclarations : List (Stmt τ φ) → List (Declaration τ φ)
  | [] => []
  | st :: rest => st.declarations ++ Stmt.allDeclarations rest

end

/-- The declarations that stand together in what a `for` loop opens with. -/
def ForInit.groups : ForInit τ φ → List (List (Declaration τ φ))
  | expr .. => []
  | decls _ ds => [ds]

mutual

/-- The declarations in a statement, at every depth, those of one declaration statement together. -/
def Stmt.groups : Stmt τ φ → List (List (Declaration τ φ))
  | .block _ body => Stmt.allGroups body
  | .ifThen _ _ yes => yes.groups
  | .ifElse _ _ yes no => yes.groups ++ no.groups
  | .whileLoop _ _ body => body.groups
  | .doWhile _ body _ => body.groups
  | .forLoop _ init _ _ body => (init.map ForInit.groups).getD [] ++ body.groups
  | .decls _ ds => [ds]
  | .expr .. | .ret .. | .brk _ | .cont _ | .empty _ => []

def Stmt.allGroups : List (Stmt τ φ) → List (List (Declaration τ φ))
  | [] => []
  | st :: rest => st.groups ++ Stmt.allGroups rest

end

theorem Stmt.allGroups_append (a b : List (Stmt τ φ)) : Stmt.allGroups (a ++ b) = Stmt.allGroups a ++ Stmt.allGroups b := by
  induction a with
  | nil => rfl
  | cons st a ih => simp only [cons_append, Stmt.allGroups, ih, append_assoc]

theorem ForInit.flatten_groups (init : Option (ForInit τ φ)) :
    ((init.map ForInit.groups).getD []).flatten = (init.map ForInit.declarations).getD [] := by
  match init with
  | none => rfl
  | some (.expr ..) => rfl
  | some (.decls _ ds) => exact append_nil ds

mutual

theorem Stmt.flatten_groups (st : Stmt τ φ) : st.groups.flatten = st.declarations := by
  match st with
  | .block _ body => exact Stmt.flatten_allGroups body
  | .ifThen _ _ yes => exact yes.flatten_groups
  | .ifElse _ _ yes no =>
    rw [groups, declarations, flatten_append, yes.flatten_groups, no.flatten_groups]
  | .whileLoop _ _ body => exact body.flatten_groups
  | .doWhile _ body _ => exact body.flatten_groups
  | .forLoop _ init _ _ body =>
    rw [groups, declarations, flatten_append, ForInit.flatten_groups, body.flatten_groups]
  | .decls _ ds => exact append_nil ds
  | .expr .. | .ret .. | .brk _ | .cont _ | .empty _ => rfl

theorem Stmt.flatten_allGroups (body : List (Stmt τ φ)) : (Stmt.allGroups body).flatten = Stmt.allDeclarations body := by
  match body with
  | [] => rfl
  | st :: rest =>
    rw [allGroups, allDeclarations, flatten_append, st.flatten_groups, Stmt.flatten_allGroups rest]

end

/-- The groups of declarations inside a piece of file scope, at every depth. -/
def TopLevel.groups : TopLevel τ φ → List (List (Declaration τ φ))
  | .declare _ => []
  | .define _ body => Stmt.allGroups body

def TopLevel.declarations : TopLevel τ φ → List (Declaration τ φ)
  | .declare d => [d]
  | .define f body => .proto f :: Stmt.allDeclarations body

section

variable {τ' φ' : Type} {ρ : Translation τ φ τ' φ'}

theorem ForInit.groups_translate (init : Option (ForInit τ φ)) :
    ((init.map (ForInit.translate ρ)).map ForInit.groups).getD [] =
      ((init.map ForInit.groups).getD []).map (List.map (Declaration.translate ρ)) := by
  match init with
  | none | some (.expr ..) | some (.decls ..) => rfl

mutual

theorem Stmt.groups_translate (st : Stmt τ φ) :
    (st.translate ρ).groups = st.groups.map (List.map (Declaration.translate ρ)) := by
  match st with
  | .block _ body => exact Stmt.allGroups_translate body
  | .ifThen _ _ yes => exact yes.groups_translate
  | .ifElse _ _ yes no => rw [translate, groups, groups, map_append, yes.groups_translate, no.groups_translate]
  | .whileLoop _ _ body => exact body.groups_translate
  | .doWhile _ body _ => exact body.groups_translate
  | .forLoop _ init _ _ body =>
    rw [translate, groups, groups, map_append, ForInit.groups_translate, body.groups_translate]
  | .decls .. | .expr .. | .ret .. | .brk _ | .cont _ | .empty _ => rfl

theorem Stmt.allGroups_translate (body : List (Stmt τ φ)) :
    Stmt.allGroups (Stmt.translateAll ρ body) = (Stmt.allGroups body).map (List.map (Declaration.translate ρ)) := by
  match body with
  | [] => rfl
  | st :: rest => rw [translateAll, allGroups, allGroups, map_append, st.groups_translate, Stmt.allGroups_translate rest]

end

theorem TopLevel.groups_translate (t : TopLevel τ φ) :
    (t.translate ρ).groups = t.groups.map (List.map (Declaration.translate ρ)) := by
  cases t with
  | declare d => rfl
  | define f body => exact Stmt.allGroups_translate body

theorem TopLevel.declarations_translate (t : TopLevel τ φ) :
    (t.translate ρ).declarations = t.declarations.map (Declaration.translate ρ) := by
  cases t with
  | declare d => rfl
  | define f body =>
    rw [translate, declarations, declarations, ← Stmt.flatten_allGroups, ← Stmt.flatten_allGroups,
      Stmt.allGroups_translate, map_cons, map_flatten]
    rfl

end

end

def TopLevel.parameterTypes : TopLevel → List CType
  | .declare _ => []
  | .define f _ => f.params.map (·.type)

def Program.types (p : Program) : List CType := p.flatMap fun t => t.declarations.map (·.type) ++ t.parameterTypes

def Program.names (p : Program) : List Name := p.flatMap fun t => t.declarations.map (·.name)

/-! ## Well-formed declarations -/

/-- Neither an array nor a function: what an operation can give. -/
structure CType.Plain (type : CType) : Prop where
  array : type.isArray = false
  function : type.isFunction = false

theorem CType.Plain.scalar {type : CType} (h : type.Plain) (notVoid : type.isVoid = false) : type.isScalar = true := by
  obtain ⟨array, function⟩ := h
  cases type <;> simp_all [isVoid, isArray, isFunction, isScalar, isArithmetic, isIntegral, isFloating, isPointer]

theorem CType.plain_pointer (target : CType) : (pointer target).Plain := ⟨rfl, rfl⟩

theorem CType.plain_decay (type : CType) : type.decay.Plain := by
  cases type <;> exact ⟨rfl, rfl⟩

/-- What a function declaration looks like after reading. -/
structure FunctionDecl.WellFormed (f : FunctionDecl) : Prop where
  name : IsWord f.name
  result : f.result.Plain
  arity : f.names.length = f.signature.params.length
  types : ∀ type ∈ f.signature.params, type.isScalar = true

theorem FunctionDecl.mem_params {f : FunctionDecl} {p : Param} (h : p ∈ f.params) :
    p.name ∈ f.names ∧ p.type ∈ f.signature.params := by
  rw [params, ← map_uncurry_zip_eq_zipWith] at h
  obtain ⟨⟨name, type⟩, both, rfl⟩ := mem_map.1 h
  exact of_mem_zip both

theorem FunctionDecl.WellFormed.params {f : FunctionDecl} (h : f.WellFormed) : ∀ p ∈ f.params, p.type.isScalar = true :=
  fun _ listed => h.types _ (mem_params listed).2

/-- What the declaration of a variable looks like after reading. -/
structure VarDecl.WellFormed (v : VarDecl) : Prop where
  name : IsWord v.name
  notVoid : v.type.isVoid = false
  notFunction : v.type.isFunction = false

def Declaration.WellFormed : Declaration → Prop
  | var v => v.WellFormed
  | proto f => f.WellFormed

theorem Declaration.WellFormed.isWord (h : d.WellFormed) : IsWord d.name := by
  cases d with
  | var v => exact VarDecl.WellFormed.name h
  | proto f => exact FunctionDecl.WellFormed.name h

/-- What the declarations of one declaration statement look like after reading. -/
structure GroupWellFormed (ds : List Declaration) : Prop where
  nonempty : ds ≠ []
  each : ∀ d ∈ ds, d.WellFormed

/-- What a piece of file scope looks like after reading.  Only definitions need names for their
parameters. -/
structure TopLevel.WellFormed (t : TopLevel) : Prop where
  declarations : ∀ d ∈ t.declarations, d.WellFormed
  groups : ∀ ds ∈ t.groups, ds ≠ []
  named : ∀ f body, t = .define f body → ∀ name ∈ f.names, name.isSome = true

/-- What is well-formed as it is told says as much of what is told. -/
theorem TopLevel.WellFormed.translated {τ φ : Type} {ρ : Translation τ φ CType Signature} {t : TopLevel τ φ}
    (h : (t.translate ρ).WellFormed) : (∀ d ∈ t.declarations, (d.translate ρ).WellFormed) ∧ (∀ ds ∈ t.groups, ds ≠ []) ∧
      ∀ f body, t = .define f body → ∀ name ∈ f.names, name.isSome = true := by
  refine ⟨fun d hd => h.declarations _ ?_, fun ds hds none => h.groups (ds.map (Declaration.translate ρ)) ?_ (none ▸ rfl), ?_⟩
  · rw [TopLevel.declarations_translate]
    exact mem_map_of_mem hd
  · rw [TopLevel.groups_translate]
    exact mem_map_of_mem hds
  · rintro f body rfl name listed
    have named := h.named _ _ rfl _ (mem_map_of_mem listed)
    rwa [Option.isSome_map] at named

def Program.WellFormed (p : Program) : Prop := ∀ t ∈ p, ∀ d ∈ t.declarations, d.WellFormed

def Program.Named (p : Program) : Prop :=
  ∀ f body, TopLevel.define f body ∈ p → ∀ param ∈ f.params, param.name.isSome = true

/-- A type that a declaration can give to a name. -/
structure CType.Declarable (type : CType) : Prop where
  notVoid : type.isVoid = false
  result : ∀ result, type.result? = some result → result.Plain

theorem Declaration.WellFormed.declarable (h : d.WellFormed) : d.type.Declarable := by
  cases d with
  | var v =>
    obtain ⟨_, notVoid, notFunction⟩ : v.WellFormed := h
    refine ⟨notVoid, fun result found => ?_⟩
    cases type : v.type <;> simp_all [Declaration.type, CType.result?, CType.isFunction]
  | proto f =>
    obtain ⟨_, plain, _, _⟩ : f.WellFormed := h
    refine ⟨rfl, fun result found => ?_⟩
    cases found
    exact plain

theorem CType.declarable_of_isScalar {type : CType} (h : type.isScalar = true) : type.Declarable := by
  constructor
  · cases type <;> first | rfl | cases h
  · intro result found
    cases type <;> cases found
    cases h

namespace Program.WellFormed

variable {p : Program} (h : p.WellFormed)
include h

theorem isWord {name : Name} (declared : name ∈ p.names) : IsWord name := by
  obtain ⟨t, ht, hname⟩ := mem_flatMap.1 declared
  obtain ⟨d, hd, rfl⟩ := mem_map.1 hname
  exact (h t ht d hd).isWord

theorem declarable {type : CType} (declared : type ∈ p.types) : type.Declarable := by
  obtain ⟨t, ht, htype⟩ := mem_flatMap.1 declared
  rcases mem_append.1 htype with htype | htype
  · obtain ⟨d, hd, rfl⟩ := mem_map.1 htype
    exact (h t ht d hd).declarable
  · cases t with
    | declare d => cases htype
    | define f body =>
      have wellFormed : f.WellFormed := h _ ht (.proto f) (by simp [TopLevel.declarations])
      obtain ⟨param, hparam, rfl⟩ := mem_map.1 htype
      exact CType.declarable_of_isScalar (wellFormed.params param hparam)

end Program.WellFormed

end Cof
