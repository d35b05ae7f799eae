/-
  What a program defines, and where its definitions are in code.

  Code is made piece by piece, and a piece looks like what it is made for:

    * a variable of file scope is one directive;
    * a function is a frame, and nothing in the frame is part of another one;
    * anything else at file scope has no code.

  A definition is a function or a variable of static storage, at file scope or in a block.  `Places` says
  that a symbol is listed for a definition and knows where its code is; offsets are counted in bytes, from
  where the code begins.  `Provides` says what happens between two states: code is added, with definitions in
  it, a symbol is listed for each, and declarations of names with linkage are taken in.  What is added
  one after the other is added together.
-/
import Cof.Proofs.DeclaredLinkage
import Cof.Proofs.Growth
import Cof.Proofs.Session

namespace Cof

open Lowering List

/-! ## Frames -/

namespace Instr

/-- An instruction that is no part of a frame and starts no function. -/
def isInner (i : Instr) : Bool :=
  match i.opcode with
  | .prologue | .epilogue | .bindparam => false
  | .sym => i.qualifier != .function
  | _ => true

theorem isInner_of_isPlain {i : Instr} (h : i.isPlain = true) : i.isInner = true := by
  obtain ⟨opcode, qualifier, operands⟩ := i
  cases opcode with
  | sym =>
    obtain rfl : qualifier = .label := by simpa [isPlain] using h
    rfl
  | prologue | epilogue | bindparam => cases h
  | _ => rfl

def create (type : CType) (id : UInt32) : Instr := ⟨.var, .none, [.var type.encoding id, .size type.size]⟩

def bind (index : Nat) (type : CType) (id : UInt32) : Instr :=
  ⟨.bindparam, .none, [.size (UInt64.ofNat index), .var type.encoding id]⟩

/-- The instructions for the parameters of a function, which are counted from an index on, in variables
that are numbered from `first` on. -/
def parameters (first index : Nat) : List Param → List Instr
  | [] => []
  | p :: rest =>
    create p.type (UInt32.ofNat first) :: bind index p.type (UInt32.ofNat first) ::
      parameters (first + 1) (index + 1) rest

end Instr

def FunctionDecl.frame (f : FunctionDecl) (first : Nat) (inner : List Instr) : List Instr :=
  .function f.name :: ⟨.prologue, .none, []⟩ :: (Instr.parameters first 0 f.params ++
    ⟨.scopeBegin, .none, []⟩ :: (inner ++ [⟨.scopeEnd, .none, []⟩, ⟨.epilogue, .none, []⟩, ⟨.ret, .none, []⟩]))

def FunctionDecl.Frame (f : FunctionDecl) (code : List Instr) : Prop :=
  ∃ first inner, (∀ i ∈ inner, i.isInner = true) ∧ code = f.frame first inner

def VarDecl.directive (v : VarDecl) : Qualifier :=
  if v.isDefinition then if v.linkage = .static then .static else .global else .external

def TopLevel.Shape : TopLevel → List Instr → Prop
  | .declare (.proto _), code => code = []
  | .declare (.var v), code =>
    ∃ rest, code = [⟨.sym, v.directive, .symbol v.type.encoding.tag v.name :: rest⟩]
  | .define f _, code => f.Frame code

/-! ## Definitions -/

/-- What a program defines. -/
inductive Definition where
  | object (name : Name) (isStatic : Bool)
  | function (f : FunctionDecl)
deriving DecidableEq, Repr

namespace Definition

def name : Definition → Name
  | object name _ => name
  | function f => f.name

def kind : Definition → Module.SymbolKind
  | object .. => .object
  | function _ => .function

def isStatic : Definition → Bool
  | object _ isStatic => isStatic
  | function f => f.linkage = .static

def binding (d : Definition) : Module.Binding := if d.isStatic then .internal else .global

def object? : Definition → Option Name
  | object name _ => some name
  | function _ => none

def Code : Definition → List Instr → Prop
  | object name isStatic, code =>
    ∃ tag rest, code = [⟨.sym, if isStatic then .static else .global, .symbol tag name :: rest⟩]
  | function f, code => f.Frame code

theorem binding_ne_external (d : Definition) : d.binding ≠ .external := by
  unfold binding
  split <;> nofun

end Definition

/-- The names in the module of block-scope statics, numbered from some number on. -/
def staticNames (f : Name) (first : Nat) (names : List Name) : List Name :=
  (names.zipIdx first).map fun (name, number) => staticName f name number

theorem staticNames_append (f : Name) (first : Nat) (names more : List Name) :
    staticNames f first (names ++ more) = staticNames f first names ++ staticNames f (first + names.length) more := by
  rw [staticNames, zipIdx_append, map_append]
  rfl

def Declaration.definitions (f : Name) (first : Nat) (ds : List Declaration) : List Definition :=
  (staticNames f first (ds.filterMap Declaration.static?)).map (Definition.object · true)

/-- The block-scope statics in a piece of file scope, as they are declared. -/
def TopLevel.statics : TopLevel → List Name
  | .declare _ => []
  | .define _ body => (Stmt.allDeclarations body).filterMap Declaration.static?

/-- What a piece of file scope defines, if statics are numbered from some number on. -/
def TopLevel.definitions (first : Nat) : TopLevel → List Definition
  | .declare (.proto _) => []
  | .declare (.var v) => if v.isDefinition then [.object v.name (v.linkage = .static)] else []
  | .define f body => Declaration.definitions f.name first (Stmt.allDeclarations body) ++ [.function f]

/-- What the rest of a program defines, if statics are numbered from some number on. -/
def Program.definitionsFrom (first : Nat) : Program → List Definition
  | [] => []
  | t :: rest => t.definitions first ++ definitionsFrom (first + t.statics.length) rest

def Program.definitions (p : Program) : List Definition := p.definitionsFrom 0

namespace Instr

def objectName? (i : Instr) : Option Name :=
  match i with
  | ⟨.sym, .global, .symbol _ name :: _⟩ => some name
  | ⟨.sym, .static, .symbol _ name :: _⟩ => some name
  | _ => none

theorem objectName?_of_isPlain {i : Instr} (h : i.isPlain = true) : i.objectName? = none := by
  obtain ⟨opcode, qualifier, operands⟩ := i
  cases opcode with
  | sym =>
    obtain rfl : qualifier = .label := by simpa [isPlain] using h
    rfl
  | _ => rfl

theorem objectName?_define (isStatic : Bool) (tag : TypeTag) (name : Name) (rest : List Operand) :
    objectName? ⟨.sym, if isStatic then .static else .global, .symbol tag name :: rest⟩ = some name := by
  cases isStatic <;> rfl

end Instr

namespace Lowering

/-! ## Where definitions are -/

/-- A symbol is listed for a definition in code that begins at some place. -/
structure Places (start : Nat) (code : List Instr) (d : Definition) (l : Listed) : Prop where
  name : l.name = d.name
  kind : l.kind = d.kind
  binding : l.binding = d.binding
  found : ∃ before part after, code = before ++ part ++ after ∧ d.Code part ∧
    l.value.toNat = start + (Instr.encodeStream before).length ∧
    (l.kind = .function → l.size.toNat = (Instr.encodeStream part).length)

section Places

variable {start : Nat} {code : List Instr} {d : Definition} {l : Listed}

theorem Places.behind (h : Places start code d l) (more : List Instr) : Places start (code ++ more) d l := by
  obtain ⟨name, kind, binding, before, part, after, rfl, shape, value, size⟩ := h
  exact ⟨name, kind, binding, before, part, after ++ more, append_assoc .., shape, value, size⟩

theorem Places.front {more : List Instr} (h : Places (start + (Instr.encodeStream more).length) code d l) :
    Places start (more ++ code) d l := by
  obtain ⟨name, kind, binding, before, part, after, rfl, shape, value, size⟩ := h
  refine ⟨name, kind, binding, more ++ before, part, after, ?_, shape, ?_, size⟩
  · rw [append_assoc, append_assoc, append_assoc]
  · rw [value, Instr.encodeStream_append, length_append, Nat.add_assoc]

theorem Places.within (h : Places start code d l) (function : l.kind = .function) :
    start ≤ l.value.toNat ∧ l.value.toNat + l.size.toNat ≤ start + (Instr.encodeStream code).length := by
  obtain ⟨-, -, -, before, part, after, rfl, -, value, size⟩ := h
  simp only [Instr.encodeStream_append, length_append]
  have := size function
  omega

end Places

/-- If two functions are listed, one is behind the other. -/
def Listed.Before (a b : Listed) : Prop :=
  a.kind = .function → b.kind = .function → a.value.toNat + a.size.toNat ≤ b.value.toNat

/-! ## What is added -/

variable {s s' t : State}

/-- The code that is added between two states. -/
structure Written (s s' : State) (part : List Instr) : Prop where
  code : s'.code = part.reverse ++ s.code
  size : s'.size = s.size + (Instr.encodeStream part).length
  encodable : Instr.Encodable part

theorem Written.append {part more : List Instr} (h : Written s t part) (h' : Written t s' more) :
    Written s s' (part ++ more) where
  code := by rw [h'.code, h.code, reverse_append, append_assoc]
  size := by rw [h'.size, h.size, Instr.encodeStream_append, length_append, Nat.add_assoc]
  encodable := h.encodable.append h'.encodable

theorem written_nil (code : s'.code = s.code) (size : s'.size = s.size) : Written s s' [] := ⟨code, size, nofun⟩

theorem written_push {i : Instr} {bytes : Bytes} (h : i.encode = .ok bytes) :
    Written s (s.push i bytes) [i] where
  code := rfl
  size := by rw [Instr.encodeStream_singleton h, State.size_push]
  encodable := by
    intro j hj
    obtain rfl := mem_singleton.1 hj
    exact ⟨bytes, h⟩

/-- Code and symbols that are added for definitions, oldest first, and declarations that are taken
in. -/
structure Provides (ds : List Definition) (links : List Global) (part : List Instr) (news : List Listed)
    (s s' : State) : Prop where
  written : Written s s' part
  symbols : s'.symbols = news.reverse ++ s.symbols
  places : List.Forall₂ (Places s.size part) ds news
  directives : part.filterMap Instr.objectName? = ds.filterMap Definition.object?
  ordered : news.Pairwise Listed.Before
  links : Notes s.globals links s'.globals
  function : s'.currentFunction = s.currentFunction

section Provides

variable {ds ds' : List Definition} {links links' : List Global} {part part' : List Instr} {news news' : List Listed}

theorem Provides.within (h : Provides ds links part news s s') {l : Listed} (mem : l ∈ news)
    (function : l.kind = .function) :
    s.size ≤ l.value.toNat ∧ l.value.toNat + l.size.toNat ≤ s'.size := by
  obtain ⟨d, -, placed⟩ := exists_of_forall₂ h.places mem
  rw [h.written.size]
  exact placed.within function

theorem Provides.append (h : Provides ds links part news s t) (h' : Provides ds' links' part' news' t s') :
    Provides (ds ++ ds') (links ++ links') (part ++ part') (news ++ news') s s' where
  written := h.written.append h'.written
  symbols := by rw [h'.symbols, h.symbols, reverse_append, append_assoc]
  places := by
    refine rel_append (h.places.imp fun d l placed => placed.behind part') ?_
    refine h'.places.imp fun d l placed => Places.front ?_
    rwa [← h.written.size]
  directives := by rw [filterMap_append, filterMap_append, h.directives, h'.directives]
  ordered := by
    refine pairwise_append.2 ⟨h.ordered, h'.ordered, fun a ha b hb first second => ?_⟩
    exact Nat.le_trans (h.within ha first).2 (h'.within hb second).1
  links := h.links.append h'.links
  function := h'.function.trans h.function

/-- States with the same code and the same names. -/
structure Alike (s u : State) : Prop where
  code : s.code = u.code
  size : s.size = u.size
  symbols : s.symbols = u.symbols
  globals : s.globals = u.globals

theorem Provides.transfer {u u' : State} (h : Provides ds links part news u u') (s s' : State)
    (start : Alike s u) (stop : Alike s' u') (function : s'.currentFunction = s.currentFunction) :
    Provides ds links part news s s' where
  written := by
    obtain ⟨code, size, encodable⟩ := h.written
    rw [← stop.code, ← start.code] at code
    rw [← stop.size, ← start.size] at size
    exact ⟨code, size, encodable⟩
  symbols := by
    rw [stop.symbols, start.symbols]
    exact h.symbols
  places := by
    rw [start.size]
    exact h.places
  directives := h.directives
  ordered := h.ordered
  links := by
    rw [start.globals, stop.globals]
    exact h.links
  function := function

theorem provides_code (written : Written s s' part) (silent : ∀ i ∈ part, i.objectName? = none)
    (symbols : s'.symbols = s.symbols) (globals : s'.globals = s.globals)
    (function : s'.currentFunction = s.currentFunction) : Provides [] [] part [] s s' where
  written := written
  symbols := symbols
  places := .nil
  directives := filterMap_eq_nil_iff.2 silent
  ordered := .nil
  links := by
    rw [globals]
    exact .nil
  function := function

end Provides

end Lowering

end Cof
