/-
  What making code for an expression does to the state.

  Expressions add code or fail to, take numbers for variables and labels, and note types; they never touch
  names, loops or symbols.  `Growth` lists these changes, and everything under an expression follows it.

  What they add is *plain*: it stays inside of the function, and it names nothing but labels.
-/
import Cof.Proofs.Runs

namespace Cof

/-! ## Instructions and labels -/

/-- The operations that have to do with neither labels nor names nor the frames of functions and of
scopes. -/
def Opcode.isQuiet : Opcode → Bool
  | .sym | .data | .jmp | .br | .lea => false
  | .prologue | .epilogue | .bindparam | .var | .scopeBegin | .scopeEnd => false
  | _ => true

namespace Instr

def startsFunction (i : Instr) : Bool := i.opcode == .sym && i.qualifier == .function

def function (name : Name) : Instr := ⟨.sym, .function, [.symbol Encoding.ptr.tag name]⟩

def labels (i : Instr) : List Int32 :=
  i.operands.filterMap fun
    | .label l => some l
    | _ => none

def targets (i : Instr) : List Int32 := if i.opcode = .jmp ∨ i.opcode = .br then i.labels else []

def addresses (i : Instr) : List Int32 := if i.opcode = .lea then i.labels else []

def dataLabel? (i : Instr) : Option Int32 :=
  match i with
  | ⟨.data, _, .label l :: _⟩ => some l
  | _ => none

def introduced? (i : Instr) : Option Int32 := i.definedLabel? <|> i.dataLabel?

/-- An instruction that has nothing to do with labels and starts no function. -/
structure Inert (i : Instr) : Prop where
  introduces : i.introduced? = none
  targets : i.targets = []
  addresses : i.addresses = []
  inside : i.startsFunction = false

/-- An instruction that is no part of a function's frame, neither opens nor closes a scope, creates no
variable and, unless it names a label, is no directive. -/
def isPlain (i : Instr) : Bool :=
  match i.opcode with
  | .prologue | .epilogue | .bindparam | .var | .scopeBegin | .scopeEnd => false
  | .sym => i.qualifier == .label
  | _ => true

variable {opcode : Opcode}

theorem inert_of_opcode (qualifier : Qualifier) (operands : List Operand)
    (h : opcode ≠ .sym ∧ opcode ≠ .data ∧ opcode ≠ .jmp ∧ opcode ≠ .br ∧ opcode ≠ .lea) :
    Inert ⟨opcode, qualifier, operands⟩ := by
  obtain ⟨hsym, hdata, hjmp, hbr, hlea⟩ := h
  constructor
  · simp [introduced?, definedLabel?, dataLabel?, hsym, hdata]
  · simp [Instr.targets, hjmp, hbr]
  · simp [Instr.addresses, hlea]
  · simp [startsFunction, hsym]

/-- An instruction that is inert and plain. -/
structure Quiet (i : Instr) : Prop extends Inert i where
  plain : i.isPlain = true

theorem quiet_of_opcode (qualifier : Qualifier) (operands : List Operand)
    (h : opcode.isQuiet = true) : Quiet ⟨opcode, qualifier, operands⟩ := by
  refine ⟨inert_of_opcode _ _ ?_, ?_⟩
  · refine ⟨?_, ?_, ?_, ?_, ?_⟩ <;> rintro rfl <;> cases h
  · cases opcode <;> first | rfl | cases h

end Instr

namespace Lowering

open Relation

variable {α : Type} {s s' : State}

/-! ## The changes -/

/-- One change made for an expression.  The parameters say which instructions may be added and whether
labels may be taken. -/
inductive Growth (allowed : Instr → Prop) (labels : Prop) (s : State) : State → Prop
  | emit {i : Instr} {bytes : Bytes} (encodes : i.encode = .ok bytes) (ok : allowed i) :
    Growth allowed labels s (s.push i bytes)
  | refuse (written : Bytes) : Growth allowed labels s (s.refuse written)
  | freshVariable : Growth allowed labels s { s with variableCount := s.variableCount + 1 }
  | freshLabel (ok : labels) : Growth allowed labels s { s with labelCount := s.labelCount + 1 }
  | noteType (loc : Location) (type : CType) :
    Growth allowed labels s { s with types := (loc, type) :: s.types }

abbrev AnyGrowth : State → State → Prop := Growth (·.isPlain = true) True

abbrev QuietGrowth : State → State → Prop := Growth Instr.Quiet False

theorem QuietGrowth.any (h : QuietGrowth s s') : AnyGrowth s s' := by
  cases h with
  | emit encodes ok => exact .emit encodes ok.plain
  | refuse written => exact .refuse written
  | freshVariable => exact .freshVariable
  | freshLabel ok => exact ok.elim
  | noteType loc type => exact .noteType loc type

/-! ## Primitive steps -/

section Primitive

variable {allowed : Instr → Prop} {labels : Prop}

theorem follows_emit {opcode : Opcode} {qualifier : Qualifier} {operands : List Operand}
    (ok : allowed ⟨opcode, qualifier, operands⟩) :
    Follows (Growth allowed labels) (emit opcode qualifier operands) := by
  intro s
  unfold stateAfter
  cases encodes : Instr.encode ⟨opcode, qualifier, operands⟩ with
  | ok bytes =>
    rw [emit_of_ok encodes]
    exact .single (.emit encodes ok)
  | error f =>
    rw [emit_of_error encodes]
    exact .single (.refuse f.written)

theorem follows_freshVariable : Follows (Growth allowed labels) freshVariable := fun _ => .single .freshVariable

theorem follows_freshLabel (ok : labels) : Follows (Growth allowed labels) freshLabel :=
  fun _ => .single (.freshLabel ok)

theorem follows_temporary (type : CType) : Follows (Growth allowed labels) (temporary type) :=
  follows_seq follows_freshVariable fun _ => follows_pure

theorem follows_noteType (loc : Location) (type : CType) : Follows (Growth allowed labels) (noteType loc type) :=
  follows_modify fun _ => .noteType loc type

theorem follows_lookup (name : Name) : Follows (Growth allowed labels) (lookup name) :=
  follows_seq follows_get fun _ => follows_pure

theorem follows_noted (loc : Location) (v : Value) : Follows (Growth allowed labels) (noted loc v) :=
  follows_seq (follows_noteType loc _) fun _ => follows_pure

theorem follows_notePlace (loc : Location) (p : Place) : Follows (Growth allowed labels) (notePlace loc p) :=
  follows_seq (follows_noteType loc _) fun _ => follows_pure

theorem follows_requireScalar (v : Value) (operator : String) (loc : Location) :
    Follows (Growth allowed labels) (requireScalar v operator loc) :=
  follows_ite follows_pure follows_invalid

theorem follows_inferred (e : Expr) : Follows (Growth allowed labels) (inferred e) := by
  refine follows_seq follows_get fun t => ?_
  cases typeOf t.scopes e with
  | ok type => exact follows_pure
  | error err => exact follows_throw

theorem follows_branchTarget (type : CType) : Follows (Growth allowed labels) (branchTarget type) :=
  follows_ite follows_pure (follows_seq (follows_temporary type) fun _ => follows_pure)

end Primitive

/-! ## Quiet steps -/

variable {opcode : Opcode} {qualifier : Qualifier} {loc : Location} {name : Name} {p : Place}

theorem follows_compute {type : CType} {operands : List Operand}
    (quiet : ∀ id, Instr.Quiet ⟨opcode, qualifier, .var type.encoding id :: operands⟩) :
    Follows QuietGrowth (compute opcode qualifier type operands) := by
  refine follows_bind (follows_temporary type) fun s o t run => ?_
  obtain ⟨rfl, -⟩ := temporary_eq_ok.1 run
  exact follows_seq (follows_emit (quiet _)) fun _ => follows_pure

theorem opcode?_quiet {op : BinOp} (h : opcode? op = some opcode) : opcode.isQuiet = true := by
  cases op <;> simp [opcode?] at h <;> subst h <;> rfl

theorem storageOperand_ne_label (symbol : Symbol) (l : Int32) : storageOperand symbol ≠ .label l := by
  unfold storageOperand
  cases symbol.storage <;> simp

theorem namedPlace_eq_ok : namedPlace loc name s = .ok p s' ↔ ∃ symbol, s.scopes.lookup name = some symbol ∧
        .storage (storageOperand symbol) symbol.type = p ∧ { s with types := (loc, p.type) :: s.types } = s' := by
  simp only [namedPlace, bind_eq_ok, lookup_eq_ok]
  constructor
  · rintro ⟨found, _, ⟨rfl, rfl⟩, h⟩
    cases hl : s.scopes.lookup name with
    | none => simp [hl, fail_eq_ok] at h
    | some symbol =>
      simp only [hl, notePlace_eq_ok] at h
      obtain ⟨rfl, rfl⟩ := h
      exact ⟨symbol, rfl, rfl, rfl⟩
  · rintro ⟨symbol, hl, rfl, rfl⟩
    exact ⟨_, _, ⟨hl, rfl⟩, notePlace_eq_ok.2 ⟨rfl, rfl⟩⟩

theorem resolveCallee_eq_ok {callee : Expr} {f : Callee}
    (run : resolveCallee callee loc s = .ok f s') : ∃ nameLoc symbol, callee = .ident nameLoc f.name ∧
      s.scopes.lookup f.name = some symbol ∧ symbol.type = .function f.result f.params f.variadic ∧
        s' = { s with types := (nameLoc, symbol.type) :: s.types } := by
  cases callee with
  | ident nameLoc name =>
    obtain ⟨_, _, looked, run⟩ := bind_eq_ok.1 run
    obtain ⟨rfl, rfl⟩ := lookup_eq_ok.1 looked
    cases found : s.scopes.lookup name with
    | none =>
      rw [found] at run
      exact (fail_eq_ok.1 run).elim
    | some symbol =>
      cases type : symbol.type with
      | function result params variadic =>
        simp only [found, type] at run
        obtain ⟨_, _, noted, run⟩ := bind_eq_ok.1 run
        obtain rfl := noteType_eq_ok.1 noted
        obtain ⟨rfl, rfl⟩ := pure_eq_ok.1 run
        exact ⟨nameLoc, symbol, rfl, found, type, by rw [type]⟩
      | _ =>
        simp only [found, type] at run
        exact (unsupported_eq_ok.1 run).elim
  | _ => exact (unsupported_eq_ok.1 run).elim

theorem follows_namedPlace (loc : Location) (name : Name) : Follows QuietGrowth (namedPlace loc name) := by
  refine follows_seq (follows_lookup name) fun found => ?_
  cases found with
  | none => exact follows_fail
  | some symbol => exact follows_notePlace _ _

theorem follows_resolveCallee (callee : Expr) (loc : Location) : Follows QuietGrowth (resolveCallee callee loc) := by
  unfold resolveCallee
  split
  · refine follows_seq (follows_lookup _) fun found => ?_
    cases found with
    | none => exact follows_fail
    | some symbol =>
      simp only
      split
      · exact follows_seq (follows_noteType _ _) fun _ => follows_pure
      · exact follows_unsupported
  · exact follows_unsupported

theorem Follows.any {m : Lower α} (h : Follows QuietGrowth m) : Follows AnyGrowth m := h.mono fun _ _ => QuietGrowth.any

/-! ## Places -/

/-- A place that code can take the address of: its storage is a variable or a symbol. -/
def Place.Addressable : Place → Prop
  | .storage operand _ => ∀ l, operand ≠ .label l
  | .memory .. => True

theorem quiet_lea {enc : Encoding} {id : UInt32} {operand : Operand}
    (h : ∀ l, operand ≠ .label l) : Instr.Quiet ⟨.lea, qualifier, [.var enc id, operand]⟩ := by
  refine ⟨⟨rfl, rfl, ?_, rfl⟩, rfl⟩
  cases operand with
  | label l => exact absurd rfl (h l)
  | imm | var | symbol => rfl

theorem pointedPlace_addressable {pointer : Value} (run : pointedPlace loc pointer s = .ok p s') : p.Addressable := by
  unfold pointedPlace at run
  cases found : pointer.type.pointee? with
  | none => simp [found, invalid_eq_ok] at run
  | some type =>
    simp only [found, ite_eq_ok, invalid_eq_ok, and_false, false_or, notePlace_eq_ok] at run
    obtain ⟨-, rfl, -⟩ := run
    trivial

theorem elementPlace_addressable {base index : Value}
    (run : elementPlace loc base index s = .ok p s') : p.Addressable := by
  unfold elementPlace at run
  generalize (if !base.type.isPointer && index.type.isPointer then (index, base) else (base, index)) = pair at run
  obtain ⟨base, index⟩ := pair
  cases found : base.type.pointee? with
  | none => simp [found, invalidPair_eq_ok] at run
  | some type =>
    simp only [found, ite_eq_ok, bind_eq_ok, notePlace_eq_ok, invalidPair_eq_ok, and_false, or_false] at run
    obtain ⟨-, _, _, -, rfl, -⟩ := run
    trivial

theorem namedPlace_addressable (run : namedPlace loc name s = .ok p s') : p.Addressable := by
  obtain ⟨symbol, _, rfl, _⟩ := namedPlace_eq_ok.1 run
  exact storageOperand_ne_label symbol

theorem place_addressable {e : Expr} (run : place e s = .ok p s') : p.Addressable := by
  cases e with
  | ident loc name => exact namedPlace_addressable (by simpa only [place] using run)
  | unary loc op operand =>
    cases op with
    | deref =>
      simp only [place, bind_eq_ok] at run
      obtain ⟨_, _, _, run⟩ := run
      exact pointedPlace_addressable run
    | plus | neg | bitNot | not | addrOf => simp [place, fail_eq_ok] at run
  | index loc base index =>
    simp only [place, bind_eq_ok] at run
    obtain ⟨_, _, _, _, _, _, run⟩ := run
    exact elementPlace_addressable run
  | _ => simp [place, fail_eq_ok] at run

end Lowering

end Cof
