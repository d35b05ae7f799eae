/-
  Instructions, one by one and in blocks.

  Two things are said of a single instruction.  It is *well typed* if the annotations of its operands fit together:
  an addition has one encoding throughout, a conversion two different ones.  It is *idle* if it takes part in no
  event: it belongs to no call, does not multiply or divide by a constant, and leaves variables of type `void`
  alone.
-/
import Cof.Proofs.Events
import Cof.Proofs.References

namespace Cof

open Lowering List

/-! ## Well-typed instructions -/

/-- Two operands of one encoding.  A symbol has a tag only, and only that is compared. -/
def Operand.Agrees (a b : Operand) : Prop :=
  a.encoding.tag = b.encoding.tag ∧ (a.kind ≠ .symbol → b.kind ≠ .symbol → a.encoding = b.encoding)

def Operand.Uniform (d l r : Operand) : Prop := d.encoding = l.encoding ∧ l.encoding = r.encoding

def Operand.Encoded (d l r : Operand) (ed el er : Encoding) : Prop :=
  d.encoding = ed ∧ l.encoding = el ∧ r.encoding = er

def Operand.One (operands : List Operand) (P : Operand → Prop) : Prop :=
  match operands with
  | [a] => P a
  | _ => False

def Operand.Two (operands : List Operand) (P : Operand → Operand → Prop) : Prop :=
  match operands with
  | [a, b] => P a b
  | _ => False

def Operand.Three (operands : List Operand) (P : Operand → Operand → Operand → Prop) : Prop :=
  match operands with
  | [a, b, c] => P a b c
  | _ => False

/-- The annotations of the operands fit the operation.  `returned` is the type that the enclosing
function returns. -/
def Instr.WellTyped (returned : Option CType) (i : Instr) : Prop :=
  match i.opcode with
  | .mov => Operand.Two i.operands Operand.Agrees
  | .cmp => Operand.Two i.operands fun a b => a.encoding = b.encoding
  | .add => Operand.Three i.operands fun d l r => d.Uniform l r ∨ d.Encoded l r .ptr .ptr .i64
  | .sub => Operand.Three i.operands fun d l r =>
    d.Uniform l r ∨ d.Encoded l r .ptr .ptr .i64 ∨ d.Encoded l r .i64 .ptr .ptr
  | .mul | .div | .mod | .and | .or | .xor => Operand.Three i.operands Operand.Uniform
  | .shl | .shr => Operand.Three i.operands fun d l _ => d.encoding = l.encoding
  | .neg | .not => Operand.Two i.operands fun d v => d.encoding = v.encoding
  | .cvt => Operand.Two i.operands fun d v => d.encoding ≠ v.encoding
  | .load => Operand.Two i.operands fun _ address => address.encoding = .ptr
  | .store => Operand.Two i.operands fun address _ => address.encoding = .ptr
  | .lea => Operand.Two i.operands fun d _ => d.encoding = .ptr
  | .setret => Operand.One i.operands fun v => returned.map CType.encoding = some v.encoding
  | _ => True

/-- An instruction that may stand in the body of a function. -/
structure Instr.InBody (returned : Option CType) (i : Instr) : Prop where
  typed : i.WellTyped returned
  inside : i.startsFunction = false

variable {i : Instr}

theorem Instr.WellTyped.any (h : i.WellTyped none) (returned : Option CType) : i.WellTyped returned := by
  obtain ⟨opcode, qualifier, operands⟩ := i
  cases opcode with
  | setret =>
    match operands, h with
    | [v], h => cases h
  | _ => exact h

theorem Instr.InBody.any (h : i.InBody none) (returned : Option CType) : i.InBody returned :=
  ⟨h.typed.any returned, h.inside⟩

/-! ## Idle instructions -/

def Operand.isVoid : Operand → Bool
  | .var enc _ => enc.tag == .void
  | .imm .. | .label _ | .symbol .. => false

def Opcode.transfers : Opcode → Bool
  | .param | .call | .result => true
  | _ => false

namespace Instr

/-- The constant that an instruction multiplies or divides by, with the operation and the annotation. -/
def factor? (i : Instr) : Option (Opcode × Encoding × UInt64) :=
  match i with
  | ⟨.mul, _, [_, _, .imm enc n]⟩ => some (.mul, enc, n)
  | ⟨.div, _, [_, _, .imm enc n]⟩ => some (.div, enc, n)
  | _ => none

/-- An instruction that takes part in no event. -/
structure Idle (i : Instr) : Prop where
  transfers : i.opcode.transfers = false
  factor : i.factor? = none
  solid : ∀ o ∈ i.operands, o.isVoid = false

def param (index : Nat) (arg : Operand) : Instr := ⟨.param, .none, [.size (UInt64.ofNat index), arg]⟩

end Instr

section Solid

variable {o : Operand} {a : CType}

theorem notVoid_of_isScalar (h : a.isScalar = true) : a.isVoid = false := by
  cases a <;> first | rfl | cases h

theorem isVoid_var (h : a.isVoid = false) (id : UInt32) : (Operand.var a.encoding id).isVoid = false := by
  cases a with
  | void => cases h
  | integral width signed => cases width <;> cases signed <;> rfl
  | floating width => cases width <;> rfl
  | pointer | array | function => rfl

theorem isVoid_of_encoding (same : o.encoding = a.encoding) (h : a.isVoid = false) : o.isVoid = false := by
  cases o with
  | var enc id =>
    obtain rfl : enc = a.encoding := same
    exact isVoid_var h id
  | imm | label | symbol => rfl

/-- The annotation of a number or a pointer has a width, so it is not that of a name. -/
theorem name?_of_encoding (same : o.encoding = a.encoding) (h : a.isScalar = true) : o.name? = none := by
  cases o with
  | symbol tag name =>
    have width : (0 : UInt32) = a.encoding.width := congrArg Encoding.width same
    cases a with
    | integral width' signed => cases width' <;> cases width
    | floating width' => cases width' <;> cases width
    | pointer => cases width
    | void | array | function => cases h
  | imm | var | label => rfl

end Solid

/-! ## Blocks of events -/

def Expr.isIndex : Expr → Bool
  | .index .. => true
  | _ => false

/-- Whether a tag is one for arguments without a parameter: no narrow integer, and no narrow floating type. -/
def TypeTag.isWide : TypeTag → Bool
  | .i8 | .i16 | .u8 | .u16 | .f32 => false
  | _ => true

/-- An argument for a parameter, or for none: a variable of the type of the parameter, or of a wide type. -/
def Passed (param : Option CType) (arg : Operand) : Prop :=
  ∃ type id, arg = .var type.encoding id ∧ type.isScalar = true ∧ (∀ declared ∈ param, type = declared) ∧
    (param = none → type.encoding.tag.isWide = true)

/-- Arguments that a function takes. -/
structure Lowering.Callee.Takes (f : Callee) (args : List Operand) : Prop where
  count : args.length = f.params.length ∨ f.variadic = true ∧ f.params.length < args.length
  passed : ∀ (k : Nat) arg, args[k]? = some arg → Passed f.params[k]? arg

/-- The instruction that takes the result of a call, if there is one. -/
def Lowering.Callee.outcome (f : Callee) (id : UInt32) : List Instr :=
  if f.result.isVoid then [] else [⟨.result, .none, [.var f.result.encoding id]⟩]

theorem Lowering.Callee.eq_of_mem_outcome {f : Callee} {id : UInt32} (h : i ∈ f.outcome id) :
    f.result.isVoid = false ∧ i = ⟨.result, .none, [.var f.result.encoding id]⟩ := by
  unfold outcome at h
  split at h
  · cases h
  · exact ⟨Bool.eq_false_iff.2 ‹_›, mem_singleton.1 h⟩

/-- The code of a call: arguments are passed, the function is called, and its result is taken. -/
def Lowering.Callee.Sequence (f : Callee) (count : Nat) (block : List Instr) : Prop :=
  f.result.Plain ∧ ∃ args id, args.length = count ∧ f.Takes args ∧
    block = args.mapIdx Instr.param ++ Instr.call f.name :: f.outcome id

/-- The code of an event.  Nothing is ever written to an object of type `void`, and only elements are read. -/
def Event.Code : Event → List Instr → Prop
  | .offset element, block => ∃ id x, x.encoding = .i64 ∧
    block = [⟨.mul, .signed, [.var .i64 id, x, .imm .i64 (stride (.pointer element))]⟩]
  | .distance element, block => ∃ id x, x.encoding = .i64 ∧
    block = [⟨.div, .signed, [.var .i64 id, x, .imm .i64 (stride (.pointer element))]⟩]
  | .read object, block => object.isIndex = true ∧ ∃ id address,
    block = [⟨.load, .none, [.var .void id, .var .ptr address]⟩]
  | .write _, _ => False
  | .call callee function count, block =>
    (∃ loc, callee = .ident loc function.name) ∧ function.Sequence count block

/-- Code carries out events: their blocks are in it, in order, and whatever else is in it is idle. -/
inductive CarriesOut : List Event → List Instr → Prop
  | nil : CarriesOut [] []
  | idle {i : Instr} {es : List Event} {part : List Instr} (here : i.Idle) (rest : CarriesOut es part) :
    CarriesOut es (i :: part)
  | event {e : Event} {es : List Event} {block part : List Instr} (here : e.Code block)
    (rest : CarriesOut es part) : CarriesOut (e :: es) (block ++ part)

section CarriesOut

variable {es es' : List Event} {part part' : List Instr}

variable {i : Instr}

theorem carriesOut_idle (h : i.Idle) : CarriesOut [] [i] := .idle h .nil

theorem carriesOut_event {e : Event} (h : e.Code part) : CarriesOut [e] part := by
  have all := CarriesOut.event h .nil
  rwa [append_nil] at all

theorem CarriesOut.append (h : CarriesOut es part) (h' : CarriesOut es' part') :
    CarriesOut (es ++ es') (part ++ part') := by
  induction h with
  | nil => exact h'
  | idle here _ ih => exact .idle here ih
  | event here _ ih =>
    rw [cons_append, append_assoc]
    exact .event here ih

theorem isCall_of_transfers (h : i.opcode.transfers = false) : i.isCall = false := by
  obtain ⟨opcode, qualifier, operands⟩ := i
  cases opcode <;> first | rfl | cases h

theorem filter_sequence (f : Callee) (args : List Operand) (id : UInt32) :
    (args.mapIdx Instr.param ++ Instr.call f.name :: f.outcome id).filter Instr.isCall = [Instr.call f.name] := by
  have params : (args.mapIdx Instr.param).filter Instr.isCall = [] := by
    rw [filter_eq_nil_iff]
    intro i mem
    obtain ⟨k, -, rfl⟩ := mem_mapIdx.1 mem
    exact Bool.false_ne_true
  have outcome : (f.outcome id).filter Instr.isCall = [] := by
    unfold Callee.outcome
    split <;> rfl
  rw [filter_append, params, filter_cons_of_pos rfl, outcome]
  rfl

theorem CarriesOut.calls (h : CarriesOut es part) :
    List.Forall₂ Expr.CalledBy (es.filterMap Event.callee?) (part.filter Instr.isCall) := by
  induction h with
  | nil => exact .nil
  | idle here _ ih =>
    rw [filter_cons_of_neg (by rw [isCall_of_transfers here.transfers]; exact Bool.false_ne_true)]
    exact ih
  | @event e es block part here _ ih =>
    rw [filter_append]
    cases e with
    | offset | distance | read =>
      obtain ⟨_, _, _, rfl⟩ := here
      exact ih
    | write => exact here.elim
    | call callee f count =>
      obtain ⟨⟨loc, rfl⟩, -, args, id, -, -, rfl⟩ := here
      rw [filter_sequence]
      exact .cons ⟨loc, f.name, rfl, rfl⟩ ih

end CarriesOut

/-! ## Code that carries out events -/

/-- Code that belongs into a function, refers to names of a set, and carries out events. -/
structure Enacted (returned : Option CType) (N : Set Name) (es : List Event) (part : List Instr) : Prop where
  typed : ∀ i ∈ part, i.InBody returned
  names : ∀ i ∈ part, ∀ name ∈ i.references, name ∈ N
  carriesOut : CarriesOut es part

namespace Enacted

variable {returned : Option CType} {N N' : Set Name} {es es' : List Event} {part part' : List Instr}

theorem nil : Enacted returned N [] [] := ⟨forall_mem_nil _, forall_mem_nil _, .nil⟩

theorem append (h : Enacted returned N es part) (h' : Enacted returned N es' part') :
    Enacted returned N (es ++ es') (part ++ part') where
  typed := forall_mem_append.2 ⟨h.typed, h'.typed⟩
  names := forall_mem_append.2 ⟨h.names, h'.names⟩
  carriesOut := h.carriesOut.append h'.carriesOut

theorem mono (h : Enacted returned N es part) (sub : N ⊆ N') : Enacted returned N' es part :=
  ⟨h.typed, fun i mem name named => sub (h.names i mem name named), h.carriesOut⟩

theorem any (h : Enacted none N es part) (returned : Option CType) : Enacted returned N es part :=
  ⟨fun i mem => (h.typed i mem).any returned, h.names, h.carriesOut⟩

theorem single {i : Instr} (typed : i.InBody returned) (names : ∀ name ∈ i.references, name ∈ N)
    (carriesOut : CarriesOut es [i]) : Enacted returned N es [i] :=
  ⟨forall_mem_singleton.2 typed, forall_mem_singleton.2 names, carriesOut⟩

end Enacted

end Cof
