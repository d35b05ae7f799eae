/-
  What the code of a compiled module carries out.

  Reading code back gives its normal form: widths and constants that do not fit are cut.  Nothing of that touches the
  blocks of events, whose operands are narrow, and idle instructions stay idle.  So the code that is read back from a
  module carries out what happens in the program, in the order of the text.
-/
import Cof.Proofs.Course
import Cof.Proofs.SymbolTable

namespace Cof

open Cof.Module Lowering List

/-! ## Blocks in normal form -/

namespace Operand

theorem normal_constant (n : UInt64) : (Operand.imm .i64 n).normal = .imm .i64 n := by
  have full : immediateLength (widthByte Encoding.i64.width) = 8 := by decide
  have small : n.toNat % 256 ^ 8 = n.toNat := Nat.mod_eq_of_lt n.toNat_lt
  show Operand.imm _ _ = .imm _ _
  rw [full, small, UInt64.ofNat_toNat]
  rfl

theorem normal_variable {type : CType} (plain : type.Plain) (id : UInt32) :
    (Operand.var type.encoding id).normal = .var type.encoding id := by
  cases type with
  | integral width signed => cases width <;> rfl
  | floating width => cases width <;> rfl
  | void | pointer | function => rfl
  | array => cases plain.1

theorem encoding_normal {o : Operand} (h : o.encoding = .i64) : o.normal.encoding = .i64 := by
  cases o with
  | imm enc n =>
    obtain rfl : enc = .i64 := h
    rfl
  | var enc id =>
    obtain rfl : enc = .i64 := h
    rfl
  | label | symbol => exact h

end Operand

theorem Instr.Idle.normal {i : Instr} (h : i.Idle) : i.normal.Idle where
  transfers := h.transfers
  factor := by
    have factor := h.factor
    obtain ⟨opcode, qualifier, operands⟩ := i
    rcases operands with _ | ⟨a, _ | ⟨b, _ | ⟨c, _ | ⟨d, rest⟩⟩⟩⟩
    · cases opcode <;> rfl
    · cases opcode <;> rfl
    · cases opcode <;> rfl
    · cases c <;> cases opcode <;> first | rfl | cases factor
    · cases c <;> cases opcode <;> rfl
  solid := by
    intro o mem
    obtain ⟨x, there, rfl⟩ := mem_map.1 mem
    have solid := h.solid x there
    cases x <;> exact solid

theorem sequence_normal {f : Callee} {args : List Operand} (plain : f.result.Plain) (takes : f.Takes args)
    (id : UInt32) : (args.mapIdx Instr.param ++ Instr.call f.name :: f.outcome id).map Instr.normal =
      args.mapIdx Instr.param ++ Instr.call f.name :: f.outcome id := by
  have params : (args.mapIdx Instr.param).map Instr.normal = args.mapIdx Instr.param := by
    refine (map_congr_left fun i mem => ?_).trans (map_id _)
    obtain ⟨k, bound, rfl⟩ := mem_mapIdx.1 mem
    obtain ⟨type, id, arg, scalar, -⟩ := takes.passed k _ (List.getElem?_eq_getElem bound)
    rw [arg, Instr.normal, Instr.param, map_cons, map_cons, Operand.normal_size,
      Operand.normal_variable (plain_of_isScalar scalar)]
    rfl
  have outcome : (f.outcome id).map Instr.normal = f.outcome id := by
    unfold Callee.outcome
    split
    · rfl
    · rw [map_singleton, Instr.normal, map_singleton, Operand.normal_variable plain]
  rw [map_append, params, map_cons, outcome]
  rfl

theorem Event.Code.normal {e : Event} {block : List Instr} (h : e.Code block) : e.Code (block.map Instr.normal) := by
  cases e with
  | offset element | distance element =>
    obtain ⟨id, x, encoding, rfl⟩ := h
    refine ⟨id, x.normal, Operand.encoding_normal encoding, ?_⟩
    rw [map_singleton, Instr.normal, map_cons, map_cons, map_singleton, Operand.normal_constant]
    rfl
  | read object =>
    obtain ⟨element, id, address, rfl⟩ := h
    exact ⟨element, id, address, rfl⟩
  | write => exact h.elim
  | call callee f count =>
    obtain ⟨named, plain, args, id, length, takes, rfl⟩ := h
    exact ⟨named, plain, args, id, length, takes, sequence_normal plain takes id⟩

theorem CarriesOut.normal {es : List Event} {part : List Instr} (h : CarriesOut es part) :
    CarriesOut es (part.map Instr.normal) := by
  induction h with
  | nil => exact .nil
  | idle here _ ih => exact .idle here.normal ih
  | event here _ ih =>
    rw [map_append]
    exact .event here.normal ih

/-! ## Compiled modules -/

theorem compile_carriesOut {source bytes : Bytes} (h : compile source = .ok bytes) :
    ∃ p v code, Program.parse source = .ok p ∧ View.parse bytes = .ok v ∧ Instr.decodeStream v.code = .ok code ∧
      code.length < 2 ^ 32 ∧ CarriesOut p.events code := by
  obtain ⟨p, s, v, parsed, pieces, few, -, view, decoded⟩ := compile_topLevels h
  obtain ⟨items, -, code, carriesOut, -⟩ := topLevels_course (Program.wellFormed_of_parse parsed) proper_empty pieces
  refine ⟨p, v, _, parsed, view, decoded, ?_, ?_⟩
  · rw [length_map, length_reverse]
    omega
  · rw [code, append_nil, reverse_reverse]
    exact carriesOut.normal

/-! ## The order of calls

Calls in code stand in the order in which a reader of the source expects them to be made, and each call of
the source is there once.  The order can be read off the tree, as `Expr.callees` does for expressions:

  * a condition comes before what it decides, and `do` has its condition behind the body;
  * a `for` loop has its opening first, then its condition, its body and its step;
  * statements and declarations follow one another. -/

theorem Expr.CalledBy.normal {callee : Expr} {i : Instr} (h : callee.CalledBy i) : callee.CalledBy i.normal := by
  obtain ⟨loc, name, rfl, rfl⟩ := h
  exact ⟨loc, name, rfl, rfl⟩

theorem calls_normal {callees : List Expr} {item : List Instr}
    (h : List.Forall₂ Expr.CalledBy callees (item.filter Instr.isCall)) :
    List.Forall₂ Expr.CalledBy callees ((item.map Instr.normal).filter Instr.isCall) := by
  have same : (item.map Instr.normal).filter Instr.isCall = (item.filter Instr.isCall).map Instr.normal := by
    rw [filter_map]
    rfl
  rw [same, forall₂_map_right_iff]
  exact h.imp fun _ _ => Expr.CalledBy.normal

/-- The code of a compiled module is that of the pieces of its program, one after the other.  The calls in the
code of a piece are the calls in its tree: each is there once, they are in the order of evaluation, and there
are no others. -/
theorem compile_calls {source bytes : Bytes} (h : compile source = .ok bytes) :
    ∃ p v code items, Program.parse source = .ok p ∧ View.parse bytes = .ok v ∧
      Instr.decodeStream v.code = .ok code ∧ code = items.flatten ∧
      List.Forall₂ (fun t item => t.Shape item ∧
        List.Forall₂ Expr.CalledBy t.callees (item.filter Instr.isCall)) p items := by
  obtain ⟨p, t, v, parsed, pieces, -, -, view, decoded⟩ := compile_topLevels h
  have program := Program.wellFormed_of_parse parsed
  obtain ⟨items, -, written, -, made⟩ := topLevels_course program proper_empty pieces
  refine ⟨p, v, _, items.map (List.map Instr.normal), parsed, view, decoded, ?_, ?_⟩
  · rw [written, List.reverse_append, List.reverse_reverse, List.map_append, List.map_flatten]
    rfl
  · rw [List.forall₂_map_right_iff]
    refine List.Forall₂.imp ?_ ((List.forall₂_and_left _ _).2 ⟨program, made⟩)
    rintro piece item ⟨declarations, shape, made⟩
    exact ⟨shape.normal declarations, calls_normal made.refers.calls⟩

def stepping : Bytes := ascii "int a();void b();int c();void f()\x7bfor(;a();c())b();\x7d"

/-- The step is called behind the body. -/
theorem compile_calls_stepping : ∃ bytes, compile stepping = .ok bytes ∧
    ∃ p v code items, Program.parse stepping = .ok p ∧ View.parse bytes = .ok v ∧
      Instr.decodeStream v.code = .ok code ∧ code = items.flatten ∧
      List.Forall₂ (fun t item => t.Shape item ∧
        List.Forall₂ Expr.CalledBy t.callees (item.filter Instr.isCall)) p items ∧
      code.filter Instr.isCall = ["a", "b", "c"].map (.call ∘ ascii) := by
  have computed : compilesWith stepping (fun _ code =>
      code.filter Instr.isCall = ["a", "b", "c"].map (.call ∘ ascii)) = true := by decide +kernel
  obtain ⟨bytes, compiled, calls⟩ := holds_of_compilesWith computed
  obtain ⟨p, v, code, items, parsed, view, decoded, flat, pieces⟩ := compile_calls compiled
  exact ⟨bytes, compiled, p, v, code, items, parsed, view, decoded, flat, pieces, calls v code view decoded⟩

/-! ## Calls in one piece

The arguments of a call are all evaluated before the first of them is passed.  So the instructions of a call stand
together, whatever the arguments are made of: the arguments are passed in order, the function is called, and its
result is taken if it has one.  Between such blocks nothing is passed, called or taken.

Which function a call means is found in the table of names at the call, and so is what the function takes. -/

def Event.called? : Event → Option (Callee × Nat)
  | .call _ function count => some (function, count)
  | .offset _ | .distance _ | .read _ | .write _ => none

/-- The calls of a program in order: the function that is visible under the name, and the number of arguments. -/
def Program.calls (p : Program) : List (Callee × Nat) := p.events.filterMap Event.called?

/-- Code that is made of blocks for calls, in order, and of instructions that have no part in a call. -/
inductive CallBlocks : List (Callee × Nat) → List Instr → Prop
  | nil : CallBlocks [] []
  | other {i : Instr} {calls : List (Callee × Nat)} {part : List Instr} (here : i.opcode.transfers = false)
    (rest : CallBlocks calls part) : CallBlocks calls (i :: part)
  | call {f : Callee} {count : Nat} {calls : List (Callee × Nat)} {block part : List Instr}
    (here : f.Sequence count block) (rest : CallBlocks calls part) : CallBlocks ((f, count) :: calls) (block ++ part)

variable {part : List Instr}

theorem CarriesOut.callBlocks {es : List Event} (h : CarriesOut es part) :
    CallBlocks (es.filterMap Event.called?) part := by
  induction h with
  | nil => exact .nil
  | idle here _ ih => exact .other here.transfers ih
  | @event e es block part here _ ih =>
    cases e with
    | offset | distance | read =>
      obtain ⟨_, _, _, rfl⟩ := here
      exact .other rfl ih
    | write => exact here.elim
    | call callee f count => exact .call here.2 ih

theorem CallBlocks.count_le {calls : List (Callee × Nat)} (h : CallBlocks calls part) :
    ∀ c ∈ calls, c.2 ≤ part.length := by
  induction h with
  | nil => exact List.forall_mem_nil _
  | other _ _ ih => exact fun c mem => Nat.le_succ_of_le (ih c mem)
  | call here _ ih =>
    obtain ⟨-, args, id, rfl, -, rfl⟩ := here
    refine List.forall_mem_cons.2 ⟨?_, fun c mem => ?_⟩
    · rw [List.length_append, List.length_append, List.length_mapIdx]
      omega
    · have small := ih c mem
      rw [List.length_append]
      omega

/-- The code of a compiled module is made of blocks for the calls of its program, in order, and of instructions that
have no part in a call.  In a block the arguments are passed with the numbers from 0 on, as many as the call has and
as the function takes; each is of the type of its parameter, or of a wide type if there is none for it.  Then the
function is called, and its result is taken exactly if it does not return `void`. -/
theorem compile_callBlocks {source bytes : Bytes} (h : compile source = .ok bytes) :
    ∃ p v code, Program.parse source = .ok p ∧ View.parse bytes = .ok v ∧ Instr.decodeStream v.code = .ok code ∧
      CallBlocks p.calls code ∧ ∀ c ∈ p.calls, c.2 < 2 ^ 32 := by
  obtain ⟨p, v, code, parsed, view, decoded, short, carriesOut⟩ := compile_carriesOut h
  have blocks := carriesOut.callBlocks
  refine ⟨p, v, code, parsed, view, decoded, blocks, fun c mem => ?_⟩
  exact Nat.lt_of_le_of_lt (blocks.count_le c mem) short

/-- A call among the arguments of another, of a function that takes any number of them. -/
def nesting : Bytes := ascii "int f(int a,...)\x7breturn f(1,f(2));\x7d"

/-- The inner call is complete before anything is passed to the outer one. -/
theorem compile_callBlocks_nesting : ∃ bytes, compile nesting = .ok bytes ∧
    ∃ p v code, Program.parse nesting = .ok p ∧ View.parse bytes = .ok v ∧ Instr.decodeStream v.code = .ok code ∧
      CallBlocks p.calls code ∧ (∀ c ∈ p.calls, c.2 < 2 ^ 32) ∧
      (code.filter (·.opcode.transfers)).map (·.opcode) = [.param, .call, .result, .param, .param, .call, .result] := by
  have computed : compilesWith nesting (fun _ code => (code.filter (·.opcode.transfers)).map (·.opcode) =
        [.param, .call, .result, .param, .param, .call, .result]) = true := by
    decide +kernel
  obtain ⟨bytes, compiled, holds⟩ := holds_of_compilesWith computed
  obtain ⟨p, v, code, parsed, view, decoded, blocks, counts⟩ := compile_callBlocks compiled
  exact ⟨bytes, compiled, p, v, code, parsed, view, decoded, blocks, counts, holds v code view decoded⟩

/-! ## Objects of type `void`

Nothing has the type `void` by declaration, so an object of that type can only be reached through a pointer.  A
pointer to `void` cannot be dereferenced, and nothing of type `void` is assigned or stepped.  Indexing makes no such
check: where `p` points to `void`, `p[0]` is accepted, and a value without a width is loaded for it.

These loads are all there is.  In the code of a program they are the instructions that have a variable of type
`void`, one for each element of type `void` that is read, in order. -/

def Event.read? : Event → Option Expr
  | .read object => some object
  | .offset _ | .distance _ | .write _ | .call .. => none

def Event.written? : Event → Option Expr
  | .write object => some object
  | .offset _ | .distance _ | .read _ | .call .. => none

def Program.voidReads (p : Program) : List Expr := p.events.filterMap Event.read?

def Program.voidWrites (p : Program) : List Expr := p.events.filterMap Event.written?

def Instr.hasVoid (i : Instr) : Bool := i.operands.any Operand.isVoid

/-- An element of type `void` is read by loading nothing from an address. -/
def Instr.Reads (object : Expr) (i : Instr) : Prop :=
  object.isIndex = true ∧ ∃ id address, i = ⟨.load, .none, [.var .void id, .var .ptr address]⟩

theorem hasVoid_eq_false {i : Instr} : i.hasVoid = false ↔ ∀ o ∈ i.operands, o.isVoid = false := by
  rw [Instr.hasVoid, any_eq_false]
  exact forall₂_congr fun o _ => (Bool.not_eq_true _).to_iff

theorem hasVoid_sequence {f : Callee} {args : List Operand} (takes : f.Takes args) (id : UInt32) :
    (args.mapIdx Instr.param ++ Instr.call f.name :: f.outcome id).filter Instr.hasVoid = [] := by
  rw [filter_eq_nil_iff]
  suffices solid : ∀ i ∈ args.mapIdx Instr.param ++ Instr.call f.name :: f.outcome id,
      ∀ o ∈ i.operands, o.isVoid = false from fun i mem => by
    rw [hasVoid_eq_false.2 (solid i mem)]
    exact Bool.false_ne_true
  refine forall_mem_append.2 ⟨fun i mem => ?_, forall_mem_cons.2 ⟨?_, fun i mem => ?_⟩⟩
  · obtain ⟨k, bound, rfl⟩ := mem_mapIdx.1 mem
    obtain ⟨type, id, arg, scalar, -⟩ := takes.passed k _ (List.getElem?_eq_getElem bound)
    refine forall_mem_cons.2 ⟨rfl, forall_mem_singleton.2 ?_⟩
    rw [arg]
    exact isVoid_var (notVoid_of_isScalar scalar) id
  · exact forall_mem_singleton.2 rfl
  · obtain ⟨solid, rfl⟩ := Callee.eq_of_mem_outcome mem
    exact forall_mem_singleton.2 (isVoid_var solid id)

theorem CarriesOut.voids {es : List Event} {part : List Instr} (h : CarriesOut es part) :
    List.Forall₂ Instr.Reads (es.filterMap Event.read?) (part.filter Instr.hasVoid) ∧
      es.filterMap Event.written? = [] := by
  induction h with
  | nil => exact ⟨.nil, rfl⟩
  | idle here _ ih =>
    rw [filter_cons_of_neg (by rw [hasVoid_eq_false.2 here.solid]; exact Bool.false_ne_true)]
    exact ih
  | @event e es block part here _ ih =>
    rw [filter_append]
    cases e with
    | offset element | distance element =>
      obtain ⟨id, x, encoding, rfl⟩ := here
      have solid : ∀ o ∈ [.var .i64 id, x, .imm .i64 (stride (.pointer element))], o.isVoid = false :=
        forall_mem_cons.2 ⟨rfl, forall_mem_cons.2
          ⟨isVoid_of_encoding (a := .long) encoding rfl, forall_mem_singleton.2 rfl⟩⟩
      rw [filter_cons_of_neg (by rw [hasVoid_eq_false.2 solid]; exact Bool.false_ne_true)]
      exact ih
    | read object =>
      obtain ⟨element, id, address, rfl⟩ := here
      exact ⟨.cons ⟨element, id, address, rfl⟩ ih.1, ih.2⟩
    | write => exact here.elim
    | call callee f count =>
      obtain ⟨-, -, args, id, -, takes, rfl⟩ := here
      rw [hasVoid_sequence takes]
      exact ih

/-- In the code of a compiled module, the instructions with a variable of type `void` are the loads of the elements
of type `void` that the program reads, one for one and in order.  It writes none, and no object of type `void` but an
element is read.  So there is no such variable exactly if the program reads no such element. -/
theorem compile_voids {source bytes : Bytes} (h : compile source = .ok bytes) :
    ∃ p v code, Program.parse source = .ok p ∧ View.parse bytes = .ok v ∧ Instr.decodeStream v.code = .ok code ∧
      List.Forall₂ Instr.Reads p.voidReads (code.filter Instr.hasVoid) ∧ p.voidWrites = [] ∧
      ((∀ i ∈ code, ∀ o ∈ i.operands, o.isVoid = false) ↔ p.voidReads = []) := by
  obtain ⟨p, v, code, parsed, view, decoded, -, carriesOut⟩ := compile_carriesOut h
  obtain ⟨reads, writes⟩ := carriesOut.voids
  refine ⟨p, v, code, parsed, view, decoded, reads, writes, ?_⟩
  have none : (∀ i ∈ code, ∀ o ∈ i.operands, o.isVoid = false) ↔ code.filter Instr.hasVoid = [] := by
    rw [List.filter_eq_nil_iff]
    refine forall₂_congr fun i _ => ?_
    rw [← hasVoid_eq_false, Bool.not_eq_true]
  rw [none, ← List.length_eq_zero_iff, ← reads.length_eq, List.length_eq_zero_iff]
  rfl

def untyped : Bytes := ascii "void f(void*p)\x7bp+1;p[1];\x7d"

theorem compile_voids_untyped : ∃ bytes, compile untyped = .ok bytes ∧
    ∃ p v code, Program.parse untyped = .ok p ∧ View.parse bytes = .ok v ∧ Instr.decodeStream v.code = .ok code ∧
      List.Forall₂ Instr.Reads p.voidReads (code.filter Instr.hasVoid) ∧ p.voidWrites = [] ∧
      ((∀ i ∈ code, ∀ o ∈ i.operands, o.isVoid = false) ↔ p.voidReads = []) ∧
      (code.filter Instr.hasVoid).length = 1 := by
  have computed : compilesWith untyped (fun _ code => (code.filter Instr.hasVoid).length = 1) = true := by
    decide +kernel
  obtain ⟨bytes, compiled, holds⟩ := holds_of_compilesWith computed
  obtain ⟨p, v, code, parsed, view, decoded, reads, writes, none⟩ := compile_voids compiled
  exact ⟨bytes, compiled, p, v, code, parsed, view, decoded, reads, writes, none, holds v code view decoded⟩

def voidElement : Bytes := ascii "void f(void*p)\x7bp[0];\x7d"

/-- It is loaded into a variable of type `void`. -/
theorem voidElement_accepted : ∃ bytes v code, compile voidElement = .ok bytes ∧ View.parse bytes = .ok v ∧
    Instr.decodeStream v.code = .ok code ∧
    code.filter Instr.hasVoid = [⟨.load, .none, [.var .void 6, .var .ptr 5]⟩] :=
  ok_of_compilesWith (by decide +kernel)

/-! ## Pointers move by whole elements

A pointer that is moved is moved by one multiplication with the size of an element, and the distance of two
pointers is divided by it once.  No other instruction multiplies or divides by a constant, so the constants in the
code are those of the program, one for one.

Sizes have 64 bits.  `CType.size` stops at the largest number, and the constant is read as a signed number, so it is
right exactly up to 2⁶³.  An array of arrays can be larger than that, and nothing is said against it: the constant
is then negative. -/

/-! ### Sizes without a limit -/

def CType.extent : CType → Nat
  | void => 0
  | integral width _ => width.bytes
  | floating width => width.bytes
  | pointer _ => 8
  | array element (.fixed count) => element.extent * count.toNat
  | array _ .unsized => 0
  | function .. => 0

/-- How many bytes there are from one element to the next.  An element without a size counts as four bytes. -/
def CType.pace (element : CType) : Nat := if element.extent = 0 then 4 else element.extent

theorem min_mul_min (a b limit : Nat) : min (min a limit * b) limit = min (a * b) limit := by
  rcases Nat.le_total a limit with small | large
  · rw [Nat.min_eq_left small]
  rw [Nat.min_eq_right large]
  cases b with
  | zero => rfl
  | succ b =>
    have below : limit ≤ limit * (b + 1) := Nat.le_mul_of_pos_right _ b.succ_pos
    have above : limit ≤ a * (b + 1) := Nat.le_trans large (Nat.le_mul_of_pos_right _ b.succ_pos)
    rw [Nat.min_eq_right below, Nat.min_eq_right above]

theorem CType.toNat_size (type : CType) : type.size.toNat = min type.extent (2 ^ 64 - 1) := by
  match type with
  | void | pointer _ | function .. | array _ .unsized => rfl
  | integral width _ => cases width <;> rfl
  | floating width => cases width <;> rfl
  | array element (.fixed count) =>
    rw [size, saturatingMul, extent, toNat_size element, UInt64.toNat_ofNat', min_mul_min]
    omega

theorem toNat_clampWord32 (n : UInt64) : (CType.clampWord32 n).toNat = min n.toNat (2 ^ 32 - 1) := by
  rw [CType.clampWord32, UInt32.toNat_ofNat']
  omega

/-- How many elements a length allows for; an array without one has no size. -/
def ArraySize.count : ArraySize → Nat
  | .fixed count => count.toNat
  | .unsized => 0

theorem CType.extent_arrayOf (element : CType) (lengths : List ArraySize) :
    (Grammar.arrayOf element lengths).extent = (lengths.map (·.count)).prod * element.extent := by
  induction lengths with
  | nil => rw [map_nil, prod_nil, Nat.one_mul, Grammar.arrayOf, foldr_nil]
  | cons length lengths ih =>
    rw [Grammar.arrayOf, foldr_cons, map_cons, prod_cons]
    cases length with
    | fixed count =>
      show (Grammar.arrayOf element lengths).extent * count.toNat = _
      rw [ih, Nat.mul_comm, ← Nat.mul_assoc]
      rfl
    | unsized => rw [ArraySize.count, Nat.zero_mul, Nat.zero_mul, extent]

/-- Sizes are right up to the largest number of 64 bits, and the widths of arrays up to that of 32 bits: a limit
that is met inside of an array leaves no trace.  With lengths in brackets, it is their product that counts, in
whatever order they are and also if one is zero. -/
theorem sizes_exact (type : CType) : type.size.toNat = min type.extent (2 ^ 64 - 1) ∧
    (∀ element size, type = .array element size → type.encoding.width.toNat = min type.extent (2 ^ 32 - 1)) ∧
    ∀ lengths, (Grammar.arrayOf type lengths).size.toNat =
      min ((lengths.map (·.count)).prod * type.extent) (2 ^ 64 - 1) := by
  refine ⟨type.toNat_size, ?_, fun lengths => ?_⟩
  · rintro element size rfl
    rw [CType.encoding, toNat_clampWord32, CType.toNat_size]
    omega
  · rw [CType.toNat_size, CType.extent_arrayOf]

/-- An inner limit, and a zero behind it: `char [0][2⁶³][2⁶³]` has no size, and without the zero a width stops. -/
theorem sizes_exact_zero :
    (Grammar.arrayOf .char [.fixed 0, .fixed 0x8000000000000000, .fixed 0x8000000000000000]).size.toNat = 0 ∧
    (Grammar.arrayOf .char [.fixed 0x8000000000000000, .fixed 4]).encoding.width.toNat = 2 ^ 32 - 1 :=
  ⟨(sizes_exact .char).2.2 _, (sizes_exact _).2.1 _ _ rfl⟩

theorem toNat_stride (element : CType) : (stride (.pointer element)).toNat = min element.pace (2 ^ 64 - 1) := by
  have size := element.toNat_size
  have zero : element.size = 0 ↔ element.extent = 0 := by
    rw [← UInt64.toNat_inj, size, UInt64.toNat_zero]
    omega
  show (if element.size = 0 then (4 : UInt64) else element.size).toNat = _
  unfold CType.pace
  by_cases none : element.extent = 0
  · rw [if_pos none, if_pos (zero.2 none)]
    rfl
  · rw [if_neg none, if_neg (none ∘ zero.1)]
    exact size

theorem toInt_toInt64 (n : UInt64) : n.toInt64.toInt = if n.toNat < 2 ^ 63 then (n.toNat : Int) else n.toNat - 2 ^ 64 := by
  show n.toBitVec.toInt = _
  rw [BitVec.toInt_eq_toNat_cond]
  show (if 2 * n.toNat < 2 ^ 64 then (n.toNat : Int) else n.toNat - (2 ^ 64 : Nat)) = _
  by_cases small : n.toNat < 2 ^ 63
  · rw [if_pos small, if_pos (by omega)]
  · rw [if_neg small, if_neg (by omega)]
    rfl

theorem stride_exact (element : CType) :
    (0 < (stride (.pointer element)).toInt64.toInt ∧ (stride (.pointer element)).toInt64.toInt = element.pace) ↔
      element.pace < 2 ^ 63 := by
  have positive : 0 < element.pace := by
    unfold CType.pace
    split <;> omega
  rw [toInt_toInt64, toNat_stride]
  constructor
  · intro exact
    split at exact <;> omega
  · intro small
    rw [if_pos (by omega)]
    omega

/-! ### Constants in code -/

/-- The operation that an event scales with, and the type of the elements. -/
def Event.scaling? : Event → Option (Opcode × CType)
  | .offset element => some (.mul, element)
  | .distance element => some (.div, element)
  | .read _ | .write _ | .call .. => none

/-- Where a program moves pointers or takes their distance, in order. -/
def Program.scalings (p : Program) : List (Opcode × CType) := p.events.filterMap Event.scaling?

theorem CarriesOut.factors {es : List Event} {part : List Instr} (h : CarriesOut es part) :
    part.filterMap Instr.factor? = (es.filterMap Event.scaling?).map fun s => (s.1, .i64, stride (.pointer s.2)) := by
  induction h with
  | nil => rfl
  | idle here _ ih => rw [filterMap_cons_none here.factor, ih]
  | @event e es block part here _ ih =>
    rw [filterMap_append, ih]
    cases e with
    | offset element | distance element =>
      obtain ⟨id, x, -, rfl⟩ := here
      rfl
    | read object =>
      obtain ⟨-, id, address, rfl⟩ := here
      rfl
    | write => exact here.elim
    | call callee f count =>
      obtain ⟨-, -, args, id, -, -, rfl⟩ := here
      have none : (args.mapIdx Instr.param ++ Instr.call f.name :: f.outcome id).filterMap Instr.factor? = [] := by
        rw [filterMap_eq_nil_iff]
        refine forall_mem_append.2 ⟨fun i mem => ?_, forall_mem_cons.2 ⟨rfl, fun i mem => ?_⟩⟩
        · obtain ⟨k, -, rfl⟩ := mem_mapIdx.1 mem
          rfl
        · unfold Callee.outcome at mem
          split at mem
          · cases mem
          · obtain rfl := mem_singleton.1 mem
            rfl
      rw [none]
      rfl

/-- In the code of a compiled module there is one multiplication by a constant for each pointer that the program
moves, one division for each distance that it takes, and no other.  As a signed number the constant is positive and
equal to the size of an element exactly if that size is less than 2⁶³. -/
theorem compile_scalings {source bytes : Bytes} (h : compile source = .ok bytes) :
    ∃ p v code, Program.parse source = .ok p ∧ View.parse bytes = .ok v ∧ Instr.decodeStream v.code = .ok code ∧
      code.filterMap Instr.factor? = p.scalings.map (fun s => (s.1, .i64, stride (.pointer s.2))) ∧
      ∀ s ∈ p.scalings, (0 < (stride (.pointer s.2)).toInt64.toInt ∧
        (stride (.pointer s.2)).toInt64.toInt = s.2.pace) ↔ s.2.pace < 2 ^ 63 := by
  obtain ⟨p, v, code, parsed, view, decoded, -, carriesOut⟩ := compile_carriesOut h
  exact ⟨p, v, code, parsed, view, decoded, carriesOut.factors, fun s _ => stride_exact s.2⟩

def measuring : Bytes := ascii "long f(int*p)\x7breturn(p+1)-p;\x7d"

theorem compile_scalings_measuring : ∃ bytes, compile measuring = .ok bytes ∧
    ∃ p v code, Program.parse measuring = .ok p ∧ View.parse bytes = .ok v ∧ Instr.decodeStream v.code = .ok code ∧
      code.filterMap Instr.factor? = p.scalings.map (fun s => (s.1, .i64, stride (.pointer s.2))) ∧
      (∀ s ∈ p.scalings, (0 < (stride (.pointer s.2)).toInt64.toInt ∧
        (stride (.pointer s.2)).toInt64.toInt = s.2.pace) ↔ s.2.pace < 2 ^ 63) ∧
      code.filterMap Instr.factor? = [(.mul, .i64, 4), (.div, .i64, 4)] := by
  have computed : compilesWith measuring (fun _ code =>
      code.filterMap Instr.factor? = [(.mul, .i64, 4), (.div, .i64, 4)]) = true := by decide +kernel
  obtain ⟨bytes, compiled, holds⟩ := holds_of_compilesWith computed
  obtain ⟨p, v, code, parsed, view, decoded, factors, exact⟩ := compile_scalings compiled
  exact ⟨bytes, compiled, p, v, code, parsed, view, decoded, factors, exact, holds v code view decoded⟩

def huge : Bytes := ascii "void f(int a[][4611686018427387904])\x7ba+1;\x7d"

/-- The pointer is moved backwards, by one byte. -/
theorem scaling_negative : ∃ bytes v code, compile huge = .ok bytes ∧ View.parse bytes = .ok v ∧
    Instr.decodeStream v.code = .ok code ∧ code.filterMap Instr.factor? = [(.mul, .i64, 18446744073709551615)] ∧
    (18446744073709551615 : UInt64).toInt64.toInt = -1 :=
  ok_of_compilesWith (by decide +kernel)

end Cof
