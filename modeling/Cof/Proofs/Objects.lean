/-
  Storage in code.

  An object is a variable that a program makes room for: one of static storage, which is defined by a directive,
  or an automatic one, which is created by an instruction.  Parameters are automatic.  Both the directive and the
  instruction carry the size of the object, and the code of a compiled module carries the sizes of exactly the
  objects of the program, in the order of the text.
-/
import Cof.Proofs.Compiled
import Cof.Proofs.Constants
import Cof.Proofs.Shape

namespace Cof

open Cof.Lowering Cof.Module List

/-! ## Complete types -/

/-- A type whose objects have bytes: no function, not `void`, and an array only with a length other than zero and
with complete elements. -/
def CType.Complete : CType → Prop
  | .integral .. | .floating _ | .pointer _ => True
  | .array element (.fixed count) => element.Complete ∧ count ≠ 0
  | .void | .array _ .unsized | .function .. => False

theorem CType.saturatingMul_ne_zero (a b : UInt64) : saturatingMul a b ≠ 0 ↔ a ≠ 0 ∧ b ≠ 0 := by
  have small : min (a.toNat * b.toNat) (2 ^ 64 - 1) < 2 ^ 64 := by omega
  have product : (saturatingMul a b).toNat = min (a.toNat * b.toNat) (2 ^ 64 - 1) := UInt64.toNat_ofNat_of_lt' small
  simp only [ne_eq, ← UInt64.toNat_inj, product, UInt64.toNat_zero]
  have zero : a.toNat * b.toNat = 0 ↔ a.toNat = 0 ∨ b.toNat = 0 := Nat.mul_eq_zero
  omega

theorem CType.size_ne_zero_iff (type : CType) : type.size ≠ 0 ↔ type.Complete := by
  induction type using CType.size.induct with
  | case1 => exact iff_of_false (fun h => h rfl) id
  | case2 width isSigned => exact iff_of_true (size_ne_zero_of_isScalar rfl) trivial
  | case3 width => exact iff_of_true (size_ne_zero_of_isScalar rfl) trivial
  | case4 target => exact iff_of_true (size_ne_zero_of_isScalar rfl) trivial
  | case5 element count ih => rw [size, Complete, saturatingMul_ne_zero, ih]
  | case6 element => exact iff_of_false (fun h => h rfl) id
  | case7 result params variadic => exact iff_of_false (fun h => h rfl) id

/-! ## Objects -/

/-- How long an object lasts. -/
inductive Duration where
  | static | automatic
deriving DecidableEq, Repr

/-- Something that a program makes room for. -/
structure Object where
  duration : Duration
  type : CType
deriving DecidableEq, Repr

def Declaration.objects : Declaration → List Object
  | .proto _ => []
  | .var v =>
    match v.linkage with
    | .external => []
    | .static => [⟨.static, v.type⟩]
    | .plain => [⟨.automatic, v.type⟩]

def TopLevel.objects : TopLevel → List Object
  | .declare (.proto _) => []
  | .declare (.var v) => if v.isDefinition then [⟨.static, v.type⟩] else []
  | .define f body =>
    f.params.map (⟨.automatic, ·.type⟩) ++ (Stmt.allDeclarations body).flatMap Declaration.objects

def Program.objects (p : Program) : List Object := p.flatMap TopLevel.objects

/-! ## Storage -/

namespace Instr

/-- How long what an instruction makes room for lasts, if it makes room for something. -/
def duration? (i : Instr) : Option Duration :=
  match i.opcode with
  | .var => some .automatic
  | .sym => if i.qualifier = .global ∨ i.qualifier = .static then some .static else none
  | _ => none

/-- The size that an instruction carries behind the name or number of an object. -/
def size? (i : Instr) : Option UInt64 :=
  match i.operands with
  | _ :: .imm _ n :: _ => some n
  | _ => none

def storage? (i : Instr) : Option (Duration × Option UInt64) := i.duration?.map (·, i.size?)

variable {i : Instr}

theorem duration?_of_isPlain (h : i.isPlain = true) : i.duration? = none := by
  obtain ⟨opcode, qualifier, operands⟩ := i
  cases opcode with
  | sym =>
    obtain rfl : qualifier = .label := by simpa [isPlain] using h
    rfl
  | var => cases h
  | _ => rfl

theorem storage?_of_duration? (h : i.duration? = none) : i.normal.storage? = none := by
  show i.duration?.map _ = none
  rw [h]
  rfl

end Instr

def Object.storage (o : Object) : Duration × Option UInt64 := (o.duration, some o.type.size)

theorem Instr.storage?_create (type : CType) (id : UInt32) :
    (create type id).normal.storage? = some (Object.storage ⟨.automatic, type⟩) := by
  show some (_, size? ⟨.var, .none, [_, (Operand.size type.size).normal]⟩) = _
  rw [Operand.normal_size]
  rfl

theorem Instr.storage?_definition (name : Name) (type : CType) (isStatic : Bool) (first : List Operand) :
    (definition name type isStatic first).normal.storage? = some (Object.storage ⟨.static, type⟩) := by
  have static : (definition name type isStatic first).duration? = some .static := by
    cases isStatic <;> rfl
  show (definition name type isStatic first).duration?.map _ = _
  rw [static]
  show some (_, size? ⟨.sym, _, _ :: (Operand.size type.size).normal :: _⟩) = _
  rw [Operand.normal_size]
  rfl

namespace Lowering

/-- Between two states room is made for some objects, and automatic ones are complete. -/
structure Stores (os : List Object) (s s' : State) : Prop where
  storage : s'.code.reverse.filterMap (·.normal.storage?) =
    s.code.reverse.filterMap (·.normal.storage?) ++ os.map Object.storage
  complete : ∀ o ∈ os, o.duration = .automatic → o.type.Complete

section Stores

variable {os os' : List Object} {s s' t : State} {i : Instr} {bytes : Bytes}

theorem Stores.append (h : Stores os s t) (h' : Stores os' t s') : Stores (os ++ os') s s' where
  storage := by rw [h'.storage, h.storage, map_append, append_assoc]
  complete o mem := (mem_append.1 mem).elim (h.complete o) (h'.complete o)

theorem stores_unseen (code : s'.code = s.code) : Stores [] s s' where
  storage := by rw [code, map_nil, append_nil]
  complete := forall_mem_nil _

theorem storage_cons (code : s'.code = i :: s.code) : s'.code.reverse.filterMap (·.normal.storage?) =
    s.code.reverse.filterMap (·.normal.storage?) ++ [i].filterMap (·.normal.storage?) := by
  rw [code, reverse_cons, filterMap_append]

theorem stores_silent (silent : i.duration? = none) (code : s'.code = i :: s.code) : Stores [] s s' where
  storage := by
    rw [storage_cons code, filterMap_cons, Instr.storage?_of_duration? silent]
    rfl
  complete := forall_mem_nil _

theorem stores_object {o : Object} (shows : i.normal.storage? = some o.storage)
    (complete : o.duration = .automatic → o.type.Complete) (code : s'.code = i :: s.code) : Stores [o] s s' where
  storage := by
    rw [storage_cons code, filterMap_cons, shows]
    rfl
  complete := forall_mem_singleton.2 complete

end Stores

theorem composes_stores : Composes Stores where
  append := Stores.append
  growth grows := by
    cases grows with
    | emit encodes plain => exact stores_silent (Instr.duration?_of_isPlain plain) rfl
    | refuse | freshVariable | freshLabel | noteType => exact stores_unseen rfl
  scope mark encodes := by
    rcases mark with rfl | rfl <;> exact stores_silent rfl rfl
  context _ _ _ := stores_unseen rfl

/-! ## Declarations -/

section Declarations

variable {α : Type} {os : List Object} {m : Lower α}

theorem stores_emit {opcode : Opcode} {qualifier : Qualifier} {operands : List Operand}
    (silent : Instr.duration? ⟨opcode, qualifier, operands⟩ = none) :
    Traced Stores [] (emit opcode qualifier operands) := by
  intro s u s' run
  obtain ⟨bytes, -, rfl⟩ := emit_eq_ok.1 run
  exact stores_silent silent rfl

theorem stores_declareVariable {name : Name} {type : CType} {loc : Location} {fill : Operand → Lower Unit}
    (complete : type.size ≠ 0) (h : ∀ target, Traced Stores [] (fill target)) :
    Traced Stores [⟨.automatic, type⟩] (declareVariable name type loc fill) := by
  intro s u s' run
  obtain ⟨-, t, filled, created⟩ := declareVariable_steps run
  obtain ⟨_, -, rfl⟩ := emit_eq_ok.1 created
  refine Stores.append (stores_object (Instr.storage?_create type (.ofNat s.variableCount)) (fun _ => ?_) ?_)
    (h _ _ u s' filled)
  · exact (CType.size_ne_zero_iff _).1 complete
  · rfl

def storing : Ledger (List Object) where
  one := []
  mul := (· ++ ·)
  link _ := []
  object type := [⟨.static, type⟩]
  automatic _ type := [⟨.automatic, type⟩]
  frame f body := (TopLevel.define f body).objects
  one_mul _ := rfl
  mul_one := append_nil

theorem declaring_stores : Declaring storing (·.size ≠ 0) Stores where
  refl _ := stores_unseen rfl
  trans := Stores.append
  linking linked := by
    obtain ⟨_, _, rfl⟩ := linked.same
    exact stores_unseen rfl
  bound _ _ _ _ := stores_unseen rfl
  announced run := stores_emit rfl _ () _ run
  -- An object of static storage is defined whatever its type.
  defined {name v isStatic _ _} run := by
    obtain ⟨first, _, _, -, -, -, rfl⟩ := defineObject_steps run
    exact stores_object (Instr.storage?_definition name v.type isStatic first) Duration.noConfusion rfl
  filled complete run :=
    stores_declareVariable complete (fun target => composes_stores.grows (follows_fillVariable _ target)) _ () _ run
  taken complete run := stores_declareVariable complete (fun _ => stores_emit rfl) _ () _ run

theorem traces_stores : Traces fun ds => Stores (ds.flatMap Declaration.objects) where
  append first second := by
    rw [flatMap_append]
    exact first.append second
  growth := composes_stores.growth
  scope := composes_stores.scope
  context := composes_stores.context
  declaration {d s s'} run := by
    have objects : storing.declaration d = d.objects := by
      cases d with
      | proto f => rfl
      | var v =>
        unfold Declaration.objects
        cases linkage : v.linkage <;> simp only [Ledger.declaration, linkage] <;> rfl
    rw [flatMap_singleton, ← objects]
    exact declaring_stores.localDeclaration run

end Declarations

/-! ## Functions and programs -/

theorem storing_parameters (params : List Param) :
    storing.parameters params = params.map (⟨.automatic, ·.type⟩) := by
  induction params with
  | nil => rfl
  | cons p rest ih => exact congrArg ([⟨.automatic, p.type⟩] ++ ·) ih

theorem stores_functionFrame {f : FunctionDecl} (complete : ∀ p ∈ f.params, p.type.size ≠ 0) (body : List Stmt) :
    Traced Stores (TopLevel.define f body).objects (functionFrame f body) := by
  have rules := composes_stores
  have params : Traced Stores (f.params.map (⟨.automatic, ·.type⟩)) (bindParameters f.loc 0 f.params) :=
    fun _ _ _ run => storing_parameters f.params ▸ declaring_stores.bindParameters complete run
  refine rules.skip rules.enterScope fun _ => rules.skip (stores_emit rfl) fun _ => rules.skip rules.enterScope fun _ => ?_
  refine rules.bind params fun _ => rules.skip (stores_emit rfl) fun _ => ?_
  refine rules.last (traces_stores.statements body) fun _ => rules.skip (stores_emit rfl) fun _ => ?_
  refine rules.skip rules.exitScope fun _ => rules.skip (stores_emit rfl) fun _ => ?_
  exact rules.skip (stores_emit rfl) fun _ => rules.exitScope

theorem filing_stores : Filing storing (·.size ≠ 0) Stores where
  toDeclaring := declaring_stores
  directive run := stores_emit rfl _ () _ run
  resembles same := stores_unseen same.code
  framed complete run := stores_functionFrame complete _ _ () _ run

theorem stores_topLevel {t : TopLevel} (wellFormed : ∀ d ∈ t.declarations, d.WellFormed) :
    Traced Stores t.objects (topLevel t) := by
  have objects : storing.topLevel t = t.objects := by
    match t with
    | .declare (.proto f) | .declare (.var v) | .define f body => rfl
  intro s u s' run
  refine objects ▸ filing_stores.topLevel ?_ run
  rintro f body rfl p mem
  have function : f.WellFormed := (forall_mem_cons.1 wellFormed).1
  exact size_ne_zero_of_isScalar (function.params p mem)

theorem stores_topLevels {p : Program} (wellFormed : p.WellFormed) : Traced Stores p.objects (p.forM topLevel) := by
  induction p with
  | nil => exact composes_stores.pure
  | cons t rest ih =>
    obtain ⟨first, later⟩ := forall_mem_cons.1 wellFormed
    exact composes_stores.bind (stores_topLevel first) fun _ => ih later

end Lowering

theorem sizes_iff {code : List Instr} {os : List Object}
    (h : code.filterMap Instr.storage? = os.map Object.storage) (d : Duration) :
    (∀ i ∈ code, i.duration? = some d → ∃ n, i.size? = some n ∧ n ≠ 0) ↔
      ∀ o ∈ os, o.duration = d → o.type.Complete := by
  constructor
  · rintro sized o mem rfl
    have shown : o.storage ∈ code.filterMap Instr.storage? := h ▸ mem_map_of_mem mem
    obtain ⟨i, there, stored⟩ := mem_filterMap.1 shown
    obtain ⟨_, lasts, same⟩ := Option.map_eq_some_iff.1 stored
    obtain ⟨rfl, size⟩ := Prod.mk.inj same
    obtain ⟨n, carried, positive⟩ := sized i there lasts
    obtain rfl := Option.some.inj (carried.symm.trans size)
    exact (CType.size_ne_zero_iff o.type).1 positive
  · intro complete i there lasts
    have shown : (d, i.size?) ∈ os.map Object.storage :=
      h ▸ mem_filterMap.2 ⟨i, there, Option.map_eq_some_iff.2 ⟨d, lasts, rfl⟩⟩
    obtain ⟨o, mem, same⟩ := mem_map.1 shown
    obtain ⟨rfl, size⟩ := Prod.mk.inj same
    exact ⟨o.type.size, size.symm, (CType.size_ne_zero_iff o.type).2 (complete o mem rfl)⟩

/-- The code of a compiled module makes room for exactly the objects of the program, with their sizes, in order.  So
whatever creates a variable carries a size other than zero, and all definitions do so exactly if every object of
static storage has a complete type. -/
theorem compile_sizes {source bytes : Bytes} (h : compile source = .ok bytes) :
    ∃ p v code, Program.parse source = .ok p ∧ View.parse bytes = .ok v ∧ Instr.decodeStream v.code = .ok code ∧
      code.filterMap Instr.storage? = p.objects.map Object.storage ∧
      (∀ i ∈ code, i.duration? = some .automatic → ∃ n, i.size? = some n ∧ n ≠ 0) ∧
      ((∀ i ∈ code, i.duration? = some .static → ∃ n, i.size? = some n ∧ n ≠ 0) ↔
        ∀ o ∈ p.objects, o.duration = .static → o.type.Complete) := by
  obtain ⟨p, t, v, parsed, pieces, -, -, view, decoded⟩ := compile_topLevels h
  have stores := stores_topLevels (Program.wellFormed_of_parse parsed) {} () t pieces
  have storage : (t.code.reverse.map Instr.normal).filterMap Instr.storage? = p.objects.map Object.storage := by
    rw [List.filterMap_map]
    exact stores.storage
  exact ⟨p, v, _, parsed, view, decoded, storage, (sizes_iff storage .automatic).2 stores.complete,
    sizes_iff storage .static⟩

def storing : Bytes := ascii "int a[2][3];void f(char c)\x7b\x7d"

/-- Everything here is complete, and carries its size. -/
theorem compile_sizes_storing : ∃ bytes, compile storing = .ok bytes ∧
    ∃ p v code, Program.parse storing = .ok p ∧ View.parse bytes = .ok v ∧ Instr.decodeStream v.code = .ok code ∧
      (∀ i ∈ code, i.duration? ≠ none → ∃ n, i.size? = some n ∧ n ≠ 0) ∧
      code.filterMap Instr.storage? = [(.static, some 24), (.automatic, some 1)] := by
  have computed : compilesWith storing (fun _ code => code.filterMap Instr.storage? =
        [(.static, some 24), (.automatic, some 1)]) = true := by
    decide +kernel
  obtain ⟨bytes, compiled, holds⟩ := holds_of_compilesWith computed
  obtain ⟨p, v, code, parsed, view, decoded, storage, automatic, static⟩ := compile_sizes compiled
  have sizes := holds v code view decoded
  refine ⟨bytes, compiled, p, v, code, parsed, view, decoded, fun i there lasts => ?_, sizes⟩
  cases duration : i.duration? with
  | none => exact absurd duration lasts
  | some d =>
    cases d with
    | automatic => exact automatic i there duration
    | static =>
      refine static.2 (fun o mem _ => (CType.size_ne_zero_iff o.type).1 fun empty => ?_) i there duration
      have shown : o.storage ∈ p.objects.map Object.storage := List.mem_map_of_mem mem
      rw [← storage, sizes, Object.storage, empty] at shown
      revert shown
      cases o.duration <;> decide

def unsizedArray : Bytes := ascii "int a[];"

/-- It is defined with a size of zero. -/
theorem definition_without_size : ∃ bytes v code, compile unsizedArray = .ok bytes ∧ View.parse bytes = .ok v ∧
    Instr.decodeStream v.code = .ok code ∧ ∃ i ∈ code, i.duration? = some .static ∧ i.size? = some 0 :=
  ok_of_compilesWith (by decide +kernel)

end Cof
