/-
  What the code of an expression is like.

  Under a table of names, the code that is made for an expression carries out the events of the expression
  (`Expr.events`), its instructions are well typed, and it refers only to what the table offers.  `Enacts` says so
  of a step that succeeds.  One induction proves it for all expressions, since a block of code is what it is only
  if its operands are: along with the code, the induction has to know what comes out of each step.
-/
import Cof.Proofs.Blocks

namespace Cof

open Lowering List

/-! ## Events by types -/

section Scaling

variable {a b : CType} {op : BinOp}

theorem scaling_of_numbers (ha : a.isPointer = false) (hb : b.isPointer = false) (op : BinOp) :
    op.scaling a b = [] := by
  cases a with
  | pointer => cases ha
  | void | integral | floating | array | function =>
    cases b with
    | pointer => cases hb
    | void | integral | floating | array | function => cases op <;> rfl

theorem scaling_of_other (add : op ≠ .add) (sub : op ≠ .sub) (a b : CType) : op.scaling a b = [] := by
  cases op <;> first | rfl | exact absurd rfl add | exact absurd rfl sub

theorem scaling_one (a : CType) (op : BinOp) : op.scaling a (one a).type = op.scaling a .int := by
  cases a <;> cases op <;> rfl

theorem callees_scaling (op : BinOp) (a b : CType) : (op.scaling a b).filterMap Event.callee? = [] := by
  cases op <;> cases a <;> cases b <;> rfl

end Scaling

namespace Expr

variable {T : Scopes} {e : Expr} {type : CType}

theorem typeIn_of_typeOf (h : typeOf T e = .ok type) : e.typeIn T = type := by
  rw [typeIn, h]
  rfl

theorem valueType_of_typeOf (h : typeOf T e = .ok type) : e.valueType T = type.decay := by
  rw [valueType, typeIn_of_typeOf h]

theorem reading_of_typeOf (h : typeOf T e = .ok type) : e.reading T = if type.isVoid then [.read e] else [] := by
  rw [reading, typeIn_of_typeOf h]

theorem reading_of_solid (h : typeOf T e = .ok type) (solid : type.isVoid = false) : e.reading T = [] := by
  rw [reading_of_typeOf h, solid]
  rfl

theorem writing_of_solid (h : typeOf T e = .ok type) (solid : type.isVoid = false) : e.writing T = [] := by
  rw [writing, typeIn_of_typeOf h, solid]
  rfl

theorem callees_reading (T : Scopes) (e : Expr) : (e.reading T).filterMap Event.callee? = [] := by
  unfold reading
  split <;> rfl

theorem callees_writing (T : Scopes) (e : Expr) : (e.writing T).filterMap Event.callee? = [] := by
  unfold writing
  split <;> rfl

end Expr

/-! ## Operands -/

/-- An operand of an idle instruction. -/
structure Operand.Sound (N : Set Name) (o : Operand) : Prop where
  solid : o.isVoid = false
  within : o.Within N

section Sound

variable {N : Set Name} {o o' : Operand}

theorem sound_nameless (solid : o.isVoid = false) (nameless : o.name? = none) : o.Sound N :=
  ⟨solid, within_unnamed nameless⟩

theorem sound_one (h : o.Sound N) : ∀ x ∈ [o], x.Sound N := forall_mem_singleton.2 h

theorem sound_two (h : o.Sound N) (h' : o'.Sound N) : ∀ x ∈ [o, o'], x.Sound N :=
  forall_mem_cons.2 ⟨h, sound_one h'⟩

theorem sound_imm (enc : Encoding) (n : UInt64) : (Operand.imm enc n).Sound N := sound_nameless rfl rfl

theorem sound_label (l : Int32) : (Operand.label l).Sound N := sound_nameless rfl rfl

theorem sound_var {a : CType} (h : a.isVoid = false) (id : UInt32) : (Operand.var a.encoding id).Sound N :=
  sound_nameless (isVoid_var h id) rfl

end Sound

/-- Everything that is bound in a table can be declared: nothing has type `void`, and functions return plain
types. -/
def Scopes.Proper (t : Scopes) : Prop := ∀ e ∈ t.log, e.symbol.type.Declarable

namespace Lowering

variable {α β : Type} {s s' t : State} {T : Scopes} {es es' : List Event} {m : Lower α} {f : α → Lower β}
  {Q Q' : α → Prop} {R : β → Prop} {opcode : Opcode} {qualifier : Qualifier} {operands : List Operand}

/-! ## Steps that make code for events -/

/-- A change that adds well-typed instructions of a body only, and no `setret`. -/
abbrev TypedGrowth : State → State → Prop := Growth (Instr.InBody none) True

variable {allowed : Instr → Prop} {labels : Prop} {returned : Option CType} {N : Set Name} {v : Value} {e : Expr}

theorem names_of_growth (h : Relation.ReflTransGen (Growth allowed labels) s s') :
    s'.scopes = s.scopes ∧ s'.globals = s.globals ∧ s'.symbols = s.symbols := by
  induction h with
  | refl => exact ⟨rfl, rfl, rfl⟩
  | tail _ step ih => cases step <;> exact ih

theorem returnType_of_growth
    (h : Relation.ReflTransGen (Growth allowed labels) s s') : s'.returnType = s.returnType := by
  induction h with
  | refl => rfl
  | tail _ step ih => cases step <;> exact ih

/-- The code that is new in a state belongs into a function, refers to names, and carries out events. -/
def Shows (returned : Option CType) (N : Set Name) (es : List Event) (s s' : State) : Prop :=
  ∃ part, s'.code = part.reverse ++ s.code ∧ Enacted returned N es part

/-- A state grows by code for events, and by nothing but code, numbers and types. -/
structure Grown (N : Set Name) (es : List Event) (s s' : State) : Prop where
  steps : Relation.ReflTransGen TypedGrowth s s'
  code : Shows none N es s s'

/-- What a step does when it succeeds under a table of names, and what its result is like. -/
def Enacts (T : Scopes) (es : List Event) (m : Lower α) (Q : α → Prop) : Prop :=
  ∀ s a s', s.scopes = T → m s = .ok a s' → Grown T.offered es s s' ∧ Q a

theorem shows_nil (code : s'.code = s.code) : Shows returned N [] s s' := ⟨[], code, .nil⟩

theorem Shows.trans {returned : Option CType} {N : Set Name} (h : Shows returned N es s t)
    (h' : Shows returned N es' t s') : Shows returned N (es ++ es') s s' := by
  obtain ⟨part, code, enacted⟩ := h
  obtain ⟨part', code', enacted'⟩ := h'
  refine ⟨part ++ part', ?_, enacted.append enacted'⟩
  rw [code', code, reverse_append, append_assoc]

theorem Shows.mono {N' : Set Name} (h : Shows returned N es s s') (sub : N ⊆ N') : Shows returned N' es s s' := by
  obtain ⟨part, code, enacted⟩ := h
  exact ⟨part, code, enacted.mono sub⟩

theorem Shows.any (h : Shows none N es s s') (returned : Option CType) : Shows returned N es s s' := by
  obtain ⟨part, code, enacted⟩ := h
  exact ⟨part, code, enacted.any returned⟩

theorem shows_sym (code : s'.code = ⟨.sym, qualifier, operands⟩ :: s.code)
    (other : qualifier ≠ .function) (solid : ∀ o ∈ operands, o.isVoid = false) : Shows returned N [] s s' := by
  refine ⟨[_], code, .single ⟨trivial, ?_⟩ ?_ (carriesOut_idle ⟨rfl, rfl, solid⟩)⟩
  · rw [Instr.startsFunction, beq_eq_false_iff_ne.2 other, Bool.and_false]
  · rw [Instr.references_directive rfl]
    exact forall_mem_nil _

theorem Enacts.mono (h : Enacts T es m Q) (hQ : ∀ a, Q a → Q' a) : Enacts T es m Q' := fun s a s' hs run =>
  ⟨(h s a s' hs run).1, hQ a (h s a s' hs run).2⟩

theorem Enacts.congr (h : Enacts T es m Q) (same : ∀ a, Q a → es = es') : Enacts T es' m Q := by
  intro s a s' hs run
  obtain ⟨grown, ha⟩ := h s a s' hs run
  exact ⟨same a ha ▸ grown, ha⟩

theorem enacts_bind (hm : Enacts T es m Q) (hf : ∀ a, Q a → Enacts T es' (f a) R) :
    Enacts T (es ++ es') (m >>= f) R := by
  intro s b s' hs run
  obtain ⟨a, t, first, second⟩ := bind_eq_ok.1 run
  obtain ⟨here, ha⟩ := hm s a t hs first
  obtain ⟨there, hb⟩ := hf a ha t b s' ((names_of_growth here.steps).1.trans hs) second
  exact ⟨⟨here.steps.trans there.steps, here.code.trans there.code⟩, hb⟩

theorem enacts_skip (hm : Enacts T [] m Q) (hf : ∀ a, Q a → Enacts T es (f a) R) : Enacts T es (m >>= f) R :=
  enacts_bind hm hf

theorem enacts_last (hm : Enacts T es m Q) (hf : ∀ a, Q a → Enacts T [] (f a) R) : Enacts T es (m >>= f) R := by
  have both := enacts_bind hm hf
  rwa [append_nil] at both

theorem enacts_ite {c : Prop} [Decidable c] {m' : Lower α} (hm : c → Enacts T es m Q)
    (hm' : ¬ c → Enacts T es m' Q) : Enacts T es (if c then m else m') Q := by
  split
  · exact hm ‹_›
  · exact hm' ‹_›

theorem enacts_throw {e : LowerError} : Enacts T es (throw e : Lower α) Q := by
  rintro s a s' _ ⟨⟩

theorem enacts_silent (h : ∀ s a s', s.scopes = T → m s = .ok a s' →
    Relation.ReflTransGen TypedGrowth s s' ∧ s'.code = s.code ∧ Q a) : Enacts T [] m Q := by
  intro s a s' hs run
  obtain ⟨steps, code, ha⟩ := h s a s' hs run
  exact ⟨⟨steps, shows_nil code⟩, ha⟩

theorem enacts_pure {a : α} (h : Q a) : Enacts T [] (pure a) Q := by
  refine enacts_silent fun s b s' _ run => ?_
  obtain ⟨rfl, rfl⟩ := pure_eq_ok.1 run
  exact ⟨.refl, rfl, h⟩

theorem enacts_emit (typed : Instr.InBody none ⟨opcode, qualifier, operands⟩)
    (names : ∀ name ∈ Instr.references ⟨opcode, qualifier, operands⟩, name ∈ T.offered)
    (carriesOut : CarriesOut es [⟨opcode, qualifier, operands⟩]) :
    Enacts T es (emit opcode qualifier operands) fun _ => True := by
  intro s u s' _ run
  obtain ⟨bytes, encodes, rfl⟩ := emit_eq_ok.1 run
  exact ⟨⟨.single (.emit encodes typed), _, rfl, .single typed names carriesOut⟩, trivial⟩

theorem enacts_idle (typed : Instr.InBody none ⟨opcode, qualifier, operands⟩) (transfers : opcode.transfers = false)
    (factor : Instr.factor? ⟨opcode, qualifier, operands⟩ = none) (sound : ∀ o ∈ operands, o.Sound T.offered) :
    Enacts T [] (emit opcode qualifier operands) fun _ => True :=
  enacts_emit typed (Instr.references_within fun o mem => (sound o mem).within)
    (carriesOut_idle ⟨transfers, factor, fun o mem => (sound o mem).solid⟩)

theorem enacts_directive (typed : Instr.InBody none ⟨opcode, qualifier, operands⟩)
    (directive : Instr.isDirective ⟨opcode, qualifier, operands⟩ = true)
    (factor : Instr.factor? ⟨opcode, qualifier, operands⟩ = none) (solid : ∀ o ∈ operands, o.isVoid = false) :
    Enacts T [] (emit opcode qualifier operands) fun _ => True := by
  refine enacts_emit typed ?_ (carriesOut_idle ⟨?_, factor, solid⟩)
  · rw [Instr.references_directive directive]
    exact forall_mem_nil _
  · unfold Instr.isDirective at directive
    cases opcode <;> first | rfl | cases directive

theorem enacts_jump (label : Int32) : Enacts T [] (jump label) fun _ => True :=
  enacts_idle ⟨trivial, rfl⟩ rfl rfl (sound_one (sound_label label))

theorem enacts_branch (condition : Qualifier) (label : Int32) : Enacts T [] (branch condition label) fun _ => True :=
  enacts_idle ⟨trivial, rfl⟩ rfl rfl (sound_one (sound_label label))

theorem enacts_defineLabel (label : Int32) : Enacts T [] (defineLabel label) fun _ => True :=
  enacts_directive ⟨trivial, rfl⟩ rfl rfl (forall_mem_singleton.2 rfl)

theorem enacts_freshLabel : Enacts T [] freshLabel fun _ => True := by
  refine enacts_silent fun s label s' _ run => ?_
  obtain ⟨-, rfl⟩ := freshLabel_eq_ok.1 run
  exact ⟨.single (.freshLabel trivial), rfl, trivial⟩

theorem enacts_temporary (type : CType) : Enacts T [] (temporary type) fun o => ∃ id, o = .var type.encoding id := by
  refine enacts_silent fun s o s' _ run => ?_
  obtain ⟨rfl, rfl⟩ := temporary_eq_ok.1 run
  exact ⟨.single .freshVariable, rfl, _, rfl⟩

theorem enacts_noted (loc : Location) {Q : Value → Prop} (h : Q v) : Enacts T [] (noted loc v) Q := by
  refine enacts_silent fun s w s' _ run => ?_
  obtain ⟨rfl, rfl⟩ := noted_eq_ok.1 run
  exact ⟨.single (.noteType _ _), rfl, h⟩

theorem enacts_notePlace (loc : Location) {p : Place} {Q : Place → Prop} (h : Q p) :
    Enacts T [] (notePlace loc p) Q := by
  refine enacts_silent fun s q s' _ run => ?_
  obtain ⟨rfl, rfl⟩ := notePlace_eq_ok.1 run
  exact ⟨.single (.noteType _ _), rfl, h⟩

theorem enacts_requireScalar (v : Value) (operator : String) (loc : Location) :
    Enacts T [] (requireScalar v operator loc) fun _ => v.type.isScalar = true :=
  enacts_ite (fun scalar => enacts_pure scalar) fun _ => enacts_throw

theorem enacts_requireModifiable (p : Place) (loc : Location) :
    Enacts T [] (requireModifiable p loc) fun _ => p.type.Plain := by
  refine enacts_ite (fun _ => enacts_throw) fun h => enacts_pure ?_
  simp only [Bool.or_eq_true, not_or, Bool.not_eq_true] at h
  exact ⟨h.1, h.2⟩

theorem enacts_inferred (e : Expr) : Enacts T [] (inferred e) fun type => typeOf T e = .ok type := by
  refine enacts_silent fun s type s' hs run => ?_
  obtain ⟨found, rfl⟩ := inferred_eq_ok.1 run
  exact ⟨.refl, rfl, hs ▸ found⟩

/-! ## Values and places -/

/-- A value of a type: its operand is annotated with it, and it is the type of a result. -/
structure Value.HasType (v : Value) (t : CType) : Prop where
  type : v.type = t
  encoding : v.operand.encoding = t.encoding
  plain : t.Plain

abbrev Value.Fits (v : Value) : Prop := v.HasType v.type

def Value.Stored (v : Value) : Prop := ∃ id, v.operand = .var v.type.encoding id

/-- A value of a type as it is made: it is in a variable, or there is none. -/
structure Value.Made (v : Value) (a : CType) : Prop where
  typed : v.HasType a
  kept : v.Stored ∨ v = .void

/-- What is found where an expression denotes something: a name does not stand for an object of type `void`, and
memory at an address that a variable holds is of type `void` only if the expression is an element. -/
def Place.Found (T : Scopes) (e : Expr) : Place → Prop
  | .storage operand type => type.isVoid = false ∧
    ((∃ id, operand = .var type.encoding id) ∨ ∃ name ∈ T.offered, operand = .symbol type.encoding.tag name)
  | .memory address type => (∃ id, address = .var .ptr id) ∧ (type.isVoid = true → e.isIndex = true)

section Operations

variable {v w : Value} {a b : CType} {p : Place} {e : Expr}

theorem plain_of_isScalar (h : a.isScalar = true) : a.Plain := by
  cases a <;> first | exact ⟨rfl, rfl⟩ | cases h

theorem isScalar_of_isArithmetic (h : a.isArithmetic = true) : a.isScalar = true := by simp [CType.isScalar, h]

theorem isScalar_of_isPointer (h : a.isPointer = true) : a.isScalar = true := by simp [CType.isScalar, h]

theorem decay_plain (h : a.Plain) : a.decay = a := by
  obtain ⟨array, function⟩ := h
  cases a <;> simp_all [CType.decay, CType.isArray, CType.isFunction]

theorem Value.HasType.fits (h : v.HasType a) : v.Fits := by
  obtain ⟨rfl, encoding, plain⟩ := h
  exact ⟨rfl, encoding, plain⟩

theorem Value.HasType.sound {N : Set Name} (h : v.HasType a) (scalar : a.isScalar = true) : v.operand.Sound N :=
  sound_nameless (isVoid_of_encoding h.encoding (notVoid_of_isScalar scalar)) (name?_of_encoding h.encoding scalar)

theorem made_var (plain : a.Plain) (id : UInt32) : Value.Made ⟨.var a.encoding id, a⟩ a :=
  ⟨⟨rfl, rfl, plain⟩, .inl ⟨id, rfl⟩⟩

theorem made_void : Value.void.Made .void := ⟨⟨rfl, rfl, rfl, rfl⟩, .inr rfl⟩

theorem Value.Made.stored (h : v.Made a) (scalar : a.isScalar = true) : v.Stored := by
  rcases h.kept with stored | rfl
  · exact stored
  · obtain rfl : CType.void = a := h.typed.type
    cases scalar

theorem Value.Made.decayed (h : v.Made a) : v.Made a.decay := (decay_plain h.typed.plain).symm ▸ h

theorem enacts_compute (plain : a.Plain)
    (typed : ∀ id, Instr.InBody none ⟨opcode, qualifier, .var a.encoding id :: operands⟩)
    (within : ∀ o ∈ operands, o.Within T.offered)
    (carriesOut : ∀ id, CarriesOut es [⟨opcode, qualifier, .var a.encoding id :: operands⟩]) :
    Enacts T es (compute opcode qualifier a operands) (·.Made a) := by
  refine enacts_skip (enacts_temporary a) fun o ho => ?_
  obtain ⟨id, rfl⟩ := ho
  refine enacts_last (enacts_emit (typed id) (Instr.references_within ?_) (carriesOut id)) fun _ _ => ?_
  · exact within_cons (within_unnamed rfl) within
  · exact enacts_pure (made_var plain id)

theorem enacts_operation (plain : a.Plain) (solid : a.isVoid = false)
    (typed : ∀ id, Instr.InBody none ⟨opcode, qualifier, .var a.encoding id :: operands⟩)
    (transfers : opcode.transfers = false)
    (factor : ∀ id, Instr.factor? ⟨opcode, qualifier, .var a.encoding id :: operands⟩ = none)
    (sound : ∀ o ∈ operands, o.Sound T.offered) : Enacts T [] (compute opcode qualifier a operands) (·.Made a) :=
  enacts_compute plain typed (fun o mem => (sound o mem).within) fun id => carriesOut_idle
    ⟨transfers, factor id, forall_mem_cons.2 ⟨isVoid_var solid id, fun o mem => (sound o mem).solid⟩⟩

theorem enacts_constant (bits : UInt64) (plain : a.Plain) (solid : a.isVoid = false) :
    Enacts T [] (constant a bits) (·.Made a) :=
  enacts_operation plain solid (fun _ => ⟨⟨rfl, fun _ _ => rfl⟩, rfl⟩) rfl (fun _ => rfl) (sound_one (sound_imm _ _))

theorem enacts_stringConstant (bytes : Bytes) : Enacts T [] (stringConstant bytes) (·.Made (.pointer .char)) := by
  refine enacts_skip enacts_freshLabel fun label _ => ?_
  refine enacts_skip (enacts_directive ⟨trivial, rfl⟩ rfl rfl ?_) fun _ _ => ?_
  · exact forall_mem_cons.2 ⟨rfl, forall_mem_singleton.2 rfl⟩
  · exact enacts_operation (CType.plain_pointer _) rfl (fun _ => ⟨rfl, rfl⟩) rfl (fun _ => rfl)
      (sound_one (sound_label label))

variable {target type : CType} {operand : Operand} {op : BinOp} {args : List Operand}

/-- An instruction converts only between different encodings.  What is in a variable stays in one. -/
theorem enacts_convert (hv : v.HasType a) (scalar : a.isScalar = true) (scalarTarget : target.isScalar = true) :
    Enacts T [] (convert v target) fun w => w.HasType target ∧ (v.Stored → w.Stored) := by
  have plain := plain_of_isScalar scalarTarget
  have sound := hv.sound (N := T.offered) scalar
  obtain ⟨rfl, encoding, _⟩ := hv
  refine enacts_ite (fun same => enacts_pure ⟨⟨same, same ▸ encoding, plain⟩, fun h => h⟩) fun _ =>
    enacts_ite (fun same => enacts_pure ⟨⟨rfl, encoding.trans same, plain⟩, ?_⟩) fun differs => ?_
  · rintro ⟨id, stored⟩
    exact ⟨id, same ▸ stored⟩
  · refine (enacts_operation plain (notVoid_of_isScalar scalarTarget) (fun id => ⟨?_, rfl⟩) rfl (fun _ => rfl)
      (sound_one sound)).mono fun w hw => ⟨hw.typed, fun _ => hw.stored scalarTarget⟩
    show target.encoding ≠ v.operand.encoding
    rw [encoding]
    exact fun same => differs same.symm

theorem enacts_convertMade (hv : v.Made a) (scalar : a.isScalar = true)
    (scalarTarget : target.isScalar = true) : Enacts T [] (convert v target) (·.Made target) :=
  (enacts_convert hv.typed scalar scalarTarget).mono fun _ hw => ⟨hw.1, .inl (hw.2 (hv.stored scalar))⟩

theorem enacts_convertAssigned (hv : v.Made a) (target : CType) (loc : Location) :
    Enacts T [] (convertAssigned v target loc) fun w => w.Made target ∧ target.isScalar = true := by
  refine enacts_ite (fun ok => ?_) fun _ => enacts_throw
  simp only [assignable, Bool.and_eq_true] at ok
  obtain ⟨⟨scalarTarget, scalar⟩, -⟩ := ok
  exact (enacts_convertMade hv (hv.typed.type ▸ scalar) scalarTarget).mono fun w hw => ⟨hw, scalarTarget⟩

theorem enacts_setVariable (hv : v.HasType a) (scalar : a.isScalar = true) (id : UInt32) :
    Enacts T [] (emit .mov .none [.var a.encoding id, v.operand]) fun _ => True := by
  refine enacts_idle ⟨⟨?_, fun _ _ => hv.encoding.symm⟩, rfl⟩ rfl rfl ?_
  · exact congrArg Encoding.tag hv.encoding.symm
  · exact sound_two (sound_var (notVoid_of_isScalar scalar) id) (hv.sound scalar)

/-! ## Places -/

theorem Place.Found.sound (h : (Place.storage operand a).Found T e) : operand.Sound T.offered := by
  rcases h.2 with ⟨id, rfl⟩ | ⟨name, offered, rfl⟩
  · exact sound_var h.1 id
  · refine ⟨rfl, fun name' mem => ?_⟩
    cases mem
    exact offered

theorem Place.Found.agrees {o : Operand} (h : (Place.storage operand a).Found T e)
    (encoding : o.encoding = a.encoding) : operand.Agrees o := by
  have tags : a.encoding.tag = o.encoding.tag := congrArg Encoding.tag encoding.symm
  rcases h.2 with ⟨id, rfl⟩ | ⟨name, -, rfl⟩
  · exact ⟨tags, fun _ _ => encoding.symm⟩
  · exact ⟨tags, fun other => absurd rfl other⟩

/-- What is read from a place has the decayed type of the place.  Only an element can be of type `void`. -/
theorem enacts_readPlace (h : p.Found T e) :
    Enacts T (if p.type.isVoid then [.read e] else []) (readPlace p) (·.Made p.type.decay) := by
  have plain : ∀ type : CType, ¬ (type.isArray || type.isFunction) = true → type.Plain := by
    intro type h
    simp only [Bool.or_eq_true, not_or, Bool.not_eq_true] at h
    exact ⟨h.1, h.2⟩
  have address : ∀ type : CType, (type.isArray || type.isFunction) = true →
      type.isVoid = false ∧ type.decay.isVoid = false ∧ type.decay.encoding = .ptr := by
    intro type h
    cases type <;> first | exact ⟨rfl, rfl, rfl⟩ | cases h
  have nothing : ∀ {type : CType}, type.isVoid = false → (if type.isVoid then [Event.read e] else []) = [] := by
    intro type solid
    rw [solid]
    rfl
  cases p with
  | storage operand type =>
    rw [show (Place.storage operand type).type = type from rfl, nothing h.1]
    refine enacts_ite (fun decays => ?_) fun stays => ?_
    · exact enacts_operation type.plain_decay (address type decays).2.1 (fun _ => ⟨(address type decays).2.2, rfl⟩) rfl
        (fun _ => rfl) (sound_one h.sound)
    · rw [decay_plain (plain type stays)]
      refine enacts_operation (plain type stays) h.1 (fun id => ⟨?_, rfl⟩) rfl (fun _ => rfl) (sound_one h.sound)
      obtain ⟨tags, widths⟩ := h.agrees (o := .var type.encoding id) rfl
      exact ⟨tags.symm, fun h h' => (widths h' h).symm⟩
  | memory pointer type =>
    obtain ⟨⟨id, rfl⟩, element⟩ := h
    rw [show (Place.memory (.var .ptr id) type).type = type from rfl]
    refine enacts_ite (fun decays => ?_) fun stays => ?_
    · obtain ⟨solid, -, encoding⟩ := address type decays
      rw [nothing solid, ← encoding]
      exact enacts_pure (made_var type.plain_decay id)
    · rw [decay_plain (plain type stays)]
      refine enacts_compute (plain type stays) (fun _ => ⟨rfl, rfl⟩) (within_one rfl) fun id' => ?_
      cases type with
      | void => exact carriesOut_event ⟨element rfl, id', id, rfl⟩
      | integral | floating | pointer | array | function =>
        refine carriesOut_idle ⟨rfl, rfl, forall_mem_cons.2 ⟨isVoid_var rfl id', ?_⟩⟩
        exact forall_mem_singleton.2 rfl

theorem enacts_writePlace (h : p.Found T e) (hv : v.HasType p.type) (scalar : p.type.isScalar = true) :
    Enacts T [] (writePlace p v.operand) fun _ => True := by
  cases p with
  | storage operand type =>
    exact enacts_idle ⟨h.agrees hv.encoding, rfl⟩ rfl rfl (sound_two h.sound (hv.sound scalar))
  | memory address type =>
    obtain ⟨⟨id, rfl⟩, -⟩ := h
    exact enacts_idle ⟨rfl, rfl⟩ rfl rfl (sound_two (sound_nameless rfl rfl) (hv.sound scalar))

theorem enacts_addressOf (h : p.Found T e) : Enacts T [] (addressOf p) (·.Made (.pointer p.type)) := by
  cases p with
  | storage operand type =>
    exact enacts_operation (CType.plain_pointer _) rfl (fun _ => ⟨rfl, rfl⟩) rfl (fun _ => rfl) (sound_one h.sound)
  | memory address type =>
    obtain ⟨⟨id, rfl⟩, -⟩ := h
    exact enacts_pure (made_var (CType.plain_pointer type) id)

/-! ## Operators -/

theorem enacts_offsetPointer (hv : v.HasType (.pointer target)) (hw : w.HasType b)
    (integral : b.isIntegral = true) {opcode : Opcode} (h : opcode = .add ∨ opcode = .sub) :
    Enacts T [.offset target] (offsetPointer v w opcode) (·.Made (.pointer target)) := by
  have scalar : b.isScalar = true := isScalar_of_isArithmetic (by simp [CType.isArithmetic, integral])
  refine enacts_skip (enacts_convert hw scalar rfl) fun index hindex => ?_
  rw [hv.type]
  refine enacts_last (enacts_compute ⟨rfl, rfl⟩ (fun _ => ⟨⟨hindex.1.encoding.symm, hindex.1.encoding⟩, rfl⟩) ?_
    fun id => carriesOut_event ⟨id, _, hindex.1.encoding, rfl⟩) fun scaled hscaled => ?_
  · exact within_two (name?_of_encoding hindex.1.encoding rfl) rfl
  have sound := sound_two (N := T.offered) (hv.sound rfl) (hscaled.typed.sound rfl)
  have offset : ∀ id, (Operand.var (CType.pointer target).encoding id).Encoded v.operand scaled.operand
      .ptr .ptr .i64 := fun _ => ⟨rfl, hv.encoding, hscaled.typed.encoding⟩
  rcases h with rfl | rfl
  · exact enacts_operation (CType.plain_pointer target) rfl (fun id => ⟨.inr (offset id), rfl⟩) rfl (fun _ => rfl) sound
  · exact enacts_operation (CType.plain_pointer target) rfl (fun id => ⟨.inr (.inl (offset id)), rfl⟩) rfl
      (fun _ => rfl) sound

theorem enacts_pointerDifference (hv : v.HasType (.pointer target)) (hw : w.HasType b)
    (pointer : b.isPointer = true) : Enacts T [.distance target] (pointerDifference v w) (·.Made .long) := by
  have right : w.operand.encoding = .ptr := hw.encoding.trans (by cases b <;> first | rfl | cases pointer)
  refine enacts_skip (enacts_operation ⟨rfl, rfl⟩ rfl
    (fun _ => ⟨.inr (.inr ⟨rfl, hv.encoding, right⟩), rfl⟩) rfl (fun _ => rfl)
    (sound_two (hv.sound rfl) (hw.sound (isScalar_of_isPointer pointer)))) fun bytes hbytes => ?_
  rw [hv.type]
  refine enacts_compute ⟨rfl, rfl⟩ (fun _ => ⟨⟨hbytes.typed.encoding.symm, hbytes.typed.encoding⟩, rfl⟩) ?_
    fun id => carriesOut_event ⟨id, _, hbytes.typed.encoding, rfl⟩
  exact within_two (name?_of_encoding hbytes.typed.encoding rfl) rfl

theorem promote_isArithmetic (h : a.isArithmetic = true) : a.promote.isArithmetic = true := by
  cases a with
  | integral width signed => cases width <;> rfl
  | floating width => rfl
  | void | pointer | array | function => cases h

theorem common_isArithmetic (ha : a.isArithmetic = true) (hb : b.isArithmetic = true) :
    (a.common b).isArithmetic = true := by
  have pa := promote_isArithmetic ha
  have pb := promote_isArithmetic hb
  unfold CType.common
  simp only
  repeat' split
  all_goals assumption

theorem resultType?_eq_some (h : resultType? op a b = some type) :
    (a.isArithmetic = true ∧ b.isArithmetic = true) ∧ (if isShift op then a.promote else a.common b) = type := by
  have arithmetic : ∀ {t : CType}, t.isIntegral = true → t.isArithmetic = true := by
    intro t ht
    simp [CType.isArithmetic, ht]
  unfold resultType? at h
  cases integers : integersOnly op <;> cases shift : isShift op <;>
    simp only [integers, shift, Bool.not_eq_true', Option.ite_none_left_eq_some, Option.some.injEq,
      Bool.not_eq_false, Bool.and_eq_true, if_true, if_false, Bool.false_eq_true] at h ⊢
  · exact h
  · exact h
  · exact ⟨⟨arithmetic h.1.1, arithmetic h.1.2⟩, h.2⟩
  · exact ⟨⟨arithmetic h.1.1, arithmetic h.1.2⟩, h.2⟩

theorem resultType?_isArithmetic (h : resultType? op a b = some type) : type.isArithmetic = true := by
  obtain ⟨⟨ha, hb⟩, rfl⟩ := resultType?_eq_some h
  split
  · exact promote_isArithmetic ha
  · exact common_isArithmetic ha hb

/-- The operation of an operator on numbers takes what the operator's type says, and it is idle if a product is not
one with a constant. -/
theorem numeric_ok (qualifier : Qualifier) {d l r : Operand} (found : opcode? op = some opcode)
    (left : d.encoding = l.encoding) (right : isShift op = false → l.encoding = r.encoding)
    (var : op = .mul ∨ op = .div → ∃ enc id, r = .var enc id) :
    Instr.InBody none ⟨opcode, qualifier, [d, l, r]⟩ ∧ opcode.transfers = false ∧
      Instr.factor? ⟨opcode, qualifier, [d, l, r]⟩ = none := by
  cases op <;> cases found
  case add => exact ⟨⟨.inl ⟨left, right rfl⟩, rfl⟩, rfl, rfl⟩
  case sub => exact ⟨⟨.inl ⟨left, right rfl⟩, rfl⟩, rfl, rfl⟩
  case mul =>
    obtain ⟨enc, id, rfl⟩ := var (.inl rfl)
    exact ⟨⟨⟨left, right rfl⟩, rfl⟩, rfl, rfl⟩
  case div =>
    obtain ⟨enc, id, rfl⟩ := var (.inr rfl)
    exact ⟨⟨⟨left, right rfl⟩, rfl⟩, rfl, rfl⟩
  case shl => exact ⟨⟨left, rfl⟩, rfl, rfl⟩
  case shr => exact ⟨⟨left, rfl⟩, rfl, rfl⟩
  all_goals exact ⟨⟨⟨left, right rfl⟩, rfl⟩, rfl, rfl⟩

theorem enacts_convertRight (op : BinOp) (hw : w.HasType b) (scalar : b.isScalar = true)
    (scalarType : type.isScalar = true) :
    Enacts T [] (convertRight op w type) fun r => r.operand.Sound T.offered ∧ (w.Stored → r.Stored) ∧
      (isShift op = false → r.operand.encoding = type.encoding) := by
  refine enacts_ite (fun shift => enacts_pure ⟨hw.sound scalar, fun h => h, fun other => ?_⟩) fun _ => ?_
  · rw [shift] at other
    cases other
  · exact (enacts_convert hw scalar scalarType).mono fun r hr =>
      ⟨hr.1.sound scalarType, hr.2, fun _ => hr.1.encoding⟩

theorem enacts_numeric (hv : v.HasType a) (hw : w.HasType b) (op : BinOp)
    (var : b.isScalar = true → op = .mul ∨ op = .div → w.Stored) (loc : Location) :
    Enacts T [] (numeric op v w loc) fun r => ∃ c, resultType? op a b = some c ∧ r.Made c := by
  unfold numeric
  rw [hv.type, hw.type]
  cases found : resultType? op a b with
  | none => exact enacts_throw
  | some type =>
    obtain ⟨⟨ha, hb⟩, -⟩ := resultType?_eq_some found
    have result := isScalar_of_isArithmetic (resultType?_isArithmetic found)
    refine enacts_skip (enacts_convert hv (isScalar_of_isArithmetic ha) result) fun left hleft => ?_
    refine enacts_skip (enacts_convertRight op hw (isScalar_of_isArithmetic hb) result) fun right hright => ?_
    obtain ⟨sound, stored, encoding⟩ := hright
    cases code : opcode? op with
    | none => exact enacts_throw
    | some opcode =>
      have ok := fun id => numeric_ok (.signedness type.isUnsigned) (d := .var type.encoding id) code
        hleft.1.encoding.symm (fun same => hleft.1.encoding.trans (encoding same).symm)
        fun h => ⟨_, stored (var (isScalar_of_isArithmetic hb) h)⟩
      exact (enacts_operation (plain_of_isScalar result) (notVoid_of_isScalar result) (fun id => (ok id).1)
        (ok 0).2.1 (fun id => (ok id).2.2) (sound_two (hleft.1.sound result) sound)).mono fun r hr => ⟨type, rfl, hr⟩

theorem enacts_arithmetic (hv : v.HasType a) (hw : w.HasType b) (op : BinOp)
    (var : b.isScalar = true → op = .mul ∨ op = .div → w.Stored) (loc : Location) :
    Enacts T (op.scaling a b) (arithmetic op v w loc) fun r => ∃ c, binaryType op a b loc = .ok c ∧ r.Made c := by
  unfold arithmetic
  rw [hv.type, hw.type]
  refine enacts_ite (fun h => ?_) fun _ => enacts_ite (fun h => ?_) fun _ =>
    enacts_ite (fun h => ?_) fun _ => enacts_ite (fun h => ?_) fun _ =>
    enacts_ite (fun _ => enacts_throw) fun h => ?_
  · simp only [Bool.and_eq_true, decide_eq_true_eq] at h
    obtain ⟨⟨rfl, pointer⟩, integral⟩ := h
    cases a <;> cases pointer
    cases b <;> cases integral
    exact (enacts_offsetPointer hv hw rfl (.inl rfl)).mono fun r hr => ⟨_, rfl, hr⟩
  · simp only [Bool.and_eq_true, decide_eq_true_eq] at h
    obtain ⟨⟨rfl, integral⟩, pointer⟩ := h
    cases a <;> cases integral
    cases b <;> cases pointer
    exact (enacts_offsetPointer hw hv rfl (.inl rfl)).mono fun r hr => ⟨_, rfl, hr⟩
  · simp only [Bool.and_eq_true, decide_eq_true_eq] at h
    obtain ⟨⟨rfl, pointer⟩, integral⟩ := h
    cases a <;> cases pointer
    cases b <;> cases integral
    exact (enacts_offsetPointer hv hw rfl (.inr rfl)).mono fun r hr => ⟨_, rfl, hr⟩
  · simp only [Bool.and_eq_true, decide_eq_true_eq] at h
    obtain ⟨⟨rfl, left⟩, right⟩ := h
    cases a <;> cases left
    cases b <;> cases right
    exact (enacts_pointerDifference hv hw rfl).mono fun r hr => ⟨_, rfl, hr⟩
  · simp only [Bool.or_eq_true, not_or, Bool.not_eq_true] at h
    obtain ⟨left, right⟩ := h
    rw [scaling_of_numbers left right]
    refine (enacts_numeric hv hw op var loc).mono fun r hr => ?_
    obtain ⟨c, found, hr⟩ := hr
    refine ⟨c, ?_, hr⟩
    by_cases shift : isShift op = true
    · have promoted := (resultType?_eq_some found).2
      simp_all [binaryType]
    · simp [binaryType, left, right, shift, found]

theorem enacts_setBit {id : UInt32} (n : UInt64) :
    Enacts T [] (emit .mov .none [.var CType.int.encoding id, intConstant n]) fun _ => True :=
  enacts_idle ⟨⟨rfl, fun _ _ => rfl⟩, rfl⟩ rfl rfl (sound_two (sound_var rfl id) (sound_imm _ _))

theorem enacts_logicalResult (short full : UInt64) (shortLabel endLabel : Int32) :
    Enacts T [] (logicalResult short full shortLabel endLabel) (·.Made .int) := by
  refine enacts_skip (enacts_temporary .int) fun target htarget => ?_
  obtain ⟨id, rfl⟩ := htarget
  refine enacts_skip (enacts_setBit full) fun _ _ => enacts_skip (enacts_jump _) fun _ _ => ?_
  refine enacts_skip (enacts_defineLabel _) fun _ _ => enacts_skip (enacts_setBit short) fun _ _ => ?_
  exact enacts_skip (enacts_defineLabel _) fun _ _ => enacts_pure (made_var ⟨rfl, rfl⟩ id)

theorem enacts_truthOf {left right : Operand} (same : left.encoding = right.encoding)
    (hl : left.Sound T.offered) (hr : right.Sound T.offered) (signedness condition : Qualifier) :
    Enacts T [] (truthOf left right signedness condition) (·.Made .int) := by
  refine enacts_skip enacts_freshLabel fun onFalse _ => enacts_skip enacts_freshLabel fun done _ => ?_
  refine enacts_skip (enacts_idle ⟨same, rfl⟩ rfl rfl (sound_two hl hr)) fun _ _ => ?_
  exact enacts_skip (enacts_branch _ _) fun _ _ => enacts_logicalResult 0 1 onFalse done

theorem enacts_comparable (hv : v.HasType a) (hw : w.HasType b) (op : BinOp) (loc : Location) :
    Enacts T [] (comparable op v w loc) fun pair => pair.1.operand.encoding = pair.2.operand.encoding ∧
      pair.1.operand.Sound T.offered ∧ pair.2.operand.Sound T.offered := by
  have ptr : ∀ {c : CType}, c.isPointer = true → c.encoding = .ptr := by
    intro c hc
    cases c <;> first | rfl | cases hc
  unfold comparable
  rw [hv.type, hw.type]
  refine enacts_ite (fun h => ?_) fun _ => enacts_ite (fun h => ?_) fun _ =>
    enacts_ite (fun h => ?_) fun _ => enacts_ite (fun h => ?_) fun _ => enacts_throw
  · simp only [Bool.and_eq_true] at h
    have common := isScalar_of_isArithmetic (common_isArithmetic h.1 h.2)
    refine enacts_skip (enacts_convert hv (isScalar_of_isArithmetic h.1) common) fun left hleft => ?_
    refine enacts_skip (enacts_convert hw (isScalar_of_isArithmetic h.2) common) fun right hright => ?_
    exact enacts_pure ⟨hleft.1.encoding.trans hright.1.encoding.symm, hleft.1.sound common, hright.1.sound common⟩
  · simp only [Bool.and_eq_true] at h
    refine enacts_pure ⟨?_, hv.sound (isScalar_of_isPointer h.1), hw.sound (isScalar_of_isPointer h.2)⟩
    rw [hv.encoding, hw.encoding, ptr h.1, ptr h.2]
  · simp only [Bool.and_eq_true] at h
    have left := isScalar_of_isPointer h.1
    have right : b.isScalar = true := isScalar_of_isArithmetic (by simp [CType.isArithmetic, h.2])
    refine enacts_skip (enacts_convert hw right left) fun r hr => enacts_pure ?_
    exact ⟨hv.encoding.trans hr.1.encoding.symm, hv.sound left, hr.1.sound left⟩
  · simp only [Bool.and_eq_true] at h
    have right := isScalar_of_isPointer h.2
    have left : a.isScalar = true := isScalar_of_isArithmetic (by simp [CType.isArithmetic, h.1])
    refine enacts_skip (enacts_convert hv left right) fun l hl => enacts_pure ?_
    exact ⟨hl.1.encoding.trans hw.encoding.symm, hl.1.sound right, hw.sound right⟩

theorem enacts_comparison (hv : v.HasType a) (hw : w.HasType b) (op : BinOp) (loc : Location) :
    Enacts T [] (comparison op v w loc) (·.Made .int) :=
  enacts_skip (enacts_comparable hv hw op loc) fun _ h => enacts_truthOf h.1 h.2.1 h.2.2 _ _

theorem zeroLike_encoding (hv : v.HasType a) : v.operand.encoding = (zeroLike v).encoding := by
  rw [hv.encoding, ← hv.type]
  rfl

theorem enacts_compareZero (hv : v.HasType a) (scalar : v.type.isScalar = true) :
    Enacts T [] (compareZero v) fun _ => True :=
  enacts_idle ⟨zeroLike_encoding hv, rfl⟩ rfl rfl (sound_two (hv.sound (hv.type ▸ scalar)) (sound_imm _ _))

theorem enacts_isZero (hv : v.HasType a) (scalar : v.type.isScalar = true) : Enacts T [] (isZero v) (·.Made .int) :=
  enacts_truthOf (zeroLike_encoding hv) (hv.sound (hv.type ▸ scalar)) (sound_imm _ _) _ _

theorem enacts_signed (hv : v.Made a) (op : UnOp) (loc : Location) :
    Enacts T [] (signed op v loc) (·.Made a.promote) := by
  unfold signed
  rw [hv.typed.type]
  refine enacts_ite (fun _ => enacts_throw) fun h => ?_
  have arithmetic : a.isArithmetic = true := by
    simp only [Bool.not_eq_true', Bool.not_eq_false] at h
    split at h
    · simp [CType.isArithmetic, h]
    · exact h
  have promoted := isScalar_of_isArithmetic (promote_isArithmetic arithmetic)
  refine enacts_skip (enacts_convertMade hv (isScalar_of_isArithmetic arithmetic) promoted) fun w hw => ?_
  refine enacts_ite (fun _ => enacts_pure hw) fun _ => ?_
  have sound := sound_one (N := T.offered) (hw.typed.sound promoted)
  split
  · exact enacts_operation hw.typed.plain (notVoid_of_isScalar promoted)
      (fun _ => ⟨hw.typed.encoding.symm, rfl⟩) rfl (fun _ => rfl) sound
  · exact enacts_operation hw.typed.plain (notVoid_of_isScalar promoted)
      (fun _ => ⟨hw.typed.encoding.symm, rfl⟩) rfl (fun _ => rfl) sound

theorem one_fits (type : CType) : (one type).Fits := by
  unfold one
  split <;> exact ⟨rfl, rfl, rfl, rfl⟩

theorem isScalar_of_binaryType {loc : Location} {c : CType} (h : binaryType op a b loc = .ok c)
    (ha : a.isScalar = true) (hb : b.isScalar = true) : c.isScalar = true := by
  unfold binaryType at h
  split at h
  · cases h
    rfl
  split at h
  · cases h
    exact ha
  split at h
  · cases h
    exact hb
  split at h
  · cases h
    cases a with
    | integral width signed => cases width <;> rfl
    | floating | pointer => rfl
    | void | array | function => cases ha
  cases found : resultType? op a b with
  | none =>
    rw [found] at h
    cases h
  | some type =>
    rw [found] at h
    cases h
    exact isScalar_of_isArithmetic (resultType?_isArithmetic found)

theorem enacts_stepPlace (h : p.Found T e) (step : Step) (fixity : Fixity) (loc : Location) :
    Enacts T ((stepOp step).scaling p.type .int) (stepPlace step fixity p loc) fun v =>
      v.Made p.type ∧ p.type.isScalar = true := by
  refine enacts_skip (enacts_requireModifiable p loc) fun _ plain => ?_
  intro s v s' hs run
  obtain ⟨old, t, readRun, rest⟩ := bind_eq_ok.1 run
  have scalar : p.type.isScalar = true := by
    obtain ⟨_, _, required, -⟩ := bind_eq_ok.1 rest
    have made := (enacts_readPlace h s old t hs readRun).2
    rw [decay_plain plain] at made
    exact made.typed.type ▸ (requireScalar_eq_ok.1 required).1
  have reading := enacts_readPlace h
  rw [decay_plain plain, if_neg (by rw [notVoid_of_isScalar scalar]; exact Bool.false_ne_true)] at reading
  refine (?_ : Enacts T _ _ fun v => v.Made p.type ∧ p.type.isScalar = true) s v s' hs run
  refine enacts_skip reading fun old hold => enacts_skip (enacts_requireScalar _ _ _) fun _ _ => ?_
  rw [← scaling_one]
  have factor : (one p.type).type.isScalar = true → stepOp step = .mul ∨ stepOp step = .div → (one p.type).Stored := by
    cases step <;> rintro - (⟨⟨⟩⟩ | ⟨⟨⟩⟩)
  refine enacts_last (enacts_arithmetic hold.typed (one_fits p.type) _ factor loc) fun new hnew => ?_
  obtain ⟨c, found, hnew⟩ := hnew
  have hone : (one p.type).type.isScalar = true := by
    unfold one
    split <;> rfl
  have hc := isScalar_of_binaryType found scalar hone
  refine enacts_skip (enacts_convertMade hnew hc scalar) fun new hnew => ?_
  refine enacts_skip (enacts_writePlace h hnew.typed scalar) fun _ _ => ?_
  cases fixity with
  | pre => exact enacts_pure ⟨hnew, scalar⟩
  | post => exact enacts_pure ⟨hold, scalar⟩

theorem enacts_castValue (hv : v.Made a) (target : CType) (loc : Location) :
    Enacts T [] (castValue v target loc) (·.Made target) := by
  refine enacts_ite (fun isVoid => ?_) fun _ => enacts_ite (fun h => ?_) fun _ => enacts_throw
  · obtain rfl : target = .void := by cases target <;> first | rfl | cases isVoid
    exact enacts_pure made_void
  · simp only [Bool.and_eq_true] at h
    exact enacts_convertMade hv (hv.typed.type ▸ h.2) h.1

/-! ## Parts of expressions -/

theorem eq_pointer (h : a.Plain) (found : a.pointee? = some target) : a = .pointer target := by
  cases a with
  | pointer => exact congrArg CType.pointer (Option.some.inj found)
  | array => cases h.1
  | void | integral | floating | function => cases found

theorem Value.Made.address (h : v.Made (.pointer target)) : ∃ id, v.operand = .var .ptr id := by
  obtain ⟨id, stored⟩ := h.stored rfl
  rw [h.typed.type] at stored
  exact ⟨id, stored⟩

theorem enacts_pointedPlace (hv : v.Made a) (loc : Location) :
    Enacts T [] (pointedPlace loc v) fun p => p.Found T e ∧ a.pointee? = some p.type := by
  unfold pointedPlace
  rw [hv.typed.type]
  cases found : a.pointee? with
  | none => exact enacts_throw
  | some type =>
    obtain rfl := eq_pointer hv.typed.plain found
    refine enacts_ite (fun _ => enacts_throw) fun solid => enacts_notePlace loc ⟨⟨hv.address, ?_⟩, rfl⟩
    exact fun void => absurd void solid

theorem enacts_elementAt (hv : v.Made (.pointer target)) (hw : w.Made b)
    (integral : b.isIntegral = true) (element : e.isIndex = true) (loc : Location) :
    Enacts T [.offset target] (do
      let address ← offsetPointer v w .add
      notePlace loc (.memory address.operand target)) fun p => p.Found T e ∧ p.type = target := by
  refine enacts_last (enacts_offsetPointer hv.typed hw.typed integral (.inl rfl)) fun address haddress => ?_
  exact enacts_notePlace loc ⟨⟨haddress.address, fun _ => element⟩, rfl⟩

theorem enacts_elementPlace (hv : v.Made a) (hw : w.Made b) (element : e.isIndex = true) (loc : Location) :
    Enacts T (BinOp.add.scaling a b) (elementPlace loc v w) fun p =>
      p.Found T e ∧ indexType a b loc = .ok p.type := by
  unfold elementPlace
  rw [hv.typed.type, hw.typed.type]
  by_cases swap : (!a.isPointer && b.isPointer) = true
  · rw [if_pos swap]
    simp only [hw.typed.type, hv.typed.type]
    cases found : b.pointee? with
    | none => exact enacts_throw
    | some type =>
      obtain rfl := eq_pointer hw.typed.plain found
      refine enacts_ite (fun integral => ?_) fun _ => enacts_throw
      cases a with
      | integral width signed =>
        exact (enacts_elementAt hw hv rfl element loc).mono fun p hp => ⟨hp.1, hp.2 ▸ rfl⟩
      | void | floating | pointer | array | function => cases integral
  · rw [if_neg swap]
    simp only [hw.typed.type, hv.typed.type]
    cases found : a.pointee? with
    | none => exact enacts_throw
    | some type =>
      obtain rfl := eq_pointer hv.typed.plain found
      refine enacts_ite (fun integral => ?_) fun _ => enacts_throw
      cases b with
      | integral width signed =>
        exact (enacts_elementAt hv hw rfl element loc).mono fun p hp => ⟨hp.1, hp.2 ▸ rfl⟩
      | void | floating | pointer | array | function => cases integral

theorem enacts_leaveIf (hv : v.HasType a) (scalar : v.type.isScalar = true) (exit : Qualifier) (label : Int32) :
    Enacts T [] (leaveIf exit v label) fun _ => True :=
  enacts_skip (enacts_compareZero hv scalar) fun _ _ => enacts_branch _ _

/-- A variable for the value of a branch has the type that was found for the whole. -/
def TargetFits (target : Option Operand) (type : CType) : Prop :=
  match target with
  | some o => type.isVoid = false ∧ ∃ id, o = .var type.encoding id
  | none => type = .void

theorem enacts_branchTarget (type : CType) : Enacts T [] (branchTarget type) (TargetFits · type) := by
  refine enacts_ite (fun isVoid => enacts_pure ?_) fun solid => ?_
  · show type = .void
    cases type <;> first | rfl | cases isVoid
  · refine enacts_skip (enacts_temporary type) fun o ho => enacts_pure ⟨?_, ho⟩
    rwa [Bool.not_eq_true] at solid

theorem enacts_deliver {target : Option Operand} (ht : TargetFits target type) (hv : v.Made a)
    (loc : Location) : Enacts T [] (deliver target v type loc) fun _ => True := by
  cases target with
  | none => exact enacts_pure trivial
  | some o =>
    obtain ⟨-, id, rfl⟩ := ht
    refine enacts_skip (enacts_convertAssigned hv type loc) fun w hw => ?_
    exact enacts_setVariable hw.1.typed hw.2 id

theorem enacts_storeResult (h : p.Found T e) (hv : v.Made a) (loc : Location) :
    Enacts T [] (storeResult loc p v) fun w => w.Made p.type ∧ p.type.isScalar = true := by
  refine enacts_skip (enacts_convertAssigned hv p.type loc) fun w hw => ?_
  obtain ⟨made, scalar⟩ := hw
  refine enacts_skip (enacts_writePlace h made.typed scalar) fun _ _ => enacts_noted loc ⟨⟨?_, .inl ?_⟩, scalar⟩
  · exact ⟨rfl, made.typed.encoding, made.typed.plain⟩
  · obtain ⟨id, stored⟩ := made.stored scalar
    exact ⟨id, made.typed.type ▸ stored⟩

/-! ## Calls -/

theorem enacts_requireCount (f : Callee) (count : Nat) (loc : Location) :
    Enacts T [] (requireCount f count loc) fun _ =>
      count = f.params.length ∨ f.variadic = true ∧ f.params.length < count := by
  refine enacts_ite (fun h => enacts_pure ?_) fun _ => enacts_throw
  simpa only [Bool.or_eq_true, Bool.and_eq_true, decide_eq_true_eq] using h

theorem passed_of_made {param : Option CType} (h : w.Made type) (scalar : type.isScalar = true)
    (declared : ∀ d ∈ param, type = d) (wide : param = none → type.encoding.tag.isWide = true) :
    Passed param w.operand := by
  obtain ⟨id, stored⟩ := h.stored scalar
  exact ⟨type, id, h.typed.type ▸ stored, scalar, declared, wide⟩

theorem enacts_convertArgument (hv : v.Made a) (param : Option CType) (loc : Location) :
    Enacts T [] (convertArgument v param loc) fun w => Passed param w.operand := by
  cases param with
  | some type =>
    refine (enacts_convertAssigned hv type loc).mono fun w hw => ?_
    refine passed_of_made hw.1 hw.2 (fun d mem => Option.some.inj mem) ?_
    rintro ⟨⟩
  | none =>
    refine enacts_skip (enacts_requireScalar v _ loc) fun _ scalar => ?_
    have target : (if v.type.isFloating then CType.double else v.type.promote).isScalar = true ∧
        (if v.type.isFloating then CType.double else v.type.promote).encoding.tag.isWide = true := by
      generalize v.type = type at scalar
      cases type with
      | integral width signed => cases width <;> cases signed <;> exact ⟨rfl, rfl⟩
      | floating | pointer => exact ⟨rfl, rfl⟩
      | void | array | function => cases scalar
    refine (enacts_convertMade hv (hv.typed.type ▸ scalar) target.1).mono fun w hw => ?_
    refine passed_of_made hw target.1 ?_ fun _ => target.2
    rintro _ ⟨⟩

theorem grown_passArguments (args : List Operand) (index : Nat) {u : Unit}
    (run : passArguments index args s = .ok u s') :
    Relation.ReflTransGen TypedGrowth s s' ∧
      s'.code = (args.mapIdx fun k => Instr.param (index + k)).reverse ++ s.code := by
  induction args generalizing index s with
  | nil =>
    obtain ⟨-, rfl⟩ := pure_eq_ok.1 run
    exact ⟨.refl, rfl⟩
  | cons arg args ih =>
    obtain ⟨_, t, first, rest⟩ := bind_eq_ok.1 run
    obtain ⟨bytes, encodes, rfl⟩ := emit_eq_ok.1 first
    obtain ⟨steps, code⟩ := ih (index + 1) rest
    refine ⟨.head (.emit encodes ⟨trivial, rfl⟩) steps, ?_⟩
    have next : (fun k => Instr.param (index + (k + 1))) = fun k => Instr.param (index + 1 + k) := by
      funext k
      rw [Nat.add_assoc, Nat.add_comm k 1]
    rw [code, mapIdx_cons, reverse_cons, append_assoc, next]
    rfl

theorem enacted_callCode {f : Callee} (nameLoc : Location) (named : f.name ∈ T.offered)
    (plain : f.result.Plain) (takes : f.Takes args) (id : UInt32) :
    Enacted none T.offered [.call (.ident nameLoc f.name) f args.length]
      (args.mapIdx Instr.param ++ Instr.call f.name :: f.outcome id) := by
  refine ⟨?_, ?_, carriesOut_event ⟨⟨nameLoc, rfl⟩, plain, args, id, rfl, takes, rfl⟩⟩
  · refine forall_mem_append.2 ⟨fun i mem => ?_, forall_mem_cons.2 ⟨⟨trivial, rfl⟩, fun i mem => ?_⟩⟩
    · obtain ⟨k, -, rfl⟩ := mem_mapIdx.1 mem
      exact ⟨trivial, rfl⟩
    · obtain ⟨-, rfl⟩ := Callee.eq_of_mem_outcome mem
      exact ⟨trivial, rfl⟩
  · refine forall_mem_append.2 ⟨fun i mem => ?_, forall_mem_cons.2 ⟨?_, fun i mem => ?_⟩⟩
    · obtain ⟨k, bound, rfl⟩ := mem_mapIdx.1 mem
      obtain ⟨type, id, arg, -⟩ := takes.passed k _ (List.getElem?_eq_getElem bound)
      exact Instr.references_within (within_two rfl (by rw [arg]; rfl))
    · refine Instr.references_within (within_cons (fun name mem => ?_) within_nil)
      exact Option.some.inj mem ▸ named
    · obtain ⟨-, rfl⟩ := Callee.eq_of_mem_outcome mem
      exact Instr.references_within (within_one rfl)

theorem enacts_callWith {f : Callee} {nameLoc : Location} (named : f.name ∈ T.offered)
    (plain : f.result.Plain) (takes : f.Takes args) :
    Enacts T [.call (.ident nameLoc f.name) f args.length] (callWith f args) (·.Made f.result) := by
  have enacted := enacted_callCode nameLoc named plain takes
  intro s v s' _ run
  obtain ⟨_, t, passRun, run⟩ := bind_eq_ok.1 run
  obtain ⟨steps, code⟩ := grown_passArguments args 0 passRun
  simp only [Nat.zero_add] at code
  obtain ⟨_, t', callRun, run⟩ := bind_eq_ok.1 run
  obtain ⟨bytes, encodes, rfl⟩ := emit_eq_ok.1 callRun
  have calls := steps.tail (.emit encodes ⟨trivial, rfl⟩)
  -- Without a result no variable is made, and the block does not depend on its number.
  by_cases void : f.result.isVoid = true
  · rw [if_pos void] at run
    obtain ⟨rfl, rfl⟩ := pure_eq_ok.1 run
    refine ⟨⟨calls, _, ?_, enacted 0⟩, ?_⟩
    · rw [Callee.outcome, if_pos void, reverse_append, append_assoc, ← code]
      rfl
    · have result : f.result = .void := by
        generalize f.result = type at void
        cases type <;> first | rfl | cases void
      exact result ▸ made_void
  · rw [if_neg void] at run
    obtain ⟨rfl, run⟩ := compute_eq_ok.1 run
    obtain ⟨bytes', encodes', rfl⟩ := emit_eq_ok.1 run
    refine ⟨⟨(calls.tail .freshVariable).tail (.emit encodes' ⟨trivial, rfl⟩), _, ?_,
      enacted (UInt32.ofNat t.variableCount)⟩, ?_⟩
    · rw [Callee.outcome, if_neg void, reverse_append, append_assoc, ← code]
      rfl
    · exact made_var plain _

end Operations

/-! ## Names -/

section Names

variable (proper : T.Proper)
include proper

theorem declarable_of_lookup {name : Name} {symbol : Symbol} (found : T.lookup name = some symbol) :
    symbol.type.Declarable := by
  obtain ⟨entry, mem, rfl⟩ := Scopes.lookup_mem found
  exact proper entry mem

theorem enacts_namedPlace (loc : Location) (name : Name) :
    Enacts T [] (namedPlace loc name) fun p =>
      p.Found T (.ident loc name) ∧ typeOf T (.ident loc name) = .ok p.type := by
  refine enacts_silent fun s p s' hs run => ?_
  obtain ⟨symbol, found, rfl, rfl⟩ := namedPlace_eq_ok.1 run
  rw [hs] at found
  refine ⟨.single (.noteType _ _), rfl, ⟨(declarable_of_lookup proper found).notVoid, ?_⟩, ?_⟩
  · obtain ⟨entry, mem, rfl⟩ := Scopes.lookup_mem found
    unfold storageOperand
    cases stored : entry.symbol.storage with
    | slot id => exact .inl ⟨id, rfl⟩
    | global name => exact .inr ⟨name, ⟨entry, mem, .inl stored⟩, rfl⟩
  · simp [typeOf, found, Place.type]

/-- A function that is called by its name. -/
structure Callee.Named (T : Scopes) (callee : Expr) (f : Callee) : Prop where
  ident : ∃ loc, callee = .ident loc f.name
  offered : f.name ∈ T.offered
  plain : f.result.Plain
  found : callee.callee? T = some f
  type : typeOf T callee = .ok (.function f.result f.params f.variadic)

theorem enacts_resolveCallee (callee : Expr) (loc : Location) :
    Enacts T [] (resolveCallee callee loc) fun f => f.Named T callee := by
  refine enacts_silent fun s f s' hs run => ?_
  obtain ⟨nameLoc, symbol, rfl, look, type, rfl⟩ := resolveCallee_eq_ok run
  rw [hs] at look
  refine ⟨.single (.noteType _ _), rfl, ⟨nameLoc, rfl⟩, ?_, ?_, ?_, ?_⟩
  · have named := Scopes.name_of_lookup look
    obtain ⟨entry, mem, rfl⟩ := Scopes.lookup_mem look
    exact ⟨entry, mem, .inr ⟨named, by rw [type]; rfl⟩⟩
  · exact (declarable_of_lookup proper look).result _ (by rw [type]; rfl)
  · simp only [Expr.callee?, look, Option.bind_some, type, CType.callee?]
  · simp only [typeOf, look, type]

end Names

/-! ## Expressions -/

theorem plain_conditional (a b : CType) : (a.conditional b).Plain := by
  have pa := a.plain_decay
  have pb := b.plain_decay
  unfold CType.conditional
  simp only
  repeat' split
  · rename_i both
    simp only [Bool.and_eq_true] at both
    exact plain_of_isScalar (isScalar_of_isArithmetic (common_isArithmetic both.1 both.2))
  · exact ⟨rfl, rfl⟩
  · exact pa
  · exact pb

theorem ofLiteral_isScalar (n : UInt64) : (CType.ofLiteral n).isScalar = true := by
  unfold CType.ofLiteral
  repeat' split
  all_goals rfl

/-- What comes out of an expression: its value has the type that is found without code, decayed. -/
structure HasValue (T : Scopes) (e : Expr) (v : Value) : Prop where
  typed : ∃ u, typeOf T e = .ok u ∧ v.Made u.decay
  calls : (e.events T).filterMap Event.callee? = e.callees

/-- What is found for an expression that denotes a place: the place has the very type that is found without
code. -/
structure HasPlace (T : Scopes) (e : Expr) (p : Place) : Prop where
  found : p.Found T e
  typed : typeOf T e = .ok p.type
  calls : (e.placeEvents T).filterMap Event.callee? = e.callees

/-- What comes out of arguments. -/
structure Arguments (T : Scopes) (params : List CType) (args : List Expr) (os : List Operand) : Prop where
  length : os.length = args.length
  passed : ∀ (k : Nat) o, os[k]? = some o → Passed params[k]? o
  calls : (Expr.argEvents T args).filterMap Event.callee? = argCallees args

theorem enacts_result {loc : Location} {u : CType} (typed : typeOf T e = .ok u)
    (made : v.Made u.decay) (calls : (e.events T).filterMap Event.callee? = e.callees) :
    Enacts T [] (noted loc v) (HasValue T e) := enacts_noted loc ⟨⟨u, typed, made⟩, calls⟩

theorem enacts_branchResult {target : Option Operand} {type : CType} (ht : TargetFits target type)
    (plain : type.Plain) (loc : Location) (typed : typeOf T e = .ok type)
    (calls : (e.events T).filterMap Event.callee? = e.callees) :
    Enacts T [] (branchResult loc target type) (HasValue T e) := by
  cases target with
  | none =>
    obtain rfl : type = .void := ht
    exact enacts_result typed made_void calls
  | some o =>
    obtain ⟨-, id, rfl⟩ := ht
    exact enacts_result typed (made_var plain id).decayed calls

attribute [local grind =] value place arguments typeOf Expr.events Expr.placeEvents Expr.argEvents Expr.callees

/-- What has to be shown of an expression: its code carries out its events, and its value is as found. -/
abbrev ValueEnacted (T : Scopes) (e : Expr) : Prop := Enacts T (e.events T) (value e) (HasValue T e)

/-- What has to be shown of an expression that denotes a place. -/
abbrev PlaceEnacted (T : Scopes) (e : Expr) : Prop := Enacts T (e.placeEvents T) (place e) (HasPlace T e)

/-! ### One kind of expression

The parts of an expression are known to be enacted. -/

section Kinds

variable {e left right base position operand target source cond yes no : Expr} {loc : Location}

theorem enacts_literal {type : CType} (bits : UInt64) (loc : Location) (typed : typeOf T e = .ok type)
    (scalar : type.isScalar = true) (calls : (e.events T).filterMap Event.callee? = e.callees) :
    Enacts T [] (do noted loc (← constant type bits)) (HasValue T e) := by
  refine enacts_skip (enacts_constant _ (plain_of_isScalar scalar) (notVoid_of_isScalar scalar)) fun v hv => ?_
  exact enacts_result typed hv.decayed calls

theorem value_eq_place (h : hasAddress e = true) : value e = place e >>= fun p => readPlace p >>= noted e.loc := by
  unfold hasAddress at h
  split at h
  · rw [value, place]
    rfl
  · rw [value, place]
    simp only [bind_assoc]
    rfl
  · rw [value, place]
    simp only [bind_assoc]
    rfl
  · cases h

theorem events_eq_placeEvents (h : hasAddress e = true) : e.events T = e.placeEvents T ++ e.reading T := by
  unfold hasAddress at h
  split at h <;> simp [Expr.events, Expr.placeEvents] at h ⊢

theorem enacts_reading (h : hasAddress e = true) (enactsPlace : PlaceEnacted T e) : ValueEnacted T e := by
  rw [ValueEnacted, value_eq_place h, events_eq_placeEvents h]
  refine enacts_bind enactsPlace fun p hp => ?_
  rw [Expr.reading_of_typeOf hp.typed]
  refine enacts_last (enacts_readPlace hp.found) fun v hv => enacts_result hp.typed hv ?_
  rw [events_eq_placeEvents h, filterMap_append, hp.calls, Expr.callees_reading, append_nil]

theorem enacts_named (proper : T.Proper) (name : Name) : PlaceEnacted T (.ident loc name) := by
  rw [PlaceEnacted, place, Expr.placeEvents]
  · refine (enacts_namedPlace proper loc name).mono fun p hp => ⟨hp.1, hp.2, ?_⟩
    simp only [Expr.placeEvents, Expr.callees, filterMap_nil]
  · rintro _ _ ⟨⟩
  · rintro _ _ _ ⟨⟩

variable {op : BinOp}

theorem calls_binary {l r : Value} (hl : HasValue T left l) (hr : HasValue T right r) :
    ((Expr.binary loc op left right).events T).filterMap Event.callee? = (Expr.binary loc op left right).callees := by
  simp only [Expr.events, Expr.callees, filterMap_append, hl.calls, hr.calls, callees_scaling, append_nil]

theorem enacts_element (enactsBase : ValueEnacted T base) (enactsPosition : ValueEnacted T position) :
    PlaceEnacted T (.index loc base position) := by
  unfold PlaceEnacted
  refine enacts_bind enactsBase fun b hb => ?_
  obtain ⟨⟨ub, baseType, madeBase⟩, baseCalls⟩ := hb
  refine enacts_bind enactsPosition fun i hi => ?_
  obtain ⟨⟨ui, positionType, madePosition⟩, positionCalls⟩ := hi
  rw [Expr.valueType_of_typeOf baseType, Expr.valueType_of_typeOf positionType]
  refine (enacts_elementPlace madeBase madePosition rfl loc).mono fun p hp => ⟨hp.1, ?_, ?_⟩
  · rw [typeOf, baseType, positionType]
    exact hp.2
  · simp only [Expr.placeEvents, Expr.callees, filterMap_append, baseCalls, positionCalls, callees_scaling,
      append_nil]

theorem enacts_target (enactsOperand : ValueEnacted T operand) : PlaceEnacted T (.unary loc .deref operand) := by
  unfold PlaceEnacted
  refine enacts_last enactsOperand fun v hv => ?_
  obtain ⟨⟨u, operandType, made⟩, calls⟩ := hv
  refine (enacts_pointedPlace made loc).mono fun p hp => ⟨hp.1, ?_, ?_⟩
  · simp [typeOf, operandType, unaryType, hp.2, bind, Except.bind]
  · rw [Expr.placeEvents, calls, Expr.callees]

theorem enacts_logical (logical : op.isLogical = true) (enactsLeft : ValueEnacted T left)
    (enactsRight : ValueEnacted T right) : ValueEnacted T (.binary loc op left right) := by
  unfold ValueEnacted
  rw [value, if_pos logical, Expr.events, scaling_of_other (by rintro rfl; cases logical)
    (by rintro rfl; cases logical), append_nil]
  refine enacts_bind enactsLeft fun l hl => ?_
  obtain ⟨ul, leftType, madeLeft⟩ := hl.typed
  refine enacts_skip (enacts_requireScalar _ _ _) fun _ leftScalar => ?_
  refine enacts_skip enacts_freshLabel fun shortLabel _ => ?_
  refine enacts_skip (enacts_leaveIf madeLeft.typed leftScalar _ _) fun _ _ => ?_
  -- Events are those of the code: they include the second operand, even if a run may skip it.
  refine enacts_last enactsRight fun r hr => ?_
  obtain ⟨ur, rightType, madeRight⟩ := hr.typed
  refine enacts_skip (enacts_requireScalar _ _ _) fun _ rightScalar => ?_
  refine enacts_skip enacts_freshLabel fun endLabel _ => ?_
  refine enacts_skip (enacts_leaveIf madeRight.typed rightScalar _ _) fun _ _ => ?_
  refine enacts_skip (enacts_logicalResult _ _ _ _) fun v hv => ?_
  exact enacts_result (by simp [typeOf, logical]) hv.decayed (calls_binary hl hr)

theorem enacts_operator (arithmetical : ¬ op.isLogical = true) (enactsLeft : ValueEnacted T left)
    (enactsRight : ValueEnacted T right) : ValueEnacted T (.binary loc op left right) := by
  unfold ValueEnacted
  rw [value, if_neg arithmetical, Expr.events]
  refine enacts_bind enactsLeft fun l hl => ?_
  obtain ⟨ul, leftType, madeLeft⟩ := hl.typed
  refine enacts_bind enactsRight fun r hr => ?_
  obtain ⟨ur, rightType, madeRight⟩ := hr.typed
  refine enacts_ite (fun compares => ?_) fun other => ?_
  · rw [scaling_of_other (by rintro rfl; cases compares) (by rintro rfl; cases compares)]
    refine enacts_skip (enacts_comparison madeLeft.typed madeRight.typed op loc) fun v hv => ?_
    exact enacts_result (by simp [typeOf, compares]) hv.decayed (calls_binary hl hr)
  · rw [Expr.valueType_of_typeOf leftType, Expr.valueType_of_typeOf rightType]
    refine enacts_last (enacts_arithmetic madeLeft.typed madeRight.typed op
      (fun scalar _ => madeRight.stored scalar) loc) fun v hv => ?_
    obtain ⟨c, found, made⟩ := hv
    refine enacts_result ?_ made.decayed (calls_binary hl hr)
    simp only [typeOf, other, arithmetical, Bool.or_self, Bool.false_eq_true, if_false, leftType, rightType,
      bind, Except.bind]
    exact found

/-- Only a place of a scalar type is stepped, so that it is not one that is read or written as `void`. -/
theorem enacts_step {step : Step} {fixity : Fixity} (enactsPlace : PlaceEnacted T operand) :
    ValueEnacted T (.step loc step fixity operand) := by
  unfold ValueEnacted
  refine enacts_bind enactsPlace fun p hp => ?_
  refine enacts_last ((enacts_stepPlace hp.found step fixity loc).congr fun v hv => ?_) fun v hv => ?_
  · have solid := notVoid_of_isScalar hv.2
    rw [Expr.reading_of_solid hp.typed solid, Expr.writing_of_solid hp.typed solid,
      Expr.valueType_of_typeOf hp.typed, decay_plain hv.1.typed.plain, append_nil, nil_append]
  · refine enacts_result (by rw [typeOf, hp.typed]) hv.1.decayed ?_
    simp only [Expr.events, Expr.callees, filterMap_append, hp.calls, callees_scaling, Expr.callees_reading,
      Expr.callees_writing, append_nil]

theorem enacts_stored {op : Option BinOp} {p : Place} {v : Value} {a : CType} (hp : HasPlace T target p)
    (hv : v.Made a) (calls : ((Expr.assign loc target op source).events T).filterMap Event.callee? =
      (Expr.assign loc target op source).callees) :
    Enacts T (target.writing T) (storeResult loc p v) (HasValue T (.assign loc target op source)) := by
  refine ((enacts_storeResult hp.found hv loc).congr fun r hr => ?_).mono fun r hr => ?_
  · exact (Expr.writing_of_solid hp.typed (notVoid_of_isScalar hr.2)).symm
  · exact ⟨⟨p.type, by rw [typeOf, hp.typed], hr.1.decayed⟩, calls⟩

theorem enacts_assign {op : Option BinOp} (enactsTarget : PlaceEnacted T target)
    (enactsSource : ValueEnacted T source) : ValueEnacted T (.assign loc target op source) := by
  unfold ValueEnacted
  cases op with
  | none =>
    refine enacts_bind enactsTarget fun p hp => ?_
    refine enacts_skip (enacts_requireModifiable p loc) fun _ _ => ?_
    refine enacts_bind enactsSource fun v hv => ?_
    obtain ⟨⟨u, -, made⟩, calls⟩ := hv
    refine enacts_stored hp made ?_
    simp only [Expr.events, Expr.callees, filterMap_append, hp.calls, calls, Expr.callees_writing, append_nil]
  | some op =>
    refine enacts_bind enactsTarget fun p hp => ?_
    refine enacts_skip (enacts_requireModifiable p loc) fun _ _ => ?_
    -- The old value is read before anything is done for the source.
    rw [Expr.reading_of_typeOf hp.typed]
    refine enacts_bind (enacts_readPlace hp.found) fun current hcurrent => ?_
    refine enacts_bind enactsSource fun v hv => ?_
    obtain ⟨⟨u, sourceType, made⟩, calls⟩ := hv
    rw [Expr.valueType_of_typeOf hp.typed, Expr.valueType_of_typeOf sourceType]
    refine enacts_bind (enacts_arithmetic hcurrent.typed made.typed op
      (fun scalar _ => made.stored scalar) loc) fun r hr => ?_
    obtain ⟨c, -, hr⟩ := hr
    refine enacts_stored hp hr ?_
    simp only [Expr.events, Expr.callees, filterMap_append, hp.calls, calls, callees_scaling,
      Expr.callees_reading, Expr.callees_writing, append_nil, nil_append]

theorem enacts_call (proper : T.Proper) {callee : Expr} {args : List Expr}
    (enactsArguments : ∀ params, Enacts T (Expr.argEvents T args) (arguments params args) (Arguments T params args)) :
    ValueEnacted T (.call loc callee args) := by
  unfold ValueEnacted
  refine enacts_skip (enacts_resolveCallee proper callee loc) fun f hf => ?_
  obtain ⟨⟨nameLoc, rfl⟩, offered, plain, found, type⟩ := hf
  have calling : (Expr.ident nameLoc f.name).calling T args.length = [.call (.ident nameLoc f.name) f args.length] := by
    rw [Expr.calling, found]
    rfl
  refine enacts_skip (enacts_requireCount f _ loc) fun _ count => ?_
  refine enacts_bind (enactsArguments f.params) fun os hos => ?_
  rw [calling, ← hos.length]
  refine enacts_last (enacts_callWith offered plain ⟨hos.length ▸ count, hos.passed⟩) fun v hv => ?_
  refine enacts_result ?_ hv.decayed ?_
  · rw [typeOf, type]
    rfl
  · rw [Expr.events, calling, filterMap_append, hos.calls, Expr.callees, Expr.callees]
    rfl

theorem enacts_conditional (enactsCond : ValueEnacted T cond) (enactsYes : ValueEnacted T yes)
    (enactsNo : ValueEnacted T no) : ValueEnacted T (.conditional loc cond yes no) := by
  unfold ValueEnacted
  -- The type of the result is settled before there is code for either branch.
  refine enacts_skip (enacts_inferred yes) fun yesType hyes => ?_
  refine enacts_skip (enacts_inferred no) fun noType hno => ?_
  refine enacts_bind enactsCond fun c hc => ?_
  obtain ⟨⟨uc, -, madeCond⟩, condCalls⟩ := hc
  refine enacts_skip (enacts_requireScalar _ _ _) fun _ scalar => ?_
  refine enacts_skip enacts_freshLabel fun elseLabel _ => enacts_skip enacts_freshLabel fun endLabel _ => ?_
  refine enacts_skip (enacts_compareZero madeCond.typed scalar) fun _ _ => ?_
  refine enacts_skip (enacts_branch _ _) fun _ _ => enacts_skip (enacts_branchTarget _) fun target ht => ?_
  refine enacts_bind enactsYes fun y hy => ?_
  obtain ⟨⟨uy, -, madeYes⟩, yesCalls⟩ := hy
  refine enacts_skip (enacts_deliver ht madeYes _) fun _ _ => ?_
  refine enacts_skip (enacts_jump _) fun _ _ => enacts_skip (enacts_defineLabel _) fun _ _ => ?_
  refine enacts_last enactsNo fun n hn => ?_
  obtain ⟨⟨un, -, madeNo⟩, noCalls⟩ := hn
  refine enacts_skip (enacts_deliver ht madeNo _) fun _ _ => ?_
  refine enacts_skip (enacts_defineLabel _) fun _ _ => ?_
  refine enacts_branchResult ht (plain_conditional _ _) loc (by rw [typeOf, hyes, hno]; rfl) ?_
  simp only [Expr.events, Expr.callees, filterMap_append, condCalls, yesCalls, noCalls]

end Kinds

/-! ### All expressions -/

mutual

theorem enacts_value (proper : T.Proper) (e : Expr) : ValueEnacted T e := by
  match e with
  | .int loc n =>
    rw [ValueEnacted, value, Expr.events]
    exact enacts_literal _ loc (by rw [typeOf]) (ofLiteral_isScalar n) (by rw [Expr.events, Expr.callees]; rfl)
  | .char loc n | .float loc n | .sizeofType loc n =>
    rw [ValueEnacted, value, Expr.events]
    exact enacts_literal _ loc (by rw [typeOf]) rfl (by rw [Expr.events, Expr.callees]; rfl)
  | .string loc bytes =>
    rw [ValueEnacted, value, Expr.events]
    refine enacts_skip (enacts_stringConstant bytes) fun v hv => ?_
    exact enacts_result (u := stringType bytes) (by rw [typeOf]) hv (by rw [Expr.events, Expr.callees]; rfl)
  | .sizeofExpr loc operand =>
    refine enacts_skip (enacts_inferred operand) fun type _ => ?_
    exact enacts_literal _ loc (by rw [typeOf]) rfl (by rw [Expr.events, Expr.callees]; rfl)
  | .member loc object arrow name =>
    exact enacts_throw
  | .ident loc name => exact enacts_reading rfl (enacts_named proper name)
  | .index loc base position =>
    exact enacts_reading rfl (enacts_element (enacts_value proper base) (enacts_value proper position))
  | .binary loc op left right =>
    by_cases logical : op.isLogical = true
    · exact enacts_logical logical (enacts_value proper left) (enacts_value proper right)
    · exact enacts_operator logical (enacts_value proper left) (enacts_value proper right)
  | .unary loc op operand =>
    cases op with
    | not =>
      refine enacts_last (enacts_value proper operand) fun v hv => ?_
      obtain ⟨⟨u, operandType, made⟩, calls⟩ := hv
      refine enacts_skip (enacts_requireScalar _ _ _) fun _ scalar => ?_
      refine enacts_skip (enacts_isZero made.typed scalar) fun v hv => ?_
      exact enacts_result (by rw [typeOf, operandType]; rfl) hv.decayed (by rw [Expr.events, calls, Expr.callees])
    | addrOf =>
      refine enacts_ite (fun _ => ?_) fun _ => enacts_throw
      refine enacts_last (enacts_place proper operand) fun p hp => ?_
      refine enacts_skip (enacts_addressOf hp.found) fun v hv => ?_
      exact enacts_result (by rw [typeOf, hp.typed]; rfl) hv.decayed (by rw [Expr.events, hp.calls, Expr.callees])
    | deref => exact enacts_reading rfl (enacts_target (enacts_value proper operand))
    | plus | neg | bitNot =>
      refine enacts_last (enacts_value proper operand) fun v hv => ?_
      obtain ⟨⟨u, operandType, made⟩, calls⟩ := hv
      refine enacts_skip (enacts_signed made _ loc) fun v hv => ?_
      exact enacts_result (by rw [typeOf, operandType]; rfl) hv.decayed (by rw [Expr.events, calls, Expr.callees])
  | .step loc step fixity operand => exact enacts_step (enacts_place proper operand)
  | .assign loc target op source => exact enacts_assign (enacts_place proper target) (enacts_value proper source)
  | .call loc callee args => exact enacts_call proper fun params => enacts_arguments proper params args
  | .conditional loc cond yes no =>
    exact enacts_conditional (enacts_value proper cond) (enacts_value proper yes) (enacts_value proper no)
  | .cast loc type operand =>
    refine enacts_last (enacts_value proper operand) fun v hv => ?_
    obtain ⟨⟨u, -, made⟩, calls⟩ := hv
    refine enacts_skip (enacts_castValue made type loc) fun v hv => ?_
    exact enacts_result (by rw [typeOf]) hv.decayed (by rw [Expr.events, calls, Expr.callees])

theorem enacts_place (proper : T.Proper) (e : Expr) : PlaceEnacted T e := by
  match e with
  | .ident loc name => exact enacts_named proper name
  | .unary loc op operand =>
    cases op with
    | deref => exact enacts_target (enacts_value proper operand)
    | plus | neg | bitNot | not | addrOf =>
      exact enacts_throw
  | .index loc base position => exact enacts_element (enacts_value proper base) (enacts_value proper position)
  | .int .. | .float .. | .char .. | .string .. | .binary .. | .step .. | .assign .. | .call ..
  | .member .. | .conditional .. | .cast .. | .sizeofType .. | .sizeofExpr .. =>
    exact enacts_throw

theorem enacts_arguments (proper : T.Proper) (params : List CType) (args : List Expr) :
    Enacts T (Expr.argEvents T args) (arguments params args) (Arguments T params args) := by
  match args with
  | [] =>
    refine enacts_pure ⟨rfl, fun k o mem => ?_, ?_⟩
    · rw [List.getElem?_nil] at mem
      cases mem
    · rw [Expr.argEvents, argCallees]
      rfl
  | arg :: args =>
    rw [arguments, Expr.argEvents]
    refine enacts_bind (enacts_value proper arg) fun v hv => ?_
    obtain ⟨⟨u, -, made⟩, calls⟩ := hv
    refine enacts_skip (enacts_convertArgument made _ _) fun w hw => ?_
    refine enacts_last (enacts_arguments proper params.tail args) fun os hos => enacts_pure ⟨?_, ?_, ?_⟩
    · rw [length_cons, length_cons, hos.length]
    · intro k o mem
      cases k with
      | zero =>
        rw [← Option.some.inj mem, ← head?_eq_getElem?]
        exact hw
      | succ k =>
        rw [← List.getElem?_tail]
        exact hos.passed k o mem
    · rw [Expr.argEvents, argCallees, filterMap_append, calls, hos.calls]

end

end Lowering

end Cof
