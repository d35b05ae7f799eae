/-
  Taking a run of the lowering apart.

  A `Lower` step is a function from a state to a result, so a fact about code is a fact about runs:
  `m s = .ok a s'`.  Three readings of a run are prepared here.

  1. **Inversion.**  A run of a composed step is a chain of runs of its parts.  The lemmas
     `…_eq_ok` say so for every way of composing steps and for every primitive step, as equivalences,
     so that `simp only` takes a whole `do` block apart.
  2. **Relations.**  `Follows R m` says that `m` leads from any state to an `R`-related one, whether
     it succeeds or fails.  For a transitive `R` it is enough to look at the parts of `m`, and no value
     has to be carried along.
  3. **Triples.**  `Triple P m Q` says what a successful run of `m` from a state with `P` ends in, and
     `Gives I m Q` is the case of an invariant `I` with a property of the result alone.
-/
import Cof.Lowering.Program
import Mathlib.Logic.Relation

namespace Cof

/-! ## Results -/

variable {ε α : Type}

theorem ok_bind {β : Type} {x : Except ε α} {f : α → Except ε β} {b : β} :
    (x >>= f) = .ok b ↔ ∃ a, x = .ok a ∧ f a = .ok b := by
  cases x with
  | error e => exact ⟨nofun, nofun⟩
  | ok a => exact ⟨fun h => ⟨a, rfl, h⟩, fun ⟨_, same, h⟩ => Except.ok.inj same ▸ h⟩

theorem ok_of_any {x : Except ε α} {holds : α → Bool}
    (h : x.toOption.any holds = true) : ∃ a, x = .ok a ∧ holds a = true := by
  cases x with
  | error e => cases h
  | ok a => exact ⟨a, rfl, h⟩

namespace Lowering

variable {α β : Type} {s s' t : State}

/-- Whether a step succeeds, and something holds of what it gives and leaves. -/
def succeeds (m : Lower α) (s : State) (holds : α → State → Bool) : Bool :=
  match m s with
  | .ok a s' => holds a s'
  | .error .. => false

theorem ok_of_succeeds {m : Lower α} {holds : α → State → Bool} (h : succeeds m s holds = true) :
    ∃ a s', m s = .ok a s' ∧ holds a s' = true := by
  unfold succeeds at h
  split at h
  case h_1 a s' run => exact ⟨a, s', run, h⟩
  case h_2 => cases h

/-! ## Inversion of composed steps -/

variable {b : β} {u : Unit} {c : Prop} {m' : Lower α} {a : α} {e : LowerError} {cause : Fault}
  {loc : Location} {what : Unsupported} {operator : String} {operands : Operands} {opcode : Opcode}
  {qualifier : Qualifier} {type : CType} {v : Value} {p : Place}

theorem bind_eq_ok {m : Lower α} {f : α → Lower β} :
    (m >>= f) s = .ok b s' ↔ ∃ a t, m s = .ok a t ∧ f a t = .ok b s' := by
  show EStateM.bind m f s = .ok b s' ↔ _
  unfold EStateM.bind
  cases hm : m s with
  | ok a t =>
    constructor
    · exact fun h => ⟨a, t, rfl, h⟩
    · rintro ⟨_, _, ⟨⟩, h⟩
      exact h
  | error e t => simp

theorem map_eq_ok {m : Lower α} {f : α → β} : (f <$> m) s = .ok b s' ↔ ∃ a, m s = .ok a s' ∧ f a = b := by
  show EStateM.map f m s = .ok b s' ↔ _
  unfold EStateM.map
  cases hm : m s with
  | ok a t =>
    constructor
    · rintro ⟨⟩
      exact ⟨a, rfl, rfl⟩
    · rintro ⟨_, ⟨⟩, rfl⟩
      rfl
  | error e t => simp

theorem discard_eq_ok {m : Lower α} : discard m s = .ok u s' ↔ ∃ a, m s = .ok a s' := by
  show ((fun _ => ()) <$> m) s = .ok u s' ↔ _
  simp [map_eq_ok]

theorem ite_eq_ok [Decidable c] {m : Lower α} : (if c then m else m') s = .ok a s' ↔
      (c ∧ m s = .ok a s') ∨ (¬ c ∧ m' s = .ok a s') := by
  split <;> simp_all

theorem pure_eq_ok {b : α} : (pure a : Lower α) s = .ok b s' ↔ a = b ∧ s = s' := by
  simp [pure, EStateM.pure]

theorem throw_eq_ok : (throw e : Lower α) s = .ok a s' ↔ False := by
  show EStateM.Result.error e s = .ok a s' ↔ False
  simp

theorem get_eq_ok : (get : Lower State) s = .ok t s' ↔ s = t ∧ s = s' := by
  show EStateM.Result.ok s s = .ok t s' ↔ _
  simp

theorem set_eq_ok {u : PUnit} : (set t : Lower PUnit) s = .ok u s' ↔ t = s' := by
  show EStateM.Result.ok PUnit.unit t = .ok u s' ↔ t = s'
  simp

theorem modify_eq_ok {f : State → State} : (modify f : Lower Unit) s = .ok u s' ↔ f s = s' := by
  show EStateM.Result.ok () (f s) = .ok u s' ↔ f s = s'
  simp

/-! ## Inversion of primitive steps -/

theorem fail_eq_ok : (fail cause loc : Lower α) s = .ok a s' ↔ False := throw_eq_ok

theorem unsupported_eq_ok : (unsupported what loc : Lower α) s = .ok a s' ↔ False := throw_eq_ok

theorem invalid_eq_ok : (invalid operator operands loc : Lower α) s = .ok a s' ↔ False := throw_eq_ok

theorem invalidPair_eq_ok {op : BinOp} {left right : Value} :
    (invalidPair op left right loc : Lower α) s = .ok a s' ↔ False := throw_eq_ok

/-- The state with one more instruction, written as these bytes. -/
def State.push (s : State) (i : Instr) (bytes : Bytes) : State := { s with out := s.out.write bytes, code := i :: s.code }

/-- The state after an instruction whose encoding stopped behind these bytes. -/
def State.refuse (s : State) (bytes : Bytes) : State := { s with out := s.out.refuse bytes }

@[simp] theorem State.size_push (s : State) (i : Instr) (bytes : Bytes) : (s.push i bytes).size = s.size + bytes.length := by
  have behind := s.out.behind
  have position := Tape.position_write s.out.tape bytes
  show (s.out.tape.write bytes).position - s.out.codeStart = s.out.tape.position - s.out.codeStart + bytes.length
  omega

section Emit

variable {operands : List Operand}

theorem emit_of_ok {bytes : Bytes} (encodes : Instr.encode ⟨opcode, qualifier, operands⟩ = .ok bytes) :
    emit opcode qualifier operands s = .ok () (s.push ⟨opcode, qualifier, operands⟩ bytes) := by
  simp only [emit, Module.Output.writeInstr, encodes]
  rfl

theorem emit_of_error {f : EncodeFailure} (fails : Instr.encode ⟨opcode, qualifier, operands⟩ = .error f) :
    emit opcode qualifier operands s = .error (.write (.encode f.cause)) (s.refuse f.written) := by
  simp only [emit, Module.Output.writeInstr, fails]
  rfl

theorem emit_eq_ok : emit opcode qualifier operands s = .ok u s' ↔
      ∃ bytes, Instr.encode ⟨opcode, qualifier, operands⟩ = .ok bytes ∧
        s.push ⟨opcode, qualifier, operands⟩ bytes = s' := by
  cases encodes : Instr.encode ⟨opcode, qualifier, operands⟩ with
  | ok bytes => simp [emit_of_ok encodes]
  | error f => simp [emit_of_error encodes]

end Emit

def State.inside (s : State) (labels : LoopLabels) : State := { s with loops := labels :: s.loops }

def State.outside (s : State) : State := { s with loops := s.loops.tail }

theorem inLoop_eq_ok {labels : LoopLabels} :
    inLoop labels m s = .ok a s' ↔ ∃ t, m (s.inside labels) = .ok a t ∧ s' = t.outside := by
  unfold inLoop State.inside State.outside
  cases m { s with loops := labels :: s.loops } with
  | error e t => simp
  | ok b t => simp [and_assoc, eq_comm]

theorem freshVariable_eq_ok {id : UInt32} :
    freshVariable s = .ok id s' ↔
      UInt32.ofNat s.variableCount = id ∧ { s with variableCount := s.variableCount + 1 } = s' := by
  show EStateM.Result.ok (UInt32.ofNat s.variableCount) { s with variableCount := s.variableCount + 1 } = .ok id s' ↔ _
  simp

theorem freshLabel_eq_ok {label : Int32} :
    freshLabel s = .ok label s' ↔
      Int32.ofNat s.labelCount = label ∧ { s with labelCount := s.labelCount + 1 } = s' := by
  show EStateM.Result.ok (Int32.ofNat s.labelCount) { s with labelCount := s.labelCount + 1 } = .ok label s' ↔ _
  simp

theorem temporary_eq_ok {o : Operand} : temporary type s = .ok o s' ↔
      .var type.encoding (UInt32.ofNat s.variableCount) = o ∧ { s with variableCount := s.variableCount + 1 } = s' := by
  show EStateM.Result.ok (Operand.var _ _) _ = .ok o s' ↔ _
  simp

theorem branchTarget_bind (type : CType) (f : Option Operand → Lower α) :
    branchTarget type >>= f = if type.isVoid then f none else temporary type >>= fun o => f (some o) := by
  unfold branchTarget
  split
  · exact pure_bind none f
  · simp

theorem lookup_eq_ok {name : Name} {found : Option Symbol} :
    lookup name s = .ok found s' ↔ s.scopes.lookup name = found ∧ s = s' := by
  show EStateM.Result.ok (s.scopes.lookup name) s = .ok found s' ↔ _
  simp

theorem noteType_eq_ok : noteType loc type s = .ok u s' ↔ { s with types := (loc, type) :: s.types } = s' :=
  modify_eq_ok

theorem noting_eq_ok {a b : α} : (do noteType loc type; return a) s = .ok b s' ↔
    a = b ∧ { s with types := (loc, type) :: s.types } = s' := by
  simp only [bind_eq_ok, pure_eq_ok, noteType_eq_ok]
  constructor
  · rintro ⟨_, _, rfl, rfl, rfl⟩
    exact ⟨rfl, rfl⟩
  · rintro ⟨rfl, rfl⟩
    exact ⟨(), _, rfl, rfl, rfl⟩

theorem noted_eq_ok {w : Value} :
    noted loc v s = .ok w s' ↔ v = w ∧ { s with types := (loc, v.type) :: s.types } = s' := noting_eq_ok

theorem notePlace_eq_ok {q : Place} :
    notePlace loc p s = .ok q s' ↔ p = q ∧ { s with types := (loc, p.type) :: s.types } = s' := noting_eq_ok

theorem compute_eq_ok {operands : List Operand} : compute opcode qualifier type operands s = .ok v s' ↔
      ⟨.var type.encoding (UInt32.ofNat s.variableCount), type⟩ = v ∧
        emit opcode qualifier (v.operand :: operands) { s with variableCount := s.variableCount + 1 } = .ok () s' := by
  simp only [compute, bind_eq_ok, pure_eq_ok, temporary_eq_ok]
  constructor
  · rintro ⟨_, _, ⟨rfl, rfl⟩, _, _, h, rfl, rfl⟩
    exact ⟨rfl, h⟩
  · rintro ⟨rfl, h⟩
    exact ⟨_, _, ⟨rfl, rfl⟩, (), _, h, rfl, rfl⟩

theorem requireScalar_eq_ok : requireScalar v operator loc s = .ok u s' ↔ v.type.isScalar = true ∧ s = s' := by
  unfold requireScalar
  split <;> simp_all [pure_eq_ok, invalid_eq_ok]

theorem inferred_eq_ok {e : Expr} : inferred e s = .ok type s' ↔ typeOf s.scopes e = .ok type ∧ s = s' := by
  simp only [inferred, bind_eq_ok, get_eq_ok]
  constructor
  · rintro ⟨_, _, ⟨rfl, rfl⟩, h⟩
    cases found : typeOf s.scopes e <;> simp_all [pure_eq_ok, throw_eq_ok]
  · rintro ⟨h, rfl⟩
    exact ⟨_, _, ⟨rfl, rfl⟩, by simp [h, pure_eq_ok]⟩

theorem offset_eq_ok {n : UInt32} : offset s = .ok n s' ↔ Module.fitWord32 s.size "code section" = .ok n ∧ s = s' := by
  have reads : s.out.offset = Module.fitWord32 s.size "code section" := rfl
  simp only [offset, bind_eq_ok, get_eq_ok]
  constructor
  · rintro ⟨_, _, ⟨rfl, rfl⟩, h⟩
    rw [reads] at h
    cases found : Module.fitWord32 s.size "code section" <;> simp_all [pure_eq_ok, throw_eq_ok]
  · rintro ⟨h, rfl⟩
    exact ⟨_, _, ⟨rfl, rfl⟩, by simp [reads, h, pure_eq_ok]⟩

theorem exists_foldl_list (symbols : List Listed) (s : State) : ∃ out : Module.Output, out.codeSize = s.size ∧
    symbols.foldl State.list s = { s with out, symbols := symbols.reverse ++ s.symbols } := by
  induction symbols generalizing s with
  | nil => exact ⟨s.out, rfl, rfl⟩
  | cons symbol symbols ih =>
    obtain ⟨out, size, rest⟩ := ih (s.list symbol)
    refine ⟨out, size, rest.trans ?_⟩
    rw [List.reverse_cons, List.append_assoc]
    rfl

/-- The symbols of other modules come last, and have neither code nor numbers. -/
theorem program_steps {p : Program} (run : program p s = .ok u s') : ∃ t, ∃ out : Module.Output,
    p.forM topLevel s = .ok () t ∧ out.codeSize = t.size ∧
      s' = { t with out, symbols := (t.globals.reverse.filterMap external?).reverse ++ t.symbols } := by
  obtain ⟨_, t, made, listed⟩ := bind_eq_ok.1 run
  obtain ⟨out, size, rest⟩ := exists_foldl_list (t.globals.reverse.filterMap external?) t
  exact ⟨t, out, made, size, (modify_eq_ok.1 listed).symm.trans rest⟩

/-! ## Runs that follow a relation -/

/-- The state that a step leaves behind, whether it succeeds or fails. -/
def stateAfter (m : Lower α) (s : State) : State :=
  match m s with
  | .ok _ s' => s'
  | .error _ s' => s'

/-- Whatever a step does, it does by changes of the given kind. -/
def Follows (T : State → State → Prop) (m : Lower α) : Prop := ∀ s, Relation.ReflTransGen T s (stateAfter m s)

variable {T T' : State → State → Prop} {m : Lower α} {f : α → Lower β}

theorem Follows.of_ok (h : Follows T m) (run : m s = .ok a s') : Relation.ReflTransGen T s s' := by
  have hs := h s
  simpa only [stateAfter, run] using hs

theorem Follows.mono (h : Follows T m) (hT : ∀ s s', T s s' → T' s s') : Follows T' m :=
  fun s => Relation.ReflTransGen.mono hT _ _ (h s)

theorem follows_pure : Follows T (pure a : Lower α) := fun _ => .refl

theorem follows_throw : Follows T (throw e : Lower α) := fun _ => .refl

theorem follows_fail : Follows T (fail cause loc : Lower α) := follows_throw

theorem follows_unsupported : Follows T (unsupported what loc : Lower α) := follows_throw

theorem follows_invalid : Follows T (invalid operator operands loc : Lower α) := follows_throw

theorem follows_get : Follows T (get : Lower State) := fun _ => .refl

theorem follows_modify {g : State → State} (h : ∀ s, T s (g s)) :
    Follows T (modify g : Lower Unit) := fun s => .single (h s)

/-- Two steps one after the other, from one state.  The second may count on the run of the first. -/
theorem stateAfter_bind (hm : Relation.ReflTransGen T s (stateAfter m s))
    (hf : ∀ a t, m s = .ok a t → Relation.ReflTransGen T t (stateAfter (f a) t)) :
    Relation.ReflTransGen T s (stateAfter (m >>= f) s) := by
  show Relation.ReflTransGen T s (stateAfter (EStateM.bind m f) s)
  unfold stateAfter EStateM.bind at *
  cases run : m s with
  | error e t => simpa only [run] using hm
  | ok a t =>
    simp only [run] at hm ⊢
    exact hm.trans (hf a t run)

theorem follows_bind (hm : Follows T m) (hf : ∀ s a s', m s = .ok a s' → Follows T (f a)) : Follows T (m >>= f) :=
  fun s => stateAfter_bind (hm s) fun a t run => hf s a t run t

theorem follows_seq (hm : Follows T m) (hf : ∀ a, Follows T (f a)) : Follows T (m >>= f) :=
  follows_bind hm fun _ a _ _ => hf a

theorem follows_map {g : α → β} (hm : Follows T m) : Follows T (g <$> m) := by
  intro s
  have first := hm s
  show Relation.ReflTransGen T s (stateAfter (EStateM.map g m) s)
  unfold stateAfter EStateM.map at *
  cases run : m s <;> simpa only [run] using first

theorem follows_discard (hm : Follows T m) : Follows T (discard m) := follows_map hm

theorem follows_ite [Decidable c] (hm : Follows T m) (hm' : Follows T m') : Follows T (if c then m else m') := by
  split
  · exact hm
  · exact hm'

/-! ## Triples -/

section Triples

variable {m : Lower α} {f : α → Lower β}

/-- A successful run from a state with `P` ends in a result and a state with `Q`. -/
def Triple (P : State → Prop) (m : Lower α) (Q : α → State → Prop) : Prop := ∀ s a s', P s → m s = .ok a s' → Q a s'

variable {P : State → Prop} {Q : α → State → Prop} {R : β → State → Prop}

theorem triple_bind (hm : Triple P m Q) (hf : ∀ a, Triple (Q a) (f a) R) : Triple P (m >>= f) R := by
  intro s b s' hs run
  obtain ⟨a, t, first, second⟩ := bind_eq_ok.1 run
  exact hf a t b s' (hm s a t hs first) second

theorem triple_map {g : α → β} (hm : Triple P m fun a => R (g a)) : Triple P (g <$> m) R := by
  intro s b s' hs run
  obtain ⟨a, inner, rfl⟩ := map_eq_ok.1 run
  exact hm s a s' hs inner

theorem triple_ite {c : Prop} [Decidable c] {m' : Lower α} (hm : c → Triple P m Q)
    (hm' : ¬ c → Triple P m' Q) : Triple P (if c then m else m') Q := by
  split
  · exact hm ‹_›
  · exact hm' ‹_›

theorem triple_pure {a : α} (h : ∀ s, P s → Q a s) : Triple P (pure a) Q := by
  rintro s _ _ hs ⟨⟩
  exact h s hs

theorem triple_throw {e : LowerError} : Triple P (throw e : Lower α) Q := by
  rintro s a s' hs ⟨⟩

variable {loc : Location}

theorem triple_fail {cause : Fault} : Triple P (fail cause loc : Lower α) Q := triple_throw

theorem triple_unsupported {what : Unsupported} : Triple P (unsupported what loc : Lower α) Q := triple_throw

/-- A successful run keeps an invariant, and its result has a property. -/
def Gives (I : State → Prop) (m : Lower α) (Q : α → Prop) : Prop := Triple I m fun a s => I s ∧ Q a

variable {I : State → Prop}

theorem Follows.gives (h : Follows T m) (hT : ∀ s s', T s s' → I s → I s') : Gives I m fun _ => True := by
  intro s a s' hs run
  refine ⟨?_, trivial⟩
  have steps := h.of_ok run
  clear run
  induction steps with
  | refl => exact hs
  | tail _ step ih => exact hT _ _ step ih

end Triples

end Lowering

end Cof
