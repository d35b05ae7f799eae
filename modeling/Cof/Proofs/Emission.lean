/-
  Code is never torn.

  Making code may fail in the middle of a function, with scopes open and instructions planned that never
  come.  What was added until then stays, and more declarations may be lowered on top of it (`goOn`).
  Whatever the order of successes and failures, what stands on the tape is a list of whole instructions.
-/
import Cof.Proofs.Reach
import Cof.Proofs.Session

namespace Cof

/-- The end of what a record refers to: behind the code of a function, and at the start of an object,
which is a directive of its own. -/
def Module.SymbolRecord.extent (record : SymbolRecord) : Nat :=
  record.value.toNat + if record.kind = .function then record.size.toNat else 0

namespace Lowering

open Relation List

variable {α : Type} {s s' : State}

/-! ## Changes -/

def Listed.extent (symbol : Listed) : Nat :=
  symbol.value.toNat + if symbol.kind = .function then symbol.size.toNat else 0

/-- One change, as far as the module sees it. -/
inductive Emission (s : State) : State → Prop
  | push {i : Instr} {bytes : Bytes} (encodes : i.encode = .ok bytes) : Emission s (s.push i bytes)
  | refuse (written : Bytes) : Emission s (s.refuse written)
  | list {symbol : Listed} (inside : symbol.extent ≤ s.size) : Emission s (s.list symbol)
  | other {s' : State} (out : s'.out = s.out) (code : s'.code = s.code)
    (symbols : s'.symbols = s.symbols) : Emission s s'

theorem Emission.size_le (h : Emission s s') : s.size ≤ s'.size := by
  cases h with
  | push => rw [State.size_push]; exact Nat.le_add_right _ _
  | refuse | list => exact Nat.le_refl _
  | other out => exact Nat.le_of_eq (congrArg (·.codeSize) out.symm)

theorem Emission.code_suffix (h : Emission s s') : s.code <:+ s'.code := by
  cases h with
  | push => exact suffix_cons _ _
  | refuse | list => exact suffix_rfl
  | other _ code _ => exact code ▸ suffix_rfl

section Chains

variable (h : ReflTransGen Emission s s')
include h

theorem size_le_of_emissions : s.size ≤ s'.size := by
  induction h with
  | refl => exact Nat.le_refl _
  | tail _ change ih => exact Nat.le_trans ih change.size_le

theorem code_suffix_of_emissions : s.code <:+ s'.code := by
  induction h with
  | refl => exact suffix_rfl
  | tail _ change ih => exact ih.trans change.code_suffix

end Chains

/-- The module holds the code and the symbols so far, and no symbol goes beyond the code. -/
structure Balanced (s : State) : Prop where
  carries : s.out.Carries s.code.reverse s.symbols.reverse
  symbols : ∀ symbol ∈ s.symbols, symbol.extent ≤ s.size

theorem balanced_start : Balanced {} := ⟨Module.Writer.carries_start, forall_mem_nil _⟩

theorem Balanced.emission (h : Balanced s) (change : Emission s s') : Balanced s' := by
  obtain ⟨carries, symbols⟩ := h
  cases change with
  | @push i bytes encodes =>
    have code : (s.push i bytes).code.reverse = s.code.reverse ++ [i] := reverse_cons
    refine ⟨code ▸ carries.write encodes, fun symbol listed => ?_⟩
    rw [State.size_push]
    exact Nat.le_add_right_of_le (symbols symbol listed)
  | refuse written => exact ⟨carries.refuse written, symbols⟩
  | @list symbol inside =>
    have listed : (s.list symbol).symbols.reverse = s.symbols.reverse ++ [symbol] := reverse_cons
    exact ⟨listed ▸ carries.addSymbol symbol, forall_mem_cons.2 ⟨inside, symbols⟩⟩
  | other out code symbols' =>
    have size : s'.size = s.size := congrArg (·.codeSize) out
    refine ⟨?_, ?_⟩
    · rw [out, code, symbols']
      exact carries
    · rw [size, symbols']
      exact symbols

theorem Balanced.emissions (h : Balanced s) (changes : ReflTransGen Emission s s') : Balanced s' := by
  induction changes with
  | refl => exact h
  | tail _ change ih => exact ih.emission change

/-! ## Statements -/

theorem emits_modify {g : State → State} (out : ∀ s, (g s).out = s.out)
    (code : ∀ s, (g s).code = s.code) (symbols : ∀ s, (g s).symbols = s.symbols) :
    Follows Emission (modify g : Lower Unit) :=
  follows_modify fun s => .other (out s) (code s) (symbols s)

theorem emits_inLoop (labels : LoopLabels) {m : Lower Unit} (h : Follows Emission m) :
    Follows Emission (inLoop labels m) := by
  intro s
  have inside : Emission s { s with loops := labels :: s.loops } := .other rfl rfl rfl
  have body := h { s with loops := labels :: s.loops }
  have left : ∀ t : State, Emission t { t with loops := t.loops.tail } := fun t => .other rfl rfl rfl
  unfold stateAfter inLoop at *
  cases run : m { s with loops := labels :: s.loops } with
  | ok a t =>
    simp only [run] at body ⊢
    exact (ReflTransGen.single inside).trans (body.tail (left t))
  | error e t =>
    simp only [run] at body ⊢
    exact (ReflTransGen.single inside).trans (body.tail (left t))

theorem hosts_emission : Hosts Emission where
  growth s s' change := by
    cases change with
    | emit encodes _ => exact .push encodes
    | refuse written => exact .refuse written
    | freshVariable | freshLabel | noteType => exact .other rfl rfl rfl
  emit opcode qualifier operands := by
    have grows : Follows (Growth (fun _ => True) True) (emit opcode qualifier operands) := follows_emit trivial
    refine grows.mono fun s s' change => ?_
    cases change with
    | emit encodes _ => exact .push encodes
    | refuse written => exact .refuse written
    | freshVariable | freshLabel | noteType => exact .other rfl rfl rfl
  enterScope := emits_modify (fun _ => rfl) (fun _ => rfl) fun _ => rfl
  exitScope := emits_modify (fun _ => rfl) (fun _ => rfl) fun _ => rfl
  inLoop labels _ := emits_inLoop labels

/-! ## Declarations -/

theorem records_emission : Records .unbounded Emission where
  bindName {name type storage loc s} _ _ := by
    cases taken : s.scopes.lookupCurrent name with
    | none =>
      rw [stateAfter, Scopes.bindName_of_free taken]
      exact .single (.other rfl rfl rfl)
    | some symbol =>
      rw [stateAfter, Scopes.bindName_taken taken]
  addGlobal _ := emits_modify (fun _ => rfl) (fun _ => rfl) fun _ => rfl
  refineGlobal _ _ _ := emits_modify (fun _ => rfl) (fun _ => rfl) fun _ => rfl
  countStatic _ := .other rfl rfl rfl
  directive _ _ := hosts_emission.emit _ _ _
  defineObject {name v isStatic s} _ := by
    refine stateAfter_bind (follows_initialValue v s) fun value t _ => ?_
    refine stateAfter_bind (follows_offset t) fun start u run => ?_
    obtain ⟨fits, rfl⟩ := offset_eq_ok.1 run
    refine stateAfter_bind (hosts_emission.emit _ _ _ t) fun _ w run => ?_
    have grown := size_le_of_emissions ((hosts_emission.emit _ _ _).of_ok run)
    refine .single (.list ?_)
    show start.toNat + 0 ≤ w.size
    rw [(Module.fitWord32_eq_ok fits).2]
    exact grown

theorem emits_functionFrame (f : FunctionDecl) (body : List Stmt) : Follows Emission (functionFrame f body) :=
  records_emission.functionFrame hosts_emission (fun _ _ => trivial) fun d _ => Limits.unbounded_admits d

theorem extent_function {name : Name} {start stop : UInt32} {binding : Module.Binding}
    (ordered : start.toNat ≤ stop.toNat) :
    Listed.extent ⟨name, start, stop - start, .function, binding⟩ = stop.toNat := by
  have difference : (stop - start).toNat = stop.toNat - start.toNat :=
    UInt32.toNat_sub_of_le stop start (UInt32.le_iff_toNat_le.2 ordered)
  show start.toNat + (stop - start).toNat = stop.toNat
  omega

theorem emits_defineFunction (f : FunctionDecl) (body : List Stmt) : Follows Emission (defineFunction f body) := by
  intro s
  refine stateAfter_bind (follows_offset s) fun start t run => ?_
  obtain ⟨started, rfl⟩ := offset_eq_ok.1 run
  refine stateAfter_bind (hosts_emission.emit _ _ _ s) fun _ u run => ?_
  have named := size_le_of_emissions ((hosts_emission.emit _ _ _).of_ok run)
  refine stateAfter_bind .refl fun before t run => ?_
  obtain ⟨rfl, rfl⟩ := get_eq_ok.1 run
  have set : Emission u { u with returnType := some f.result, currentFunction := some f.name } := .other rfl rfl rfl
  refine stateAfter_bind (.single set) fun _ t run => ?_
  obtain rfl := set_eq_ok.1 run
  refine stateAfter_bind (emits_functionFrame f body _) fun _ t run => ?_
  have framed := size_le_of_emissions ((emits_functionFrame f body).of_ok run)
  have kept : u.size ≤ t.size := framed
  have back : Emission t { t with returnType := u.returnType, currentFunction := u.currentFunction } :=
    .other rfl rfl rfl
  refine stateAfter_bind (.single back) fun _ w run => ?_
  obtain rfl := modify_eq_ok.1 run
  refine stateAfter_bind (follows_offset _) fun stop w run => ?_
  obtain ⟨stopped, rfl⟩ := offset_eq_ok.1 run
  have first := (Module.fitWord32_eq_ok started).2
  have last : stop.toNat = t.size := (Module.fitWord32_eq_ok stopped).2
  have ordered : start.toNat ≤ stop.toNat := by omega
  refine .single (.list ?_)
  rw [extent_function ordered]
  exact Nat.le_of_eq last

theorem emits_topLevel (t : TopLevel) : Follows Emission (topLevel t) := by
  match t with
  | .declare (.proto f) => exact records_emission.declareFunction false trivial trivial
  | .declare (.var v) => exact records_emission.globalVariable trivial trivial
  | .define f body =>
    exact follows_seq (records_emission.declareFunction true trivial trivial) fun _ => emits_defineFunction f body

theorem emissions_list {symbols : List Listed} (outside : ∀ symbol ∈ symbols, symbol.extent = 0) (s : State) :
    ReflTransGen Emission s (symbols.foldl State.list s) := by
  induction symbols generalizing s with
  | nil => exact .refl
  | cons symbol symbols ih =>
    have first : Emission s (s.list symbol) := .list (outside symbol (mem_cons_self ..) ▸ Nat.zero_le _)
    exact .head first (ih (fun x mem => outside x (mem_cons_of_mem _ mem)) _)

theorem extent_external {g : Global} {symbol : Listed} (h : external? g = some symbol) : symbol.extent = 0 := by
  unfold external? at h
  split at h
  · cases h
  · obtain rfl := Option.some.inj h
    unfold Listed.extent
    split <;> rfl

theorem emits_topLevels (ts : List TopLevel) : Follows Emission (ts.forM topLevel) := by
  induction ts with
  | nil => exact follows_pure
  | cons t ts ih => exact follows_seq (emits_topLevel t) fun _ => ih

theorem emits_program (p : Program) : Follows Emission (program p) := by
  refine follows_seq (emits_topLevels p) fun _ s => emissions_list (fun symbol listed => ?_) s
  obtain ⟨g, -, found⟩ := mem_filterMap.1 listed
  exact extent_external found

/-- A program that has code has it in the module, with its symbols. -/
theorem carries_program {p : Program} (run : program p {} = .ok () s) :
    s.out.Carries s.code.reverse s.symbols.reverse :=
  (balanced_start.emissions ((emits_program p).of_ok run)).carries

/-! ## Going on after errors -/

/-- The state after some pieces of file scope, each lowered in the state that the one before left,
whether that one succeeded or failed. -/
def goOn (pieces : List TopLevel) (s : State) : State := pieces.foldl (fun s t => stateAfter (topLevel t) s) s

theorem goOn_append (first second : List TopLevel) (s : State) :
    goOn (first ++ second) s = goOn second (goOn first s) := foldl_append

theorem emissions_goOn (pieces : List TopLevel) (s : State) : ReflTransGen Emission s (goOn pieces s) := by
  induction pieces generalizing s with
  | nil => exact .refl
  | cons t rest ih => exact (emits_topLevel t s).trans (ih _)

theorem offset_eq_ok_iff {n : UInt32} : offset s = .ok n s' ↔ n.toNat = s.size ∧ s' = s := by
  rw [offset_eq_ok]
  constructor
  · rintro ⟨fits, rfl⟩
    exact ⟨(Module.fitWord32_eq_ok fits).2, rfl⟩
  · rintro ⟨same, rfl⟩
    have small : s'.size < 2 ^ 32 := same ▸ n.toNat_lt
    rw [Module.fitWord32_of_lt small, ← same, UInt32.ofNat_toNat]
    exact ⟨rfl, rfl⟩

/-- What stands on the tape behind the headers is the code so far, to its end, and the records do not go
beyond it. -/
structure Whole (s : State) : Prop where
  decodes : Instr.decodeStream (s.out.tape.bytes.toList.drop s.out.codeStart) = .ok (s.code.reverse.map Instr.normal)
  size : s.size = (s.out.tape.bytes.toList.drop s.out.codeStart).length
  stream : s.size = (Instr.encodeStream s.code.reverse).length
  atEnd : s.out.tape.position = s.out.tape.bytes.toList.length
  records : ∀ record ∈ s.out.records, record.extent ≤ s.size
  symbols : ∀ symbol ∈ s.symbols, symbol.extent ≤ s.size

theorem Balanced.tape (h : Balanced s) :
    s.out.tape.bytes.toList.drop s.out.codeStart = Instr.encodeStream s.code.reverse := by
  have front : (({} : Module.Header).toBytes ++ Module.Writer.start.codeSection.toBytes).length = s.out.codeStart := by
    rw [h.carries.codeStart]
    rfl
  rw [h.carries.bytes, ← append_assoc, ← front, drop_left]

theorem Balanced.whole (h : Balanced s) : Whole s where
  decodes := by rw [h.tape, Instr.decodeStream_encodeStream h.carries.encodable]
  size := by rw [h.tape, ← h.carries.codeSize_eq]; rfl
  stream := h.carries.codeSize_eq
  atEnd := h.carries.position
  records record mem := by
    obtain ⟨symbols, records, lists, -⟩ := h.carries.symbols
    rw [← mem_reverse, records] at mem
    obtain ⟨symbol, known, rfl⟩ := mem_map.1 mem
    obtain ⟨listed, held, _, rfl⟩ := exists_of_forall₂ lists known
    exact h.symbols listed (mem_reverse.1 held)
  symbols := h.symbols

theorem tape_prefix (h : Balanced s) (h' : Balanced s') (grows : s.code <:+ s'.code) :
    s.out.tape.bytes.toList <+: s'.out.tape.bytes.toList := by
  obtain ⟨more, code⟩ := grows
  rw [h.carries.bytes, h'.carries.bytes, ← code, reverse_append, Instr.encodeStream_append]
  simp only [← append_assoc]
  exact List.prefix_append _ _

/-- After any pieces of file scope, in any mixture of successes and failures: what stands on the tape
decodes to the normal forms of the instructions so far, the offset is its length, no symbol goes beyond it,
and more pieces only add to it.  An instruction that has no encoding is refused and leaves everything as it
was but the scratch buffer, in any session. -/
theorem goOn_never_torn (done more : List TopLevel) :
    Whole (goOn done {}) ∧
    (∀ n s, offset (goOn done {}) = .ok n s ↔ n.toNat = (goOn done {}).size ∧ s = goOn done {}) ∧
    (goOn done {}).size ≤ (goOn (done ++ more) {}).size ∧
    (goOn done {}).code <:+ (goOn (done ++ more) {}).code ∧
    (goOn done {}).out.tape.bytes.toList <+: (goOn (done ++ more) {}).out.tape.bytes.toList ∧
    (∀ (i : Instr) (f : EncodeFailure), i.encode = .error f → ∃ t : State,
      emit i.opcode i.qualifier i.operands (goOn done {}) = .error (.write (.encode f.cause)) t ∧
      t.out.tape = (goOn done {}).out.tape ∧ t.out.scratch = f.written ∧
      { t with out := (goOn done {}).out } = goOn done {}) ∧
    ∀ (w w' : Module.Writer) (i : Instr) (e : Module.WriteError), Module.Writer.writeInstr i w = .error e w' →
      { w' with scratch := w.scratch } = w := by
  have balanced := balanced_start.emissions (emissions_goOn done {})
  have later := balanced_start.emissions (emissions_goOn (done ++ more) {})
  have grows := emissions_goOn more (goOn done {})
  rw [← goOn_append] at grows
  have code := code_suffix_of_emissions grows
  refine ⟨balanced.whole, fun _ _ => offset_eq_ok_iff, size_le_of_emissions grows, code, tape_prefix balanced later code,
    fun i f fails => ⟨_, emit_of_error fails, rfl, rfl, rfl⟩, fun w w' i e refused => ?_⟩
  cases encodes : i.encode with
  | ok bytes => simp [Module.Writer.writeInstr, encodes] at refused
  | error f =>
    simp only [Module.Writer.writeInstr, encodes, EStateM.Result.error.injEq] at refused
    rw [← refused.2]
    rfl

end Lowering

end Cof
