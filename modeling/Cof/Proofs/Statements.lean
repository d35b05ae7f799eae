/-
  Code for statements does what the statements mean.

  A statement declares variables while its code is made, and code that stands earlier may run again after
  code that stands later.  So the set `V` of variables on which the machine and the evaluation agree is the
  same from beginning to end: it is chosen when all of the code is there.  What is said about a stretch of
  code is said for every `V` that fits the state behind it, where every variable that is numbered so far
  and is in `V` has been declared; and what fits a state fits the states before it.
-/
import Cof.Proofs.Performed

namespace Cof

open Lowering List

/-! ## Tables that grow -/

section Tables

variable {t t' : Scopes} {slots : Nat → UInt32} {V : UInt32 → Prop} {k k' : Nat}

def Scopes.Fits (t : Scopes) (slots : Nat → UInt32) : Prop := ∀ j < t.log.length, slots j = t.slotAt j

def Scopes.Numbered (t : Scopes) (k : Nat) : Prop :=
  ∀ entry ∈ t.log, ∀ id, entry.symbol.storage = .slot id → ∃ j < k, id = .ofNat j

/-- Of the first `k` variables, those in `V` are the ones that a table knows. -/
structure Scopes.Covered (t : Scopes) (V : UInt32 → Prop) (k : Nat) : Prop where
  few : k ≤ 2 ^ 32
  declared : ∀ j < k, V (.ofNat j) → ∃ entry ∈ t.log, entry.symbol.storage = .slot (.ofNat j)
  known : ∀ entry ∈ t.log, ∀ id, entry.symbol.storage = .slot id → V id

/-- A table comes from another one by declaring variables that are numbered from `k` up to `k'`, each
with a number of its own. -/
def Scopes.Extends (t' t : Scopes) (k k' : Nat) : Prop :=
  k ≤ k' ∧ ∃ (new : List Entry) (numbers : List Nat), t'.log = new ++ t.log ∧
    new.map (·.symbol.storage) = numbers.map (fun j => .slot (.ofNat j)) ∧
    numbers.Pairwise (· > ·) ∧ ∀ j ∈ numbers, k ≤ j ∧ j < k'

namespace Scopes

theorem extends_of_log (same : t'.log = t.log) (le : k ≤ k') : t'.Extends t k k' :=
  ⟨le, [], [], same, rfl, .nil, forall_mem_nil _⟩

theorem Extends.trans {t'' : Scopes} {k'' : Nat} (h : t'.Extends t k k') (h' : t''.Extends t' k' k'') :
    t''.Extends t k k'' := by
  obtain ⟨le, new, numbers, log, storage, increasing, range⟩ := h
  obtain ⟨le', new', numbers', log', storage', increasing', range'⟩ := h'
  refine ⟨le.trans le', new' ++ new, numbers' ++ numbers, ?_, ?_, ?_, ?_⟩
  · rw [log', log, append_assoc]
  · rw [map_append, map_append, storage, storage']
  · rw [pairwise_append]
    refine ⟨increasing', increasing, fun i hi j hj => ?_⟩
    have low := range' i hi
    have high := range j hj
    omega
  · intro j hj
    rcases mem_append.1 hj with hj | hj
    · have := range' j hj
      omega
    · have := range j hj
      omega

variable {name : Name} {entry : Entry}

theorem add_of_free (free : t.lookupCurrent name = none) (id : UInt32) :
    t.add name .int (.slot id) = (.ok ⟨name, .int, t.depth, .slot id⟩, t.declare name id) := by
  simp only [declare, add, free]

theorem declare_log (free : t.lookupCurrent name = none) (id : UInt32) :
    (t.declare name id).log = ⟨t.current, ⟨name, .int, t.depth, .slot id⟩⟩ :: t.log := by
  simp only [declare, add, free]

theorem slotAt_of_log {new : List Entry} (log : t'.log = new ++ t.log) {j : Nat}
    (hj : j < t.log.length) : t'.slotAt j = t.slotAt j := by
  have same : t'.log.reverse[j]? = t.log.reverse[j]? := by
    rw [log, reverse_append, List.getElem?_append_left (by simpa using hj)]
  rw [slotAt, slotAt, same]

section

variable (h : t'.Extends t k k')
include h

theorem Extends.fits (fits : t'.Fits slots) : t.Fits slots := by
  obtain ⟨-, new, -, log, -⟩ := h
  intro j hj
  rw [← slotAt_of_log log hj]
  exact fits j (by rw [log, length_append]; omega)

theorem Extends.slotAt (few : k' ≤ 2 ^ 32) {i : Nat} (hi : t.log.length ≤ i)
    (hi' : i < t'.log.length) : k ≤ (t'.slotAt i).toNat ∧
      ∀ j, i < j → j < t'.log.length → (t'.slotAt i).toNat < (t'.slotAt j).toNat := by
  obtain ⟨-, new, numbers, log, storage, decreasing, range⟩ := h
  have size : t'.log.length = numbers.length + t.log.length := by
    have same := congrArg List.length storage
    rw [length_map, length_map] at same
    rw [log, length_append, same]
  -- Counted from the older end, the new variables stand in the order of their numbers.
  have slot : ∀ i, t.log.length ≤ i → i < t'.log.length → ∃ n, numbers.reverse[i - t.log.length]? = some n ∧
      (t'.slotAt i).toNat = n := by
    intro i low high
    have inside : i - t.log.length < numbers.reverse.length := by
      rw [length_reverse]
      omega
    obtain ⟨n, found⟩ : ∃ n, numbers.reverse[i - t.log.length]? = some n := ⟨_, List.getElem?_eq_getElem inside⟩
    have used : n ∈ numbers := mem_reverse.1 (mem_of_getElem? found)
    have entry : (t'.log.reverse[i]?).map (·.symbol.storage) = some (.slot (.ofNat n)) := by
      rw [log, reverse_append, List.getElem?_append_right (by simpa using low), length_reverse,
        ← List.getElem?_map, map_reverse, storage, ← map_reverse, List.getElem?_map, found]
      rfl
    obtain ⟨⟨_, _, _, _, _⟩, there, rfl⟩ := Option.map_eq_some_iff.1 entry
    refine ⟨n, found, ?_⟩
    rw [Scopes.slotAt, there]
    exact UInt32.toNat_ofNat_of_lt' (Nat.lt_of_lt_of_le (range n used).2 few)
  have increasing : numbers.reverse.Pairwise (· < ·) := pairwise_reverse.2 decreasing
  obtain ⟨n, found, same⟩ := slot i hi hi'
  rw [same]
  refine ⟨(range n (mem_reverse.1 (mem_of_getElem? found))).1, fun j hj hj' => ?_⟩
  obtain ⟨n', found', same'⟩ := slot j (by omega) hj'
  rw [same']
  obtain ⟨inside, rfl⟩ := List.getElem?_eq_some_iff.1 found
  obtain ⟨inside', rfl⟩ := List.getElem?_eq_some_iff.1 found'
  exact pairwise_iff_getElem.1 increasing _ _ inside inside' (by omega)

theorem Extends.mem (listed : entry ∈ t'.log) :
    entry ∈ t.log ∨ ∃ j, k ≤ j ∧ j < k' ∧ entry.symbol.storage = .slot (.ofNat j) := by
  obtain ⟨-, new, numbers, log, storage, -, range⟩ := h
  rw [log] at listed
  rcases mem_append.1 listed with fresh | old
  · have named : entry.symbol.storage ∈ numbers.map fun j => Storage.slot (.ofNat j) := by
      rw [← storage]
      exact mem_map_of_mem fresh
    obtain ⟨j, hj, same⟩ := mem_map.1 named
    exact .inr ⟨j, (range j hj).1, (range j hj).2, same.symm⟩
  · exact .inl old

theorem Extends.subset (listed : entry ∈ t.log) : entry ∈ t'.log := by
  obtain ⟨-, new, -, log, -⟩ := h
  rw [log]
  exact mem_append_right new listed

theorem Extends.numbered (numbered : t.Numbered k) : t'.Numbered k' := by
  intro entry listed id slot
  rcases h.mem listed with old | ⟨j, -, high, fresh⟩
  · obtain ⟨j, low, same⟩ := numbered entry old id slot
    exact ⟨j, Nat.lt_of_lt_of_le low h.1, same⟩
  · exact ⟨j, high, Storage.slot.inj (slot.symm.trans fresh)⟩

theorem Extends.covered (covered : t'.Covered V k') : t.Covered V k where
  few := h.1.trans covered.few
  declared j hj used := by
    have few := covered.few
    have le := h.1
    obtain ⟨entry, listed, slot⟩ := covered.declared j (by omega) used
    rcases h.mem listed with old | ⟨i, low, high, fresh⟩
    · exact ⟨entry, old, slot⟩
    · have same : UInt32.ofNat j = UInt32.ofNat i := Storage.slot.inj (slot.symm.trans fresh)
      exact absurd same (ofNat_ne (by omega) (by omega) (by omega))
  known entry listed id slot := covered.known entry (h.subset listed) id slot

end

end Scopes

end Tables

/-! ## Steps that succeed -/

namespace Lowering

/-- A state comes from another one by adding code and declaring variables. -/
structure Adds (s s' : State) (part : List Instr) : Prop where
  code : s'.code = part.reverse ++ s.code
  loops : s'.loops = s.loops
  returnType : s'.returnType = s.returnType
  names : s'.scopes.Extends s.scopes s.variableCount s'.variableCount

/-- A step succeeds; it only adds code and declares variables. -/
def Makes {α : Type} (s : State) (m : Lower α) (Q : α → State → List Instr → Prop) : Prop :=
  ∃ a s' part, m s = .ok a s' ∧ Adds s s' part ∧ Q a s' part

section Rules

variable {α β : Type} {s s' t : State} {part more : List Instr} {m : Lower α} {f : α → Lower β}
  {Q R : α → State → List Instr → Prop} {P : β → State → List Instr → Prop}

theorem Adds.trans (h : Adds s t part) (h' : Adds t s' more) : Adds s s' (part ++ more) where
  code := by rw [h'.code, h.code, reverse_append, append_assoc]
  loops := h'.loops.trans h.loops
  returnType := h'.returnType.trans h.returnType
  names := h.names.trans h'.names

theorem adds_refl (s : State) : Adds s s [] := ⟨rfl, rfl, rfl, Scopes.extends_of_log rfl (Nat.le_refl _)⟩

theorem adds_emit (s : State) (i : Instr) (bytes : Bytes) : Adds s (s.push i bytes) [i] :=
  ⟨rfl, rfl, rfl, Scopes.extends_of_log rfl (Nat.le_refl _)⟩

theorem Makes.mono (h : Makes s m R) (sub : ∀ a s' part, Adds s s' part → R a s' part → Q a s' part) : Makes s m Q := by
  obtain ⟨a, s', part, run, adds, good⟩ := h
  exact ⟨a, s', part, run, adds, sub a s' part adds good⟩

variable {a : α} {opcode : Opcode} {qualifier : Qualifier} {operands : List Operand}

theorem makes_pure (h : Q a s []) : Makes s (pure a) Q := ⟨a, s, [], rfl, adds_refl s, h⟩

theorem makes_bind (first : Makes s m R) (second : ∀ a s₁ part, Adds s s₁ part → R a s₁ part →
      Makes s₁ (f a) fun b s₂ more => P b s₂ (part ++ more)) : Makes s (m >>= f) P := by
  obtain ⟨a, s₁, part, run, adds, good⟩ := first
  obtain ⟨b, s₂, more, run₂, adds₂, good₂⟩ := second a s₁ part adds good
  exact ⟨b, s₂, part ++ more, bind_eq_ok.2 ⟨a, s₁, run, run₂⟩, adds.trans adds₂, good₂⟩

theorem makes_skip (run : m s = .ok a t) (adds : Adds s t []) (rest : Makes t (f a) P) : Makes s (m >>= f) P := by
  obtain ⟨b, s₂, more, run₂, adds₂, good₂⟩ := rest
  exact ⟨b, s₂, more, bind_eq_ok.2 ⟨a, t, run, run₂⟩, adds.trans adds₂, good₂⟩

theorem makes_emit {Q : Unit → State → List Instr → Prop} (fits : Instr.fits ⟨opcode, qualifier, operands⟩ = true)
    (h : ∀ bytes, Q () (s.push ⟨opcode, qualifier, operands⟩ bytes) [⟨opcode, qualifier, operands⟩]) :
    Makes s (emit opcode qualifier operands) Q := by
  obtain ⟨bytes, encodes⟩ := Instr.encode_of_fits fits
  exact ⟨(), _, _, emit_eq_ok.2 ⟨bytes, encodes, rfl⟩, adds_emit s _ _, h bytes⟩

theorem makes_emit_bind {f : Unit → Lower β} (fits : Instr.fits ⟨opcode, qualifier, operands⟩ = true)
    (rest : ∀ bytes, Makes (s.push ⟨opcode, qualifier, operands⟩ bytes) (f ())
      fun b s₂ more => P b s₂ (⟨opcode, qualifier, operands⟩ :: more)) :
    Makes s (emit opcode qualifier operands >>= f) P := by
  obtain ⟨bytes, encodes⟩ := Instr.encode_of_fits fits
  obtain ⟨b, s₂, more, run₂, adds₂, good₂⟩ := rest bytes
  exact ⟨b, s₂, _, bind_eq_ok.2 ⟨_, _, emit_eq_ok.2 ⟨bytes, encodes, rfl⟩, run₂⟩, (adds_emit s _ _).trans adds₂, good₂⟩

theorem makes_freshLabel {f : Int32 → Lower β} (rest : ∀ l, Makes { s with labelCount := s.labelCount + 1 } (f l) P) :
    Makes s (freshLabel >>= f) P :=
  makes_skip (freshLabel_eq_ok.2 ⟨rfl, rfl⟩) ⟨rfl, rfl, rfl, Scopes.extends_of_log rfl (Nat.le_refl _)⟩ (rest _)

theorem makes_inLoop_bind {labels : LoopLabels} (body : Makes { s with loops := labels :: s.loops } m R)
    (rest : ∀ a s₁ part, Adds { s with loops := labels :: s.loops } s₁ part → R a s₁ part →
      Makes { s₁ with loops := s.loops } (f a) fun b s₂ more => P b s₂ (part ++ more)) :
    Makes s (inLoop labels m >>= f) P := by
  obtain ⟨a, s₁, part, run, adds, good⟩ := body
  refine makes_bind (R := fun a' s' part' => a' = a ∧ s' = { s₁ with loops := s.loops } ∧ part' = part)
    ⟨a, { s₁ with loops := s.loops }, part, ?_, ⟨adds.code, rfl, adds.returnType, adds.names⟩, rfl, rfl, rfl⟩
    ?_
  · have left : s₁.loops.tail = s.loops := by rw [adds.loops, tail_cons]
    simp only [inLoop, run, left]
  · rintro _ _ _ - ⟨rfl, rfl, rfl⟩
    exact rest _ s₁ _ adds good

end Rules

/-! ## Code for expressions and declarations -/

variable {s s' : State} {part : List Instr} {e : Expr}

/-- Code in these loops does what something means, and the names behind it are as they should be. -/
def Realizes (loops : List LoopLabels) (s' : State) (part : List Instr) (after : (Nat → UInt32) → Scopes)
    (meaning : Alu → (Nat → UInt32) → Store → Outcome → Store → Prop) : Prop :=
  ∀ slots, s'.scopes.Fits slots → s'.scopes = after slots ∧
    ∀ alu V, s'.scopes.Covered V s'.variableCount → Performs alu V loops (meaning alu slots) part

theorem makes_value (numbered : s.scopes.Numbered s.variableCount) (int : IntExpr s.scopes e) :
    Makes s (value e) fun v s' part => ∃ r, v = intValue r ∧ s'.scopes = s.scopes ∧
      ∀ alu V, s'.scopes.Covered V s'.variableCount → Evaluates alu V s.scopes e (intVar r) part := by
  obtain ⟨r, s', part, run, same, code, le, computes⟩ := exists_computes int
  have changes := ((follows_value e).changeOpen (ofProgram_open [])).of_ok run
  have names : s'.scopes.Extends s.scopes s.variableCount s'.variableCount := Scopes.extends_of_log (by rw [same]) le
  refine ⟨_, s', part, run, ⟨code, loops_of_changes changes, returnType_of_changes changes, names⟩,
    r, rfl, same, fun alu V covered => ?_⟩
  have named : ∀ name id, s.scopes.intSlot? name = some id → V id := by
    intro name id bound
    obtain ⟨symbol, found, -, slot⟩ := Scopes.lookup_of_intSlot? bound
    obtain ⟨entry, listed, rfl⟩ := Scopes.lookup_mem found
    exact covered.known entry (names.subset listed) id slot
  obtain ⟨r', result, computes⟩ := computes (.calling alu) V named
  have operand : intVar r = intVar r' := congrArg Value.operand result
  rw [operand]
  refine computes.evaluates ⟨covered.few, fun j low high used => ?_⟩
  -- A variable of the expression would have to be declared, but its number is new.
  obtain ⟨entry, listed, slot⟩ := covered.declared j high used
  obtain ⟨i, hi, equal⟩ := numbered entry (same ▸ listed) _ slot
  have few := covered.few
  exact ofNat_ne (by omega) (by omega) (by omega) equal

theorem makes_conditionValue (numbered : s.scopes.Numbered s.variableCount) (int : IntExpr s.scopes e) :
    Makes s (conditionValue e) fun v s' part => ∃ r, v = intValue r ∧ s'.scopes = s.scopes ∧
      ∀ alu V, s'.scopes.Covered V s'.variableCount → Evaluates alu V s.scopes e (intVar r) part := by
  refine makes_bind (makes_value numbered int) ?_
  rintro _ s₁ part - ⟨r, rfl, same, evaluates⟩
  refine makes_skip rfl (adds_refl s₁) (makes_pure ?_)
  rw [append_nil]
  exact ⟨r, rfl, same, evaluates⟩

theorem makes_discard_value (numbered : s.scopes.Numbered s.variableCount) (int : IntExpr s.scopes e) :
    Makes s (discard (value e)) fun _ s' part =>
      Realizes s.loops s' part (fun _ => s.scopes) fun alu _ => Effect (evalEffect alu s.scopes (some e)) := by
  obtain ⟨v, s', part, run, adds, r, -, same, evaluates⟩ := makes_value numbered int
  refine ⟨(), s', part, discard_eq_ok.2 ⟨v, run⟩, adds, fun slots _ => ⟨same, fun alu V covered => ?_⟩⟩
  exact (evaluates alu V covered).performs

/-! ## Declarations -/

def declaring (s : State) (name : Name) : State :=
  { s with
    variableCount := s.variableCount + 1
    scopes := s.scopes.declare name (.ofNat s.variableCount) }

variable {name : Name}

theorem adds_declaring (free : s.scopes.lookupCurrent name = none) : Adds s (declaring s name) [] := by
  refine ⟨rfl, rfl, rfl, Nat.le_succ _, [_], [s.variableCount], Scopes.declare_log free _, rfl,
    pairwise_singleton _ _, ?_⟩
  simp [declaring]

theorem makes_declare_bind {β : Type} {loc : Location} {f : UInt32 → Lower β}
    {P : β → State → List Instr → Prop} (free : s.scopes.lookupCurrent name = none)
    (rest : Makes (declaring s name) (f (.ofNat s.variableCount)) P) :
    Makes s (freshVariable >>= fun id => bindName name .int (.slot id) loc >>= fun _ => f id) P := by
  obtain ⟨b, s', part, run, adds, good⟩ := rest
  have binds : bindName name .int (.slot (.ofNat s.variableCount)) loc
      { s with variableCount := s.variableCount + 1 } = .ok () (declaring s name) := by
    refine bind_eq_ok.2 ⟨_, _, get_eq_ok.2 ⟨rfl, rfl⟩, ?_⟩
    simp only [Scopes.add_of_free free]
    rfl
  refine ⟨b, s', part, ?_, (adds_declaring free).trans adds, good⟩
  exact bind_eq_ok.2 ⟨_, _, freshVariable_eq_ok.2 ⟨rfl, rfl⟩, bind_eq_ok.2 ⟨(), _, binds, run⟩⟩

theorem slot_of_declaring (free : s.scopes.lookupCurrent name = none)
    {slots : Nat → UInt32} (fits : (declaring s name).scopes.Fits slots) :
    slots s.scopes.log.length = .ofNat s.variableCount := by
  have log : (declaring s name).scopes.log = _ := Scopes.declare_log free _
  rw [fits _ (by rw [log, length_cons]; omega), Scopes.slotAt, log, reverse_cons,
    List.getElem?_append_right (by simp)]
  simp

theorem makes_localDeclaration {d : Declaration} (numbered : s.scopes.Numbered s.variableCount)
    (int : ∀ slots, s.scopes.Fits slots → IntDeclaration slots s.scopes d) :
    Makes s (localDeclaration d) fun _ s' part => Realizes s.loops s' part (d.after · s.scopes)
      fun alu slots => Effect (d.exec alu slots s.scopes) := by
  obtain ⟨name, init, loc, rfl, free⟩ : ∃ name init loc,
      d = .var ⟨name, .int, some init, .plain, loc⟩ ∧ s.scopes.lookupCurrent name = none := by
    have shape := int s.scopes.slotAt fun _ _ => rfl
    rcases d with ⟨name, type, _ | init, linkage, loc⟩ | f
    · cases shape
    · obtain ⟨rfl, rfl, free, -⟩ := shape
      exact ⟨name, init, loc, rfl, free⟩
    · cases shape
  have names := (adds_declaring free).names
  have after : ∀ slots, (declaring s name).scopes.Fits slots →
      Declaration.after slots s.scopes (.var ⟨name, .int, some init, .plain, loc⟩) = (declaring s name).scopes := by
    intro slots fits
    rw [Declaration.after, slot_of_declaring free fits]
    rfl
  have initInt : IntExpr (declaring s name).scopes init := by
    have fits : (declaring s name).scopes.Fits (declaring s name).scopes.slotAt := fun _ _ => rfl
    rw [← after _ fits]
    exact (int _ (names.fits fits)).2.2.2
  show Makes s (localAutomatic ⟨name, .int, some init, .plain, loc⟩) _
  refine makes_declare_bind free ?_
  refine makes_bind (R := fun v s₁ part => v = intVar s.variableCount ∧ ∃ size,
    s₁ = (declaring s name).push ⟨.var, .none, [intVar s.variableCount, .size CType.int.size]⟩ size ∧
      part = [⟨.var, .none, [intVar s.variableCount, .size CType.int.size]⟩])
    (makes_emit_bind rfl fun size => makes_pure ⟨rfl, size, rfl, rfl⟩) ?_
  rintro _ _ _ - ⟨rfl, size, rfl, rfl⟩
  refine makes_bind (makes_value (names.numbered numbered) initInt) ?_
  rintro _ s₁ part adds ⟨r, rfl, same, evaluates⟩
  refine makes_skip rfl (adds_refl s₁) (makes_emit rfl fun size => ?_)
  intro slots fits
  have fitsBefore := adds.names.fits fits
  refine ⟨same.trans (after slots fitsBefore).symm, fun alu V covered => ?_⟩
  have meaning : Declaration.exec alu slots s.scopes (.var ⟨name, .int, some init, .plain, loc⟩) =
      fun σ => (eval alu (declaring s name).scopes init σ).map fun r =>
        Function.update r.2 (.ofNat s.variableCount) r.1 := by
    funext σ
    rw [Declaration.exec, after slots fitsBefore, slot_of_declaring free fitsBefore]
  show Performs alu V s.loops (Effect (Declaration.exec alu slots s.scopes _)) _
  rw [meaning]
  exact (evaluates alu V covered).performs_create [intVar s.variableCount, .size CType.int.size] .i32
    (.ofNat s.variableCount)

theorem makes_localDeclarations {ds : List Declaration} (numbered : s.scopes.Numbered s.variableCount)
    (int : ∀ slots, s.scopes.Fits slots → IntDeclarations slots s.scopes ds) :
    Makes s (localDeclarations ds) fun _ s' part =>
      Realizes s.loops s' part (fun slots => ds.foldl (Declaration.after slots) s.scopes)
        fun alu slots => Effect (execDeclarations alu slots s.scopes ds) := by
  induction ds generalizing s with
  | nil =>
    exact makes_pure fun _ _ => ⟨rfl, fun _ _ _ => performs_effect_nil⟩
  | cons d ds ih =>
    refine makes_bind (makes_localDeclaration numbered fun slots fits => (int slots fits).1) ?_
    intro _ s₁ part adds first
    have restInt : ∀ slots, s₁.scopes.Fits slots → IntDeclarations slots s₁.scopes ds := by
      intro slots fits
      rw [(first slots fits).1]
      exact (int slots (adds.names.fits fits)).2
    have numbered₁ := adds.names.numbered numbered
    refine (ih numbered₁ restInt).mono fun _ s₂ more adds₂ second slots fits => ?_
    have fits₁ := adds₂.names.fits fits
    obtain ⟨after, performs⟩ := first slots fits₁
    obtain ⟨after₂, performs₂⟩ := second slots fits
    refine ⟨by rw [after₂, after]; rfl, fun alu V covered => ?_⟩
    have one := performs alu V (adds₂.names.covered covered)
    have others := performs₂ alu V covered
    rw [adds.loops, after] at others
    rintro σ o σ' τ ⟨effect, rfl⟩ agree
    obtain ⟨σ₁, executes, rest⟩ := Option.bind_eq_some_iff.1 effect
    exact performs_effect_append one others σ .normal σ' τ ⟨σ₁, executes, rest, rfl⟩ agree

/-! ## Statements -/

theorem adds_enterScope (s : State) : Adds s { s with scopes := s.scopes.enter } [] :=
  ⟨rfl, rfl, rfl, Scopes.extends_of_log rfl (Nat.le_refl _)⟩

theorem adds_exitScope (s : State) : Adds s { s with scopes := s.scopes.exit } [] :=
  ⟨rfl, rfl, rfl, Scopes.extends_of_log s.scopes.exit_log (Nat.le_refl _)⟩

theorem makes_forInit {init : Option ForInit} (numbered : s.scopes.Numbered s.variableCount)
    (int : ∀ slots, s.scopes.Fits slots → IntInit slots s.scopes init) :
    Makes s (forInit init) fun _ s' part => Realizes s.loops s' part (afterInit · s.scopes init)
      fun alu slots => Effect (execInit alu slots s.scopes init) := by
  match init, int with
  | none, _ =>
    exact makes_pure fun _ _ => ⟨rfl, fun _ _ _ => performs_effect_nil⟩
  | some (.expr _ e), int => exact makes_discard_value numbered (int s.scopes.slotAt fun _ _ => rfl)
  | some (.decls _ ds), int => exact makes_localDeclarations numbered int

theorem makes_forTest (cond : Option Expr) (done : Int32) (numbered : s.scopes.Numbered s.variableCount)
    (int : ∀ e ∈ cond, IntExpr s.scopes e) :
    Makes s (forTest cond done) fun _ s' part => s'.scopes = s.scopes ∧
      ∀ alu V, s'.scopes.Covered V s'.variableCount → Tests alu V (evalTest alu s.scopes cond) done part := by
  match cond with
  | none => exact makes_pure ⟨rfl, fun alu V _ => tests_nil⟩
  | some e =>
    refine makes_bind (makes_conditionValue numbered (int e rfl)) ?_
    rintro _ s₁ part - ⟨r, rfl, same, evaluates⟩
    refine makes_emit_bind rfl fun _ => makes_emit rfl fun _ => ⟨same, fun alu V covered => ?_⟩
    exact (evaluates alu V covered).tests

theorem makes_forStep {step : Option Expr} (numbered : s.scopes.Numbered s.variableCount)
    (int : ∀ e ∈ step, IntExpr s.scopes e) :
    Makes s (forStep step) fun _ s' part => Realizes s.loops s' part (fun _ => s.scopes)
      fun alu _ => Effect (evalEffect alu s.scopes step) := by
  match step with
  | none =>
    exact makes_pure fun _ _ => ⟨rfl, fun _ _ _ => performs_effect_nil⟩
  | some e => exact makes_discard_value numbered (int e rfl)

/-- Code is made for a statement, wherever it is one over automatic `int`s, and does what it means. -/
def Made (st : Stmt) : Prop :=
  ∀ (s : State) t loops result, s.scopes = t → s.loops = loops → s.returnType = result →
    s.scopes.Numbered s.variableCount →
    (∀ slots, t.Fits slots → IntStmt slots result (!loops.isEmpty) t st) →
    Makes s (statement st) fun _ s' part =>
      Realizes loops s' part (st.after · t) fun alu slots => Exec alu slots t st

def AllMade (body : List Stmt) : Prop :=
  ∀ (s : State) t loops result, s.scopes = t → s.loops = loops → s.returnType = result →
    s.scopes.Numbered s.variableCount →
    (∀ slots, t.Fits slots → IntStmts slots result (!loops.isEmpty) t body) →
    Makes s (statements body) fun _ s' part =>
      Realizes loops s' part (Stmt.afterAll · t body) fun alu slots => ExecAll alu slots t body

section Made

variable {loc : Location} {cond : Expr} {yes no body : Stmt} {stmts : List Stmt}

theorem allMade_nil : AllMade [] := by
  rintro s _ _ _ rfl rfl rfl numbered int
  exact makes_pure fun slots _ => ⟨rfl, fun alu V _ => performs_nil⟩

theorem allMade_cons (first : Made body) (rest : AllMade stmts) : AllMade (body :: stmts) := by
  rintro s _ _ _ rfl rfl rfl numbered int
  refine makes_bind (first s _ _ _ rfl rfl rfl numbered fun slots fits => (int slots fits).1) ?_
  intro _ s₁ part adds realizes
  have numbered₁ := adds.names.numbered numbered
  refine (rest s₁ _ _ _ rfl adds.loops adds.returnType numbered₁ ?_).mono ?_
  · intro slots fits
    rw [(realizes slots fits).1]
    exact (int slots (adds.names.fits fits)).2
  · intro _ s₂ more adds₂ realizes₂ slots fits
    obtain ⟨after, performs⟩ := realizes slots (adds₂.names.fits fits)
    obtain ⟨after₂, performs₂⟩ := realizes₂ slots fits
    rw [after] at after₂ performs₂
    refine ⟨after₂, fun alu V covered => ?_⟩
    exact performs_append (performs alu V (adds₂.names.covered covered)) (performs₂ alu V covered)

theorem made_block (h : AllMade stmts) : Made (.block loc stmts) := by
  rintro s _ _ _ rfl rfl rfl numbered int
  refine makes_skip rfl (adds_enterScope s) (makes_emit_bind rfl fun _ => ?_)
  refine makes_bind (h _ _ _ _ rfl rfl rfl numbered int) ?_
  intro _ s₁ part adds realizes
  refine makes_emit_bind rfl fun _ => ⟨(), _, [], rfl, adds_exitScope _, fun slots fits => ?_⟩
  have closing := (adds_exitScope s₁).names
  obtain ⟨after, performs⟩ := realizes slots (closing.fits fits)
  refine ⟨congrArg Scopes.exit after, fun alu V covered => ?_⟩
  exact performs_scope (performs alu V (closing.covered covered))

theorem made_empty : Made (.empty loc) := by
  rintro s _ _ _ rfl rfl rfl numbered int
  exact makes_pure fun slots _ => ⟨rfl, fun alu V _ => performs_nil⟩

theorem made_ifElse (hy : Made yes) (hn : Made no) : Made (.ifElse loc cond yes no) := by
  rintro s _ _ _ rfl rfl rfl numbered int
  have condInt : IntExpr s.scopes cond := (int s.scopes.slotAt fun _ _ => rfl).1
  refine makes_bind (makes_conditionValue numbered condInt) ?_
  rintro _ s₁ first adds₁ ⟨r, rfl, same, evaluates⟩
  have numbered₁ := adds₁.names.numbered numbered
  refine makes_freshLabel fun other => makes_freshLabel fun done => ?_
  refine makes_emit_bind rfl fun _ => makes_emit_bind rfl fun _ => ?_
  refine makes_bind (hy _ _ _ _ same adds₁.loops adds₁.returnType numbered₁ fun slots fits => (int slots fits).2.1) ?_
  intro _ s₂ second adds₂ realizes₂
  have numbered₂ := adds₂.names.numbered numbered₁
  have loops₂ : s₂.loops = s.loops := adds₂.loops.trans adds₁.loops
  have result₂ : s₂.returnType = s.returnType := adds₂.returnType.trans adds₁.returnType
  refine makes_emit_bind rfl fun _ => makes_emit_bind (Instr.label_fits _) fun _ => ?_
  refine makes_bind (hn _ s₂.scopes _ _ rfl loops₂ result₂ numbered₂ ?_) ?_
  · intro slots fits
    rw [(realizes₂ slots fits).1]
    exact (int slots (same ▸ adds₂.names.fits fits)).2.2
  intro _ s₃ third adds₃ realizes₃
  refine makes_emit (Instr.label_fits _) fun _ slots fits => ?_
  obtain ⟨after, performs⟩ := realizes₂ slots (adds₃.names.fits fits)
  obtain ⟨after', performs'⟩ := realizes₃ slots fits
  rw [after] at after' performs'
  refine ⟨after', fun alu V covered => ?_⟩
  have covered₂ := adds₃.names.covered covered
  have test := evaluates alu V (adds₂.names.covered covered₂)
  exact performs_ifElse test (performs alu V covered₂) (performs' alu V covered)

theorem made_ifThen (hy : Made yes) : Made (.ifThen loc cond yes) := by
  intro s t loops result scopes inLoops returns numbered int
  have made : Makes s (statement (.ifElse loc cond yes (.empty loc))) _ :=
    made_ifElse hy made_empty s t loops result scopes inLoops returns numbered fun slots fits =>
      ⟨(int slots fits).1, (int slots fits).2, trivial⟩
  exact made

theorem made_whileLoop (hb : Made body) : Made (.whileLoop loc cond body) := by
  rintro s _ _ _ rfl rfl rfl numbered int
  have condInt : ∀ e ∈ some cond, IntExpr s.scopes e := by
    rintro _ ⟨⟩
    exact (int s.scopes.slotAt fun _ _ => rfl).1
  refine makes_freshLabel fun start => makes_freshLabel fun done => ?_
  refine makes_emit_bind (Instr.label_fits _) fun _ => ?_
  refine makes_bind (makes_forTest (some cond) done numbered condInt) ?_
  rintro _ s₁ first adds₁ ⟨same, tests⟩
  have numbered₁ := adds₁.names.numbered numbered
  refine makes_inLoop_bind (hb _ _ _ _ same (congrArg (_ :: ·) adds₁.loops) adds₁.returnType numbered₁
    fun slots fits => (int slots fits).2) ?_
  intro _ s₂ second adds₂ realizes
  refine makes_emit_bind rfl fun _ => makes_emit (Instr.label_fits _) fun _ slots fits => ?_
  obtain ⟨after, performs⟩ := realizes slots fits
  refine ⟨after, fun alu V covered => ?_⟩
  have test := tests alu V (adds₂.names.covered covered)
  have loop : Performs alu V s.loops _ _ := performs_testFirst test (performs alu V covered).laps
  rw [append_assoc] at loop
  exact loop

theorem made_doWhile (hb : Made body) : Made (.doWhile loc body cond) := by
  rintro s _ _ _ rfl rfl rfl numbered int
  refine makes_freshLabel fun start => makes_freshLabel fun next => makes_freshLabel fun done => ?_
  refine makes_emit_bind (Instr.label_fits _) fun _ => ?_
  refine makes_inLoop_bind (hb _ s.scopes (⟨next, done⟩ :: s.loops) s.returnType rfl rfl rfl numbered
    fun slots fits => (int slots fits).1) ?_
  intro _ s₁ first adds₁ realizes
  have numbered₁ := adds₁.names.numbered numbered
  have condInt : IntExpr s₁.scopes cond := by
    have fits : s₁.scopes.Fits s₁.scopes.slotAt := fun _ _ => rfl
    rw [(realizes _ fits).1]
    exact (int _ (adds₁.names.fits fits)).2
  refine makes_emit_bind (Instr.label_fits _) fun _ => ?_
  refine makes_bind (makes_conditionValue numbered₁ condInt) ?_
  rintro _ s₂ second adds₂ ⟨r, rfl, same, evaluates⟩
  refine makes_emit_bind rfl fun _ => makes_emit_bind rfl fun _ =>
    makes_emit (Instr.label_fits _) fun _ slots fits => ?_
  obtain ⟨after, performs⟩ := realizes slots (adds₂.names.fits fits)
  refine ⟨same.trans after, fun alu V covered => ?_⟩
  have test : Evaluates alu V s₁.scopes cond (intVar r) second := evaluates alu V covered
  rw [after] at test
  exact performs_testLast (performs alu V (adds₂.names.covered covered)) test

theorem made_forLoop {init : Option ForInit} {cond step : Option Expr} (hb : Made body) :
    Made (.forLoop loc init cond step body) := by
  rintro s _ _ _ rfl rfl rfl numbered int
  refine makes_skip rfl (adds_enterScope s) (makes_emit_bind rfl fun _ => ?_)
  refine makes_bind (makes_forInit numbered fun slots fits => (int slots fits).1) ?_
  intro _ s₁ first adds₁ opens
  have numbered₁ := adds₁.names.numbered numbered
  -- The rest is about the names behind what the loop opens with.
  have int₁ : ∀ slots, s₁.scopes.Fits slots → (∀ e ∈ cond, IntExpr s₁.scopes e) ∧
      IntStmt slots s.returnType true s₁.scopes body ∧
      ∀ e ∈ step, IntExpr (body.after slots s₁.scopes) e := by
    intro slots fits
    rw [(opens slots fits).1]
    exact (int slots (adds₁.names.fits fits)).2
  refine makes_freshLabel fun start => makes_freshLabel fun next => makes_freshLabel fun done => ?_
  refine makes_emit_bind (Instr.label_fits _) fun _ => ?_
  refine makes_bind (makes_forTest cond done numbered₁ (int₁ s₁.scopes.slotAt fun _ _ => rfl).1) ?_
  rintro _ s₂ second adds₂ ⟨same, tests⟩
  have numbered₂ := adds₂.names.numbered numbered₁
  have loops₂ : s₂.loops = s.loops := adds₂.loops.trans adds₁.loops
  have result₂ : s₂.returnType = s.returnType := adds₂.returnType.trans adds₁.returnType
  refine makes_inLoop_bind (hb _ s₁.scopes (⟨next, done⟩ :: s.loops) s.returnType same
    (congrArg (_ :: ·) loops₂) result₂ numbered₂ fun slots fits => (int₁ slots fits).2.1) ?_
  intro _ s₃ third adds₃ turns
  have numbered₃ := adds₃.names.numbered numbered₂
  have stepInt : ∀ e ∈ step, IntExpr s₃.scopes e := by
    have fits : s₃.scopes.Fits s₃.scopes.slotAt := fun _ _ => rfl
    rw [(turns _ fits).1]
    exact (int₁ _ (same ▸ adds₃.names.fits fits)).2.2
  refine makes_emit_bind (Instr.label_fits _) fun _ => ?_
  refine makes_bind (makes_forStep numbered₃ stepInt) ?_
  intro _ s₄ fourth adds₄ steps
  refine makes_emit_bind rfl fun _ => makes_emit_bind (Instr.label_fits _) fun _ =>
    makes_emit_bind rfl fun _ => ⟨(), _, [], rfl, adds_exitScope _, fun slots fits => ?_⟩
  have closing := (adds_exitScope s₄).names
  have fits₄ : s₄.scopes.Fits slots := closing.fits fits
  have fits₃ : s₃.scopes.Fits slots := adds₄.names.fits fits₄
  have fits₁ : s₁.scopes.Fits slots := same ▸ adds₃.names.fits fits₃
  obtain ⟨afterOpening, opening⟩ := opens slots fits₁
  obtain ⟨afterBody, turn⟩ := turns slots fits₃
  obtain ⟨afterStep, stepping⟩ := steps slots fits₄
  have afterOpening : s₁.scopes = afterInit slots s.scopes.enter init := afterOpening
  have afterStep : s₄.scopes = s₃.scopes := afterStep
  refine ⟨?_, fun alu V covered => ?_⟩
  · show s₄.scopes.exit = (body.after slots (afterInit slots s.scopes.enter init)).exit
    rw [afterStep, afterBody, afterOpening]
  · have covered₄ := closing.covered covered
    have covered₃ := adds₄.names.covered covered₄
    have covered₂ := adds₃.names.covered covered₃
    have opened := opening alu V (adds₂.names.covered covered₂)
    have test : Tests alu V (evalTest alu s₁.scopes cond) done second := tests alu V covered₂
    have advance : Performs alu V s₂.loops (Effect (evalEffect alu s₃.scopes step)) fourth := stepping alu V covered₄
    rw [loops₂, afterBody] at advance
    have lap := (turn alu V covered₃).laps_step start advance
    rw [afterOpening] at test lap
    have loop := performs_scope (performs_effect_append opened (performs_testFirst test lap))
    simp only [append_assoc, cons_append, nil_append] at loop
    exact loop

theorem made_ret {value? : Option Expr} : Made (.ret loc value?) := by
  rintro s _ _ _ rfl rfl rfl numbered int
  refine makes_skip (get_eq_ok.2 ⟨rfl, rfl⟩) (adds_refl s) ?_
  match value?, int with
  | none, int =>
    have result : s.returnType = some .void := int s.scopes.slotAt fun _ _ => rfl
    rw [result]
    show Makes s (emit .ret .none []) _
    exact makes_emit rfl fun _ slots _ => ⟨rfl, fun alu V _ => performs_return⟩
  | some e, int =>
    obtain ⟨result, valueInt⟩ := int s.scopes.slotAt fun _ _ => rfl
    rw [result]
    refine makes_bind (makes_value numbered valueInt) ?_
    rintro _ s₁ part - ⟨r, rfl, same, evaluates⟩
    refine makes_skip rfl (adds_refl s₁) ?_
    refine makes_emit_bind rfl fun _ => makes_emit rfl fun _ slots _ => ⟨same, fun alu V covered => ?_⟩
    exact (evaluates alu V covered).performs_return

theorem makes_leaveLoop {s : State} {target : LoopLabels → Int32} {o : Outcome} (what : Unsupported)
    (inside : (!s.loops.isEmpty) = true)
    (goes : ∀ labels outer, o.wayOut? (labels :: outer) = some (.label (target labels))) :
    Makes s (leaveLoop target what loc) fun _ s' part =>
      Realizes s.loops s' part (fun _ => s.scopes) fun _ _ σ o' σ' => o' = o ∧ σ' = σ := by
  refine makes_skip (get_eq_ok.2 ⟨rfl, rfl⟩) (adds_refl s) ?_
  generalize s.loops = loops at inside
  match loops, inside with
  | labels :: outer, _ => exact makes_emit rfl fun _ slots _ => ⟨rfl, fun alu V _ => performs_jump (goes labels outer)⟩

end Made

mutual

theorem makes_statement (st : Stmt) : Made st := by
  match st with
  | .expr loc e =>
    rintro s _ _ _ rfl rfl rfl numbered int
    exact makes_discard_value numbered (int s.scopes.slotAt fun _ _ => rfl)
  | .block loc body => exact made_block (makes_statements body)
  | .ifThen loc cond yes => exact made_ifThen (makes_statement yes)
  | .ifElse loc cond yes no => exact made_ifElse (makes_statement yes) (makes_statement no)
  | .whileLoop loc cond body => exact made_whileLoop (makes_statement body)
  | .doWhile loc body cond => exact made_doWhile (makes_statement body)
  | .forLoop loc init cond step body => exact made_forLoop (makes_statement body)
  | .ret loc value? => exact made_ret
  | .decls loc ds =>
    rintro s _ _ _ rfl rfl rfl numbered int
    exact makes_localDeclarations numbered int
  | .brk loc =>
    rintro s _ _ _ rfl rfl rfl numbered int
    exact makes_leaveLoop _ (int s.scopes.slotAt fun _ _ => rfl) fun _ _ => rfl
  | .cont loc =>
    rintro s _ _ _ rfl rfl rfl numbered int
    exact makes_leaveLoop _ (int s.scopes.slotAt fun _ _ => rfl) fun _ _ => rfl
  | .empty loc => exact made_empty

theorem makes_statements (body : List Stmt) : AllMade body := by
  match body with
  | [] => exact allMade_nil
  | st :: rest => exact allMade_cons (makes_statement st) (makes_statements rest)

end

end Lowering

/-! ## Statements in a program -/

section Program

variable {p : Program} {s s' : State} {st : Stmt} {part : List Instr}

theorem Lowering.Reached.numbered (h : Reached p s) : s.scopes.Numbered s.variableCount :=
  fun entry listed => (h.bound entry listed).2

/-- The labels of the enclosing loops have been numbered. -/
def Lowering.State.LoopsNumbered (s : State) : Prop :=
  ∀ labels ∈ s.loops, labels.onContinue ∈ issued 0 s.labelCount ∧ labels.onBreak ∈ issued 0 s.labelCount

theorem labelsOnce_of_statement (run : statement st s = .ok () s')
    (code : s'.code = part.reverse ++ s.code) (loops : s.LoopsNumbered)
    (few : s'.labelCount ≤ 2 ^ 32) : LabelsOnce part := by
  let known : List Int32 := s.loops.flatMap fun labels => [labels.onContinue, labels.onBreak]
  -- All labels numbered before are left to the code around the statement.
  have start : Labelled ⟨s.code, 0⟩ s.loops (issued 0 s.labelCount) known s := by
    refine ⟨rfl, [], rfl, Nat.zero_le _, by simp [Instr.introducedIn], forall_mem_nil _,
      fun l hl => .inl ?_, ?_, forall_mem_nil _, forall_mem_nil _⟩
    · obtain ⟨labels, listed, hl⟩ := mem_flatMap.1 hl
      obtain ⟨onContinue, onBreak⟩ := loops labels listed
      rcases mem_pair.1 hl with rfl | rfl
      · exact onContinue
      · exact onBreak
    · intro newer i older split
      simp at split
  have loopsKnown : LoopsKnown s.loops known := fun labels listed =>
    ⟨mem_flatMap.2 ⟨labels, listed, by simp⟩, mem_flatMap.2 ⟨labels, listed, by simp⟩⟩
  obtain ⟨-, body, code', inside⟩ := neutral_statement st loopsKnown s () s' start run
  obtain rfl : body = part.reverse := append_cancel_right (code'.symm.trans code)
  apply labelsOnce_of_nodup
  have balanced : Instr.introducedIn part + issued 0 s.labelCount = issued 0 s'.labelCount := by
    rw [← inside.balanced, introducedIn_reverse]
  have all : (Instr.introducedIn part + issued 0 s.labelCount).Nodup := by
    rw [balanced]
    exact issued_nodup few
  exact Multiset.nodup_of_le (Multiset.le_add_right _ _) all

def Scopes.Declares (t : Scopes) (id : UInt32) : Prop := ∃ entry ∈ t.log, entry.symbol.storage = .slot id

variable {t : Scopes}

theorem Scopes.covered_declares {k : Nat} (few : k ≤ 2 ^ 32) : t.Covered t.Declares k where
  few := few
  declared _ _ declared := declared
  known entry listed _ slot := ⟨entry, listed, slot⟩

/-- Code is made for every statement over automatic `int`s.  Its declarations are given variables of their
own.  If the statement comes to an end from some store, then a machine that starts at the first instruction
of the code, and holds the same in the variables that are declared, gets where the outcome says: to the end
of the code, to the label of the innermost loop, or to a `ret` with the value to be returned.  There it
holds in the declared variables what the statement leaves in them.  The code may stand anywhere in code
that defines labels once, as it does itself. -/
theorem statement_runs_to_exec (reached : Reached p s)
    (int : ∀ slots, IntStmt slots s.returnType (!s.loops.isEmpty) s.scopes st) :
    ∃ s' part, statement st s = .ok () s' ∧ s'.code = part.reverse ++ s.code ∧
      (s.LoopsNumbered → s'.labelCount ≤ 2 ^ 32 → LabelsOnce part) ∧
      (s'.variableCount ≤ 2 ^ 32 →
        (∀ i, s.scopes.log.length ≤ i → i < s'.scopes.log.length → s.variableCount ≤ (s'.scopes.slotAt i).toNat ∧
          ∀ j, i < j → j < s'.scopes.log.length → s'.scopes.slotAt i ≠ s'.scopes.slotAt j) ∧
        ∀ alu σ o σ', Exec alu s'.scopes.slotAt s.scopes st σ o σ' →
          ∀ code (a : Activation), LabelsOnce code → CodeAt code a.pc part → a.returned = none →
            (∀ id, s'.scopes.Declares id → a.store id = σ id) →
            ∃ τ, (∀ id, s'.scopes.Declares id → τ id = σ' id) ∧ match o with
              | .normal => a.Gets alu code (a.pc + part.length) τ none
              | .broke => ∃ labels ∈ s.loops.head?, ∀ place,
                  Instr.labelIndex? code labels.onBreak = some place → a.Gets alu code place τ none
              | .continued => ∃ labels ∈ s.loops.head?, ∀ place,
                  Instr.labelIndex? code labels.onContinue = some place → a.Gets alu code place τ none
              | .returned v => ∃ place, code[place]? = some ⟨.ret, .none, []⟩ ∧ a.Gets alu code place τ v) := by
  have numbered := reached.numbered
  obtain ⟨_, s', part, run, adds, realizes⟩ := makes_statement st s _ _ _ rfl rfl rfl numbered fun slots _ => int slots
  refine ⟨s', part, run, adds.code, labelsOnce_of_statement run adds.code, fun few => ⟨?_, ?_⟩⟩
  · intro i hi hi'
    obtain ⟨new, apart⟩ := adds.names.slotAt few hi hi'
    refine ⟨new, fun j hj hj' same => ?_⟩
    have less := apart j hj hj'
    rw [same] at less
    exact Nat.lt_irrefl _ less
  · intro alu σ o σ' exec code a once here returned agree
    have performs := (realizes _ fun _ _ => rfl).2 alu _ (Scopes.covered_declares few)
    obtain ⟨way, τ, ⟨leaves, agree'⟩, left⟩ := performs σ o σ' a.store exec agree code a once here rfl returned
    refine ⟨τ, agree', ?_⟩
    cases o with
    | normal =>
      obtain rfl := Option.some.inj leaves
      exact left
    | broke | continued =>
      obtain ⟨labels, innermost, rfl⟩ := Option.map_eq_some_iff.1 leaves
      exact ⟨labels, innermost, left⟩
    | returned v =>
      obtain rfl := Option.some.inj leaves
      exact left

/-- `{ while (1) { int c = a - 1; a = c; if (c == 3) continue; if (c < b) break; } return a; }`. -/
def countdown : Stmt :=
  .block ⟨1, 1⟩ [
    .whileLoop ⟨1, 3⟩ (.int ⟨1, 10⟩ 1) (.block ⟨1, 13⟩ [
      .decls ⟨1, 15⟩ [.var ⟨ascii "c", .int, some (.binary ⟨1, 25⟩ .sub (.ident ⟨1, 23⟩ (ascii "a"))
        (.int ⟨1, 27⟩ 1)), .plain, ⟨1, 19⟩⟩],
      .expr ⟨1, 30⟩ (.assign ⟨1, 32⟩ (.ident ⟨1, 30⟩ (ascii "a")) none (.ident ⟨1, 34⟩ (ascii "c"))),
      .ifThen ⟨1, 37⟩ (.binary ⟨1, 43⟩ .eq (.ident ⟨1, 41⟩ (ascii "c")) (.int ⟨1, 46⟩ 3)) (.cont ⟨1, 49⟩),
      .ifThen ⟨1, 59⟩ (.binary ⟨1, 65⟩ .lt (.ident ⟨1, 63⟩ (ascii "c")) (.ident ⟨1, 67⟩ (ascii "b"))) (.brk ⟨1, 70⟩)]),
    .ret ⟨1, 79⟩ (some (.ident ⟨1, 86⟩ (ascii "a")))]

def inFunction : State := { stateAfter openBlock {} with returnType := some .int }

def holding (a c : Int32) : Store := fun id => if id = 0 then a else if id = 3 then c else 3

theorem update_holding (a c x : Int32) :
    Function.update (holding a c) 0 x = holding x c ∧ Function.update (holding a c) 3 x = holding a x := by
  constructor
  · funext id
    by_cases h : id = 0 <;> simp [Function.update, holding, h]
  · funext id
    by_cases h : id = 3 <;> simp [Function.update, holding, h]

theorem intStmt_countdown (slots : Nat → UInt32) :
    IntStmt slots inFunction.returnType (!inFunction.loops.isEmpty) inFunction.scopes countdown := by
  refine ⟨⟨.int (by decide), ⟨⟨rfl, rfl, rfl, ?_⟩, trivial⟩, ?_, ⟨?_, rfl⟩, ⟨?_, rfl⟩, trivial⟩, ⟨rfl, ?_⟩, trivial⟩
  · exact .binary (.ident rfl) (.int (by decide))
  · exact .assign rfl nofun (.ident rfl)
  · exact .binary (.ident rfl) (.int (by decide))
  · exact .binary (.ident rfl) (.ident rfl)
  · exact .ident rfl

theorem exec_countdown {slots : Nat → UInt32} (h : slots 2 = 3) :
    Exec .wrapping slots inFunction.scopes countdown (holding 4 3) (.returned (some 2)) (holding 2 2) := by
  refine ⟨.normal, holding 2 2, ?_, .returned (some 2), holding 2 2, ⟨2, rfl, rfl⟩, rfl, rfl⟩
  refine .more (.inr ⟨holding 4 3, .continued, holding 3 3, rfl, ?_, rfl, rfl⟩)
    (.last (.inr ⟨holding 3 3, .broke, holding 2 2, rfl, ?_, rfl, rfl⟩))
  · refine ⟨.normal, holding 4 3, ⟨?_, rfl⟩, .normal, holding 3 3, ⟨?_, rfl⟩, .continued, holding 3 3,
      ⟨true, holding 3 3, ?_, rfl, rfl⟩, rfl, rfl⟩
    · show some (Function.update (holding 4 3) (slots 2) 3) = _
      rw [h, (update_holding 4 3 3).2]
    · show some (Function.update (holding 4 3) 0 (holding 4 3 (slots 2))) = _
      rw [h, (update_holding 4 3 _).1]
      rfl
    · show some (decide (truth (decide (holding 3 3 (slots 2) = 3)) ≠ 0), holding 3 3) = _
      rw [h]
      rfl
  · refine ⟨.normal, holding 3 2, ⟨?_, rfl⟩, .normal, holding 2 2, ⟨?_, rfl⟩, .normal, holding 2 2,
      ⟨false, holding 2 2, ?_, rfl, rfl⟩, .broke, holding 2 2, ⟨true, holding 2 2, ?_, rfl, rfl⟩, rfl, rfl⟩
    · show some (Function.update (holding 3 3) (slots 2) 2) = _
      rw [h, (update_holding 3 3 2).2]
    · show some (Function.update (holding 3 2) 0 (holding 3 2 (slots 2))) = _
      rw [h, (update_holding 3 2 _).1]
      rfl
    · show some (decide (truth (decide (holding 2 2 (slots 2) = 3)) ≠ 0), holding 2 2) = _
      rw [h]
      rfl
    · show some (decide (truth (decide (holding 2 2 (slots 2) < holding 2 2 1)) ≠ 0), holding 2 2) = _
      rw [h]
      rfl

theorem statement_runs_to_exec_countdown :
    ∃ p s s' part a', Program.parse (ascii "int f()\x7bint a;int b;\x7d") = .ok p ∧ Reached p s ∧
      (∀ slots, IntStmt slots s.returnType (!s.loops.isEmpty) s.scopes countdown) ∧
      statement countdown s = .ok () s' ∧ s'.code = part.reverse ++ s.code ∧
      s'.variableCount ≤ 2 ^ 32 ∧ LabelsOnce part ∧
      Activation.Runs .wrapping part ⟨⟨0, holding 4 3, (0, 0)⟩, none⟩ a' ∧
      part[a'.pc]? = some ⟨.ret, .none, []⟩ ∧ a'.returned = some 2 ∧ a'.store 0 = 2 ∧ a'.store 1 = 3 := by
  have parses : (Program.parse (ascii "int f()\x7bint a;int b;\x7d")).toOption.any
      (fun p => p.types.contains .int) = true := by decide +kernel
  obtain ⟨p, parsed, holds⟩ := ok_of_any parses
  have reached : Reached p inFunction := (reached_openBlock holds).tail (.setFunction (some .int) nofun)
  obtain ⟨s', part, run, code, once, runs⟩ := statement_runs_to_exec reached intStmt_countdown
  have facts : (match statement countdown inFunction with
      | .ok _ s' => s'.variableCount ≤ 2 ^ 32 && s'.labelCount ≤ 2 ^ 32 && s'.scopes.slotAt 2 == 3 &&
          s'.scopes.log.any (·.symbol.storage == .slot 0) && s'.scopes.log.any (·.symbol.storage == .slot 1)
      | .error .. => false) = true := by decide +kernel
  simp only [run, Bool.and_eq_true, decide_eq_true_eq, beq_iff_eq, List.any_eq_true] at facts
  obtain ⟨⟨⟨⟨few, fewLabels⟩, slot⟩, a⟩, b⟩ := facts
  have labels := once nofun fewLabels
  obtain ⟨τ, agree, place, fetched, a', steps, rfl, rfl, returned⟩ :=
    (runs few).2 .wrapping (holding 4 3) _ _ (exec_countdown slot) part ⟨⟨0, holding 4 3, (0, 0)⟩, none⟩
      labels (codeAt_self part) rfl fun _ _ => rfl
  exact ⟨p, inFunction, s', part, a', parsed, reached, intStmt_countdown, run, code, few, labels, steps,
    fetched, returned, agree 0 a, agree 1 b⟩

end Program

end Cof
