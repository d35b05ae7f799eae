/-
  The code of a statement, stretch by stretch.

  Most of the code under a statement is made for expressions.  Such a stretch opens no scope, binds no name
  and creates no variable.  What it names was in sight before it or was numbered for it, and the labels in
  it were numbered for it too.  Between the stretches stand the few instructions that lead from one part of
  a statement to another.  They are stretches as well, but go to labels of the statement around them: these
  are the *outer* labels of a stretch.
-/
import Cof.Proofs.Budget
import Cof.Proofs.Definite

namespace Cof

open List

def Declaration.isAutomatic : Declaration → Bool
  | .proto _ => false
  | .var v => v.linkage == .plain

namespace Lowering

variable {α : Type} {s s' t t' : State}

/-! ## States and numbers -/

/-- A state with a well made table of names, in which whatever is in use was numbered. -/
structure Sound (s : State) : Prop where
  made : s.scopes.Made
  used : s.Numbered

variable {m : Lower α} {a : α} {id : UInt32} {l : Int32} {i : Instr} {e : Expr} {loc : Location} {v : VarDecl}

theorem Sound.ready (h : Sound s) (ready : ∀ C, Ready C [] s → Ready C [] s') : Sound s' := by
  obtain ⟨_, _, after⟩ := ready _ ⟨_, _, Part.anywhere h.made h.used (forall_mem_nil _)⟩
  exact ⟨after.made, after.used⟩

theorem Sound.piece (h : Sound s) (part : Piece m) (run : m s = .ok a s') : Sound s' :=
  h.ready fun _ ready => part.ready _ _ _ ready run

theorem Sound.transfer (h : Sound s) (code : s'.code = s.code) (scopes : s'.scopes = s.scopes)
    (counted : s.variableCount ≤ s'.variableCount) : Sound s' := by
  refine ⟨scopes ▸ h.made, fun id uses => ?_⟩
  unfold State.Uses at uses
  rw [code, scopes] at uses
  obtain ⟨k, small, same⟩ := h.used id uses
  exact ⟨k, Nat.lt_of_lt_of_le small counted, same⟩

/-- A variable that was numbered on the way from one state to another. -/
def NewId (s s' : State) (id : UInt32) : Prop := ∃ k, s.variableCount ≤ k ∧ k < s'.variableCount ∧ id = UInt32.ofNat k

theorem NewId.widen (h : NewId t t' id) (before : s.variableCount ≤ t.variableCount)
    (after : t'.variableCount ≤ s'.variableCount) : NewId s s' id := by
  obtain ⟨k, since, small, same⟩ := h
  exact ⟨k, Nat.le_trans before since, Nat.lt_of_lt_of_le small after, same⟩

theorem NewLabel.widen (h : NewLabel t t' l) (before : s.labelCount ≤ t.labelCount)
    (after : t'.labelCount ≤ s'.labelCount) : NewLabel s s' l := by
  obtain ⟨k, since, small, same⟩ := h
  exact ⟨k, Nat.le_trans before since, Nat.lt_of_lt_of_le small after, same⟩

/-- A variable that was in sight before, or was numbered on the way. -/
def Known (s s' : State) (id : UInt32) : Prop := s.scopes.Sees id ∨ NewId s s' id

/-! ## Stretches -/

/-- A stretch of code that opens and closes no scope and creates no variable, and behind which the same
variables are in sight. -/
structure Stretch (outer : List Int32) (s s' : State) (part : List Instr) : Prop where
  code : s'.code.reverse = s.code.reverse ++ part
  sees : ∀ id, s'.scopes.Sees id ↔ s.scopes.Sees id
  loops : s'.loops = s.loops
  counted : s.variableCount ≤ s'.variableCount
  labels : s.labelCount ≤ s'.labelCount
  paid : Paid s s' part
  sound : Sound s'
  inner : ∀ i ∈ part, i.isBracket = false ∧ i.created? = none
  names : ∀ i ∈ part, ∀ id ∈ i.names, Known s s' id
  defines : ∀ i ∈ part, ∀ l, i.definedLabel? = some l → NewLabel s s' l ∨ l ∈ outer
  targets : ∀ i ∈ part, ∀ l ∈ i.targets, NewLabel s s' l ∨ l ∈ outer

theorem inner_of_isPlain (h : i.isPlain = true) : i.isBracket = false ∧ i.created? = none := by
  refine ⟨Instr.isBracket_of_isPlain h, if_neg fun same => ?_⟩
  unfold Instr.isPlain at h
  rw [same] at h
  cases h

theorem emit_labelCount {opcode : Opcode} {qualifier : Qualifier} {operands : List Operand}
    (run : emit opcode qualifier operands s = .ok () s') : s'.labelCount = s.labelCount := by
  obtain ⟨_, _, rfl⟩ := emit_eq_ok.1 run
  rfl

section Stretch

variable {outer : List Int32} {part part' : List Instr} {l : Int32}

theorem Stretch.refl (outer : List Int32) (sound : Sound s) : Stretch outer s s [] where
  code := (append_nil _).symm
  sees _ := .rfl
  loops := rfl
  counted := Nat.le_refl _
  labels := Nat.le_refl _
  paid := Nat.le_refl _
  sound := sound
  inner := forall_mem_nil _
  names := forall_mem_nil _
  defines := forall_mem_nil _
  targets := forall_mem_nil _

theorem Stretch.trans (h : Stretch outer s t part) (h' : Stretch outer t s' part') :
    Stretch outer s s' (part ++ part') where
  code := by rw [h'.code, h.code, append_assoc]
  sees id := (h'.sees id).trans (h.sees id)
  loops := h'.loops.trans h.loops
  counted := Nat.le_trans h.counted h'.counted
  labels := Nat.le_trans h.labels h'.labels
  paid := h.paid.trans h'.paid
  sound := h'.sound
  inner := forall_mem_append.2 ⟨h.inner, h'.inner⟩
  names := by
    refine forall_mem_append.2 ⟨fun i mem id names => ?_, fun i mem id names => ?_⟩
    · exact (h.names i mem id names).imp_right fun new => new.widen (Nat.le_refl _) h'.counted
    · exact (h'.names i mem id names).imp (h.sees id).1 fun new => new.widen h.counted (Nat.le_refl _)
  defines := by
    refine forall_mem_append.2 ⟨fun i mem l defines => ?_, fun i mem l defines => ?_⟩
    · exact (h.defines i mem l defines).imp_left fun new => new.widen (Nat.le_refl _) h'.labels
    · exact (h'.defines i mem l defines).imp_left fun new => new.widen h.labels (Nat.le_refl _)
  targets := by
    refine forall_mem_append.2 ⟨fun i mem l target => ?_, fun i mem l target => ?_⟩
    · exact (h.targets i mem l target).imp_left fun new => new.widen (Nat.le_refl _) h'.labels
    · exact (h'.targets i mem l target).imp_left fun new => new.widen h.labels (Nat.le_refl _)

theorem Stretch.cover {outer' : List Int32} (h : Stretch outer s s' part)
    (cover : ∀ l ∈ outer, NewLabel s s' l ∨ l ∈ outer') : Stretch outer' s s' part :=
  { h with
    defines := fun i mem l defines => (h.defines i mem l defines).elim .inl (cover l)
    targets := fun i mem l target => (h.targets i mem l target).elim .inl (cover l) }

theorem Stretch.widen (h : Stretch [] s s' part) (outer : List Int32) : Stretch outer s s' part :=
  h.cover (forall_mem_nil _)

theorem Stretch.fresh (h : Stretch outer s t part) (run : freshLabel t = .ok l t') :
    Stretch outer s t' part ∧ l = .ofNat t.labelCount ∧ t'.labelCount = t.labelCount + 1 ∧
      t'.variableCount = t.variableCount := by
  obtain ⟨rfl, rfl⟩ := freshLabel_eq_ok.1 run
  have more : t.labelCount ≤ t.labelCount + 1 := Nat.le_succ _
  refine ⟨{ h with labels := Nat.le_succ_of_le h.labels, paid := h.paid, sound := h.sound.transfer rfl rfl (Nat.le_refl _),
                   names := h.names, defines := ?_, targets := ?_ }, rfl, rfl, rfl⟩
  · exact fun i mem l defines => (h.defines i mem l defines).imp_left fun new => new.widen (Nat.le_refl _) more
  · exact fun i mem l target => (h.targets i mem l target).imp_left fun new => new.widen (Nat.le_refl _) more

theorem Stretch.emit {opcode : Opcode} {qualifier : Qualifier} {operands : List Operand}
    (h : Stretch outer s t part)
    (run : Lowering.emit opcode qualifier operands t = .ok () t')
    (inner : Instr.isBracket ⟨opcode, qualifier, operands⟩ = false ∧
      Instr.created? ⟨opcode, qualifier, operands⟩ = none)
    (names : ∀ id ∈ Instr.names ⟨opcode, qualifier, operands⟩, Known s t id)
    (defines : ∀ l, Instr.definedLabel? ⟨opcode, qualifier, operands⟩ = some l → NewLabel s t l ∨ l ∈ outer)
    (targets : ∀ l ∈ Instr.targets ⟨opcode, qualifier, operands⟩, NewLabel s t l ∨ l ∈ outer) :
    Stretch outer s t' (part ++ [⟨opcode, qualifier, operands⟩]) := by
  obtain ⟨bytes, _, rfl⟩ := emit_eq_ok.1 run
  refine ⟨?_, h.sees, h.loops, h.counted, h.labels, h.paid.trans (Nat.le_add_right _ _),
    ⟨h.sound.made, ?_⟩, ?_, ?_, ?_, ?_⟩
  · rw [State.push, reverse_cons, h.code, append_assoc]
  · rintro id (⟨i, mem, o, operand, isId⟩ | bound)
    · rcases mem_cons.1 mem with rfl | mem
      · rcases names id (mem_filterMap.2 ⟨o, operand, isId⟩) with sees | ⟨k, _, small, same⟩
        · exact h.sound.used.of_sees ((h.sees id).2 sees)
        · exact ⟨k, small, same⟩
      · exact h.sound.used id (.inl ⟨i, mem, o, operand, isId⟩)
    · exact h.sound.used id (.inr bound)
  · exact forall_mem_append.2 ⟨h.inner, forall_mem_singleton.2 inner⟩
  · exact forall_mem_append.2 ⟨h.names, forall_mem_singleton.2 names⟩
  · exact forall_mem_append.2 ⟨h.defines, forall_mem_singleton.2 defines⟩
  · exact forall_mem_append.2 ⟨h.targets, forall_mem_singleton.2 targets⟩

theorem Stretch.define (h : Stretch outer s t part) (run : defineLabel l t = .ok () t')
    (known : NewLabel s t l ∨ l ∈ outer) : Stretch outer s t' (part ++ [.label l]) := by
  refine h.emit run ⟨rfl, rfl⟩ (forall_mem_nil _) (fun l' defines => ?_) (forall_mem_nil _)
  obtain rfl : l = l' := Option.some.inj ((Instr.definedLabel?_label l).symm.trans defines)
  exact known

theorem Stretch.jump (h : Stretch outer s t part) (run : jump l t = .ok () t')
    (known : NewLabel s t l ∨ l ∈ outer) : Stretch outer s t' (part ++ [⟨.jmp, .none, [.label l]⟩]) := by
  refine h.emit run ⟨rfl, rfl⟩ (forall_mem_nil _) (fun l' defines => by cases defines) ?_
  exact forall_mem_singleton.2 known

theorem Stretch.branch (h : Stretch outer s t part) {condition : Qualifier}
    (run : branch condition l t = .ok () t') (known : NewLabel s t l ∨ l ∈ outer) :
    Stretch outer s t' (part ++ [⟨.br, condition, [.label l]⟩]) := by
  refine h.emit run ⟨rfl, rfl⟩ (forall_mem_nil _) (fun l' defines => by cases defines) ?_
  exact forall_mem_singleton.2 known

end Stretch

/-! ## Code for expressions -/

theorem scopes_of_growth (h : Relation.ReflTransGen AnyGrowth s s') : s'.scopes = s.scopes := by
  induction h with
  | refl => rfl
  | tail _ step ih => cases step <;> exact ih

theorem Sound.stretch {held : List Operand} {out : α → List Operand} (sound : Sound s)
    (run : m s = .ok a s') (seen : ∀ o ∈ held, ∀ id, o.id? = some id → s.scopes.Sees id)
    (ready : ∀ C, Leaves C held m out) (grows : Follows AnyGrowth m)
    (neutral : ∀ F loops, Neutral F loops 0 [] m) (pays : Pays m) :
    ∃ part, Stretch [] s s' part ∧ ∀ o ∈ out a, ∀ id, o.id? = some id → Known s s' id := by
  obtain ⟨_, body, leaves⟩ := ready _ s a s' ⟨_, _, Part.anywhere sound.made sound.used seen⟩ run
  have code : s'.code = body ++ s.code := leaves.code
  -- The code that the labels are known of, and that is known to be plain, is the same code.
  obtain ⟨body', code', appends, resolved⟩ := (neutral _ _ s a s' (labelled_start s) run).appends
  obtain rfl : body' = body := append_cancel_right (code'.symm.trans code)
  have plain : ∀ i ∈ body', i.isPlain = true := by
    obtain ⟨added, code'', plain⟩ := code_of_changes
      ((grows.mono fun _ _ step => Change.growth (L := ⟨(·.isPlain = true), True, fun _ => True,
        fun _ => True⟩) step).of_ok run)
    obtain rfl : added = body' := append_cancel_right (code''.symm.trans code)
    exact plain
  refine ⟨body'.reverse, ⟨appends.code, fun _ => by rw [scopes_of_growth (grows.of_ok run)], appends.loops, leaves.early,
    appends.since, pays.paid run appends.code, ⟨leaves.made, leaves.used⟩, ?_, ?_, ?_, ?_⟩, ?_⟩
  · exact fun i mem => inner_of_isPlain (plain i (mem_reverse.1 mem))
  · intro i mem id names
    obtain ⟨o, operand, isId⟩ := mem_filterMap.1 names
    exact leaves.named i (mem_reverse.1 mem) o operand id isId
  · exact fun i mem l defines => .inl (appends.defined mem defines)
  · intro i mem l target
    obtain ⟨j, there, defines⟩ := resolved.targets i mem l target
    exact .inl (appends.defined there defines)
  · exact fun o mem id isId => leaves.numbered o (mem_append_right _ mem) id isId

theorem Sound.discard (sound : Sound s) (run : discard (value e) s = .ok () s') : ∃ part, Stretch [] s s' part := by
  obtain ⟨part, stretch, _⟩ := sound.stretch run (forall_mem_nil _) (fun _ => ready_discard e)
    (follows_discard (follows_value e)) (fun _ _ => neutral_discard (neutral_value e)) (pays_discard e)
  exact ⟨part, stretch⟩

theorem Sound.returnStatement {value? : Option Expr} (sound : Sound s)
    (run : returnStatement value? loc s = .ok () s') : ∃ part, Stretch [] s s' part := by
  obtain ⟨part, stretch, _⟩ := sound.stretch run (forall_mem_nil _)
    (fun _ => ready_returnStatement value? loc) (grows_returnStatement value? loc)
    (fun _ _ => neutral_returnStatement value? loc) (pays_returnStatement value? loc)
  exact ⟨part, stretch⟩

theorem Sound.forStep {step : Option Expr} (sound : Sound s) (run : forStep step s = .ok () s') :
    ∃ part, Stretch [] s s' part := by
  obtain ⟨part, stretch, _⟩ := sound.stretch run (forall_mem_nil _) (fun _ => ready_forStep step)
    (grows_forStep step) (fun _ _ => neutral_forStep step) (pays_forStep step)
  exact ⟨part, stretch⟩

theorem Sound.conditionValue {v : Value} (sound : Sound s) (run : conditionValue e s = .ok v s') :
    ∃ part, Stretch [] s s' part ∧ ∀ id, v.operand.id? = some id → Known s s' id := by
  obtain ⟨part, stretch, known⟩ := sound.stretch run (forall_mem_nil _)
    (fun _ => yields_conditionValue e) (grows_conditionValue e) (fun _ _ => neutral_conditionValue e)
    (pays_conditionValue e)
  exact ⟨part, stretch, known v.operand mem_cons_self⟩

theorem Stretch.compareZero {outer : List Int32} {part : List Instr} {v : Value} (h : Stretch outer s t part)
    (known : ∀ id, v.operand.id? = some id → Known s t id)
    (run : compareZero v t = .ok () t') : ∃ part', Stretch outer s t' part' := by
  refine ⟨_, h.emit run ⟨rfl, rfl⟩ (fun id names => ?_) (fun l defines => by cases defines)
    (forall_mem_nil _)⟩
  obtain ⟨o, operand, isId⟩ := mem_filterMap.1 names
  rcases mem_cons.1 operand with rfl | zero
  · exact known id isId
  · obtain rfl := mem_singleton.1 zero
    cases isId

theorem Sound.branchOn {condition : Qualifier} (sound : Sound s) (run : branchOn condition e l s = .ok () s') :
    ∃ t part, Stretch [] s t part ∧ Stretch [l] t s' [⟨.br, condition, [.label l]⟩] := by
  obtain ⟨v, t, decided, run⟩ := bind_eq_ok.1 run
  obtain ⟨_, u, compared, branched⟩ := bind_eq_ok.1 run
  obtain ⟨part, stretch, known⟩ := sound.conditionValue decided
  obtain ⟨part', stretch'⟩ := stretch.compareZero known compared
  have branch := (Stretch.refl [l] stretch'.sound).branch branched (.inr (mem_singleton_self l))
  exact ⟨u, part', stretch', branch⟩

theorem Sound.forTest {cond : Option Expr} (sound : Sound s) (run : forTest cond l s = .ok () s') :
    ∃ part, Stretch [l] s s' part ∧ (cond = none → s' = s ∧ part = []) := by
  cases cond with
  | none =>
    obtain ⟨_, rfl⟩ := pure_eq_ok.1 run
    exact ⟨[], .refl [l] sound, fun _ => ⟨rfl, rfl⟩⟩
  | some cond =>
    obtain ⟨_, _, test, branch⟩ := sound.branchOn run
    exact ⟨_, (test.widen [l]).trans branch, fun none => by cases none⟩

/-! ## Declarations -/

theorem Sound.announces {part : List Instr} (sound : Sound s') (code : s'.code.reverse = s.code.reverse ++ part)
    (loops : s'.loops = s.loops) (counted : s'.variableCount = s.variableCount)
    (labels : s'.labelCount = s.labelCount) (sees : ∀ id, s'.scopes.Sees id ↔ s.scopes.Sees id)
    (directives : ∀ i ∈ part, i.opcode = .sym ∧ i.definedLabel? = none ∧ i.names = []) : Stretch [] s s' part where
  code := code
  sees := sees
  loops := loops
  counted := Nat.le_of_eq counted.symm
  labels := Nat.le_of_eq labels.symm
  paid := Nat.le_add_right_of_le (Nat.le_of_eq counted)
  sound := sound
  inner i mem := by simp [Instr.isBracket, Instr.created?, (directives i mem).1]
  names i mem id names := by
    rw [(directives i mem).2.2] at names
    cases names
  defines i mem l label := by
    rw [(directives i mem).2.1] at label
    cases label
  targets i mem l target := by simp [Instr.targets, (directives i mem).1] at target

section Announces

variable {name : Name} {u : Unit} (sound : Sound s)
include sound

theorem Sound.linking {g : Global} (h : Linking g s s') : Stretch [] s s' [] := by
  have sees : ∀ id, s'.scopes.Sees id ↔ s.scopes.Sees id := fun id => h.scopes.sees
  have sound' : Sound s' := sound.ready fun _ => declaring_ready.linking h
  obtain ⟨_, _, rfl⟩ := h.same
  exact sound'.announces (append_nil _).symm rfl rfl rfl sees (forall_mem_nil _)

theorem Sound.bound (type : CType) (other : Name) (statics : Nat) (free : s.scopes.lookupCurrent name = none) :
    Stretch [] s { s with statics := statics, scopes := s.scopes.bind ⟨name, type, s.scopes.depth, .global other⟩ } [] := by
  have sound' := sound.ready fun _ => declaring_ready.bound type other statics free
  refine sound'.announces (append_nil _).symm rfl rfl rfl (fun id => ?_) (forall_mem_nil _)
  exact (Scopes.sees_bind free).trans (or_iff_left (by rintro ⟨⟩))

theorem Sound.announced (run : announceExternal v s = .ok () s') : Stretch [] s s' [announcement v] := by
  have sound' : Sound s' := sound.ready fun _ => declaring_ready.announced run
  obtain ⟨bytes, -, rfl⟩ := emit_eq_ok.1 run
  exact sound'.announces reverse_cons rfl rfl rfl (fun _ => .rfl) (forall_mem_singleton.2 ⟨rfl, rfl, rfl⟩)

theorem Sound.defined {isStatic : Bool} (run : defineObject name v isStatic s = .ok () s') :
    ∃ part, Stretch [] s s' part := by
  have sound' : Sound s' := sound.ready fun _ => declaring_ready.defined run
  obtain ⟨first, start, bytes, initial, -, -, rfl⟩ := defineObject_steps run
  refine ⟨_, sound'.announces reverse_cons rfl rfl rfl (fun _ => .rfl) (forall_mem_singleton.2 ⟨rfl, ?_, ?_⟩)⟩
  · cases isStatic <;> rfl
  · rcases (initialValue_eq_ok initial).2 with ⟨-, rfl⟩ | ⟨_, _, -, -, rfl⟩ <;> rfl

theorem Sound.resembles (h : Resembles s s') : Stretch [] s s' [] :=
  (sound.transfer h.code h.scopes (Nat.le_of_eq h.counted.symm)).announces (by rw [h.code, append_nil])
    h.loops h.counted h.labels (fun id => by rw [h.scopes]) (forall_mem_nil _)

theorem Sound.entered (run : enterScope s = .ok u s') : Stretch [] s s' [] := by
  have sound' : Sound s' := sound.piece .enterScope run
  obtain rfl := modify_eq_ok.1 run
  exact sound'.announces (append_nil _).symm rfl rfl rfl (fun _ => sound.made.sees_enter) (forall_mem_nil _)

end Announces

/-- A variable is numbered, bound to a name and created. -/
structure Creates (type : CType) (s s' : State) : Prop where
  code : s'.code.reverse = s.code.reverse ++
    [⟨.var, .none, [.var type.encoding (.ofNat s.variableCount), .size type.size]⟩]
  loops : s'.loops = s.loops
  counted : s'.variableCount = s.variableCount + 1
  labels : s'.labelCount = s.labelCount
  sees : ∀ id, s'.scopes.Sees id ↔ s.scopes.Sees id ∨ id = .ofNat s.variableCount
  sound : Sound s'

theorem Sound.creates {name : Name} {type : CType} {fill : Operand → Lower Unit} (sound : Sound s)
    (run : declareVariable name type loc fill s = .ok () s') :
    ∃ t, Creates type s t ∧ fill (.var type.encoding (.ofNat s.variableCount)) t = .ok () s' := by
  obtain ⟨free, _, run, created⟩ := declareVariable_steps run
  obtain ⟨_, _, rfl⟩ := emit_eq_ok.1 created
  refine ⟨_, ?_, run⟩
  refine ⟨reverse_cons, rfl, rfl, rfl, fun id => ?_, (Scopes.Varies.bind free).made sound.made, ?_⟩
  · refine (Scopes.sees_bind free).trans (or_congr_right ?_)
    exact ⟨fun same => (Storage.slot.inj same).symm, fun same => congrArg _ same.symm⟩
  · have old : ∀ {id}, s.Uses id → ∃ k < s.variableCount + 1, id = UInt32.ofNat k := fun uses => by
      obtain ⟨k, small, same⟩ := sound.used _ uses
      exact ⟨k, Nat.lt_succ_of_lt small, same⟩
    have new : ∃ k < s.variableCount + 1, UInt32.ofNat s.variableCount = UInt32.ofNat k :=
      ⟨s.variableCount, Nat.lt_succ_self _, rfl⟩
    rintro id (⟨i, mem, o, operand, isId⟩ | ⟨e, listed, slot⟩)
    · rcases mem_cons.1 mem with rfl | mem
      · rcases mem_cons.1 operand with rfl | size
        · cases isId
          exact new
        · obtain rfl := mem_singleton.1 size
          cases isId
      · exact old (.inl ⟨i, mem, o, operand, isId⟩)
    · rcases mem_cons.1 listed with rfl | listed
      · cases slot
        exact new
      · exact old (.inr ⟨e, listed, slot⟩)

theorem Sound.filled (sound : Sound s) (run : declareVariable v.name v.type v.loc (fillVariable v) s = .ok () s') :
    ∃ t part, Creates v.type s t ∧ Stretch [] t s' part := by
  obtain ⟨t, creates, run⟩ := sound.creates run
  -- The variable itself is in sight of its value.
  have seen : ∀ o ∈ [Operand.var v.type.encoding (.ofNat s.variableCount)], ∀ id, o.id? = some id →
      t.scopes.Sees id := by
    refine forall_mem_singleton.2 fun id isId => ?_
    cases isId
    exact (creates.sees _).2 (.inr rfl)
  obtain ⟨part, stretch, _⟩ := creates.sound.stretch run seen (fun _ => ready_fillVariable v _)
    (follows_fillVariable v _) (fun _ _ => neutral_fillVariable v _) (flowCongruence_pays.fillVariable v _ [] trivial)
  exact ⟨t, part, creates, stretch⟩

theorem Sound.taken {name : Name} {type : CType} {index : Nat} (sound : Sound s)
    (run : declareVariable name type loc (takeArgument index) s = .ok () s') :
    ∃ t part, Creates type s t ∧ Stretch [] t s' part := by
  obtain ⟨t, creates, run⟩ := sound.creates run
  have takes := (Stretch.refl [] creates.sound).emit run ⟨rfl, rfl⟩
    (forall_mem_singleton.2 (.inl ((creates.sees _).2 (.inr rfl)))) (fun l defines => by cases defines)
    (forall_mem_nil _)
  exact ⟨t, _, creates, takes⟩

theorem Sound.directive {name : Name} (sound : Sound s)
    (run : emit .sym .function [.symbol Encoding.ptr.tag name] s = .ok () s') : ∃ part, Stretch [] s s' part :=
  ⟨_, (Stretch.refl [] sound).emit run ⟨rfl, rfl⟩ (forall_mem_nil _) (fun l defines => by cases defines)
    (forall_mem_nil _)⟩

/-! ## Statements -/

theorem Sound.inside (h : Sound s) (labels : LoopLabels) : Sound (s.inside labels) := h.transfer rfl rfl (Nat.le_refl _)

theorem Sound.outside (h : Sound s) : Sound s.outside := h.transfer rfl rfl (Nat.le_refl _)

section Statements

variable {loc : Location} {cond : Expr} {body yes no : Lower Unit}

/-- A step that takes states as they should be to such states. -/
def Keeps (m : Lower Unit) : Prop := ∀ s s', Sound s → m s = .ok () s' → Sound s'

theorem Sound.decision {f : Int32 → Int32 → Lower Unit} (sound : Sound s)
    (run : Lowering.decision cond f s = .ok () s') :
    ∃ t part elseLabel endLabel, Stretch [] s t part ∧ NewLabel s t elseLabel ∧ NewLabel s t endLabel ∧
      f elseLabel endLabel t = .ok () s' := by
  obtain ⟨c, t₁, decided, run⟩ := bind_eq_ok.1 run
  obtain ⟨elseLabel, t₂, first, run⟩ := bind_eq_ok.1 run
  obtain ⟨endLabel, t₃, second, run⟩ := bind_eq_ok.1 run
  obtain ⟨_, t₄, compared, run⟩ := bind_eq_ok.1 run
  obtain ⟨_, t₅, branched, run⟩ := bind_eq_ok.1 run
  obtain ⟨part, start, known⟩ := sound.conditionValue decided
  obtain ⟨numbered, rfl, labels₂, variables₂⟩ := start.fresh first
  obtain ⟨numbered', rfl, labels₃, variables₃⟩ := numbered.fresh second
  have since := start.labels
  have labels₄ := emit_labelCount compared
  have labels₅ := emit_labelCount branched
  have newElse : ∀ u : State, t₁.labelCount < u.labelCount → NewLabel s u (.ofNat t₁.labelCount) :=
    fun u small => ⟨t₁.labelCount, since, small, rfl⟩
  -- Numbering the labels leaves the value known.
  have stays : ∀ id, c.operand.id? = some id → Known s t₃ id := fun id isId =>
    (known id isId).imp_right fun new => new.widen (Nat.le_refl _) (by omega)
  obtain ⟨part', compare⟩ := numbered'.compareZero stays compared
  have whole := compare.branch branched (.inl (newElse t₄ (by omega)))
  exact ⟨t₅, _, _, _, whole, newElse t₅ (by omega), ⟨t₂.labelCount, by omega, by omega, rfl⟩, run⟩

theorem Sound.choice (sound : Sound s) (run : choiceCode cond yes no s = .ok () s') (hy : Keeps yes) (hn : Keeps no) :
    ∃ t u w x part elseLabel endLabel, Stretch [] s t part ∧ NewLabel s t elseLabel ∧ NewLabel s t endLabel ∧
      yes t = .ok () u ∧
      Stretch [elseLabel, endLabel] u w [⟨.jmp, .none, [.label endLabel]⟩, .label elseLabel] ∧
      no w = .ok () x ∧ Stretch [endLabel] x s' [.label endLabel] := by
  obtain ⟨t, part, elseLabel, endLabel, decision, newElse, newEnd, run⟩ := sound.decision run
  obtain ⟨_, u, inner, run⟩ := bind_eq_ok.1 run
  obtain ⟨_, u₁, jumped, run⟩ := bind_eq_ok.1 run
  obtain ⟨_, w, onElse, run⟩ := bind_eq_ok.1 run
  obtain ⟨_, x, inner', ended⟩ := bind_eq_ok.1 run
  have behind : Sound u := hy t u decision.sound inner
  have jump := (Stretch.refl [elseLabel, endLabel] behind).jump jumped (.inr (by simp))
  have define := jump.define onElse (.inr (by simp))
  have behind' : Sound x := hn w x define.sound inner'
  have finish := (Stretch.refl [endLabel] behind').define ended (.inr (by simp))
  exact ⟨t, u, w, x, part, elseLabel, endLabel, decision, newElse, newEnd, inner, define, inner', finish⟩

theorem Sound.whileLoop (sound : Sound s) (run : whileCode cond body s = .ok () s') (hb : Keeps body) :
    ∃ t u part start done, Stretch [] s t part ∧ NewLabel s t start ∧ NewLabel s t done ∧
      body (t.inside ⟨start, done⟩) = .ok () u ∧
      Stretch [start, done] u.outside s' [⟨.jmp, .none, [.label start]⟩, .label done] := by
  obtain ⟨start, t₁, first, run⟩ := bind_eq_ok.1 run
  obtain ⟨done, t₂, second, run⟩ := bind_eq_ok.1 run
  obtain ⟨_, t₃, started, run⟩ := bind_eq_ok.1 run
  obtain ⟨_, t, tested, run⟩ := bind_eq_ok.1 run
  obtain ⟨_, w, looped, run⟩ := bind_eq_ok.1 run
  obtain ⟨u, inner, rfl⟩ := inLoop_eq_ok.1 looped
  obtain ⟨_, w, jumped, ended⟩ := bind_eq_ok.1 run
  obtain ⟨numbered, rfl, labels₁, -⟩ := (Stretch.refl [] sound).fresh first
  obtain ⟨numbered', rfl, labels₂, -⟩ := numbered.fresh second
  have labels₃ := emit_labelCount started
  have begun := numbered'.define started (.inl ⟨s.labelCount, Nat.le_refl _, by omega, rfl⟩)
  have tested : Lowering.forTest (some cond) _ t₃ = .ok () t := tested
  obtain ⟨part, test, -⟩ := begun.sound.forTest tested
  have more := test.labels
  have newStart : NewLabel s t (.ofNat s.labelCount) := ⟨s.labelCount, Nat.le_refl _, by omega, rfl⟩
  have newDone : NewLabel s t (.ofNat t₁.labelCount) := ⟨t₁.labelCount, by omega, by omega, rfl⟩
  have whole : Stretch [] s t ([] ++ [.label (.ofNat s.labelCount)] ++ part) :=
    ((begun.widen [.ofNat t₁.labelCount]).trans test).cover (forall_mem_singleton.2 (.inl newDone))
  have behind : Sound u.outside := (hb _ u (test.sound.inside _) inner).outside
  have jump := (Stretch.refl [.ofNat s.labelCount, .ofNat t₁.labelCount] behind).jump jumped (.inr (by simp))
  exact ⟨t, u, _, _, _, whole, newStart, newDone, inner, jump.define ended (.inr (by simp))⟩

def Round.back (start : Int32) : Round → Instr
  | test _ => ⟨.br, .ne, [.label start]⟩
  | step _ => ⟨.jmp, .none, [.label start]⟩

theorem Sound.round {round : Round} (sound : Sound s) (run : round.code l s = .ok () s') :
    ∃ t part, Stretch [] s t part ∧ Stretch [l] t s' [round.back l] := by
  cases round with
  | test cond => exact sound.branchOn run
  | step e =>
    obtain ⟨_, t, advanced, jumped⟩ := bind_eq_ok.1 run
    obtain ⟨part, advance⟩ := sound.forStep advanced
    exact ⟨t, part, advance, (Stretch.refl [l] advance.sound).jump jumped (.inr (by simp))⟩

theorem Sound.loop {cond : Option Expr} {round : Round} (sound : Sound s)
    (run : loopCode cond body round s = .ok () s') (hb : Keeps body) :
    ∃ t t' u w test part, Stretch [] s t [.label (.ofNat s.labelCount)] ∧ t.labelCount = s.labelCount + 3 ∧
      Stretch [.ofNat (s.labelCount + 2)] t t' test ∧ (cond = none → t' = t ∧ test = []) ∧
      body (t'.inside ⟨.ofNat (s.labelCount + 1), .ofNat (s.labelCount + 2)⟩) = .ok () u ∧
      Stretch [.ofNat (s.labelCount + 1)] u.outside w (.label (.ofNat (s.labelCount + 1)) :: part) ∧
      Stretch [.ofNat s.labelCount, .ofNat (s.labelCount + 2)] w s'
        [round.back (.ofNat s.labelCount), .label (.ofNat (s.labelCount + 2))] := by
  obtain ⟨start, t₁, first, run⟩ := bind_eq_ok.1 run
  obtain ⟨next, t₂, second, run⟩ := bind_eq_ok.1 run
  obtain ⟨done, t₃, third, run⟩ := bind_eq_ok.1 run
  obtain ⟨_, t, started, run⟩ := bind_eq_ok.1 run
  obtain ⟨numbered, rfl, labels₁, -⟩ := (Stretch.refl [] sound).fresh first
  obtain ⟨numbered', rfl, labels₂, -⟩ := numbered.fresh second
  obtain ⟨numbered'', rfl, labels₃, -⟩ := numbered'.fresh third
  have labels := emit_labelCount started
  have begun := numbered''.define started (.inl ⟨s.labelCount, Nat.le_refl _, by omega, rfl⟩)
  rw [labels₂, labels₁] at run
  obtain ⟨_, t', tested, run⟩ := bind_eq_ok.1 run
  obtain ⟨_, w₀, looped, run⟩ := bind_eq_ok.1 run
  obtain ⟨u, inner, rfl⟩ := inLoop_eq_ok.1 looped
  obtain ⟨_, w₁, stepped, run⟩ := bind_eq_ok.1 run
  obtain ⟨_, w₂, turned, ended⟩ := bind_eq_ok.1 run
  obtain ⟨test, testing, untested⟩ := begun.sound.forTest tested
  have behind : Sound u.outside := (hb _ u (testing.sound.inside _) inner).outside
  have next := (Stretch.refl [.ofNat (s.labelCount + 1)] behind).define stepped (.inr (by simp))
  obtain ⟨w, part, advance, back⟩ := next.sound.round turned
  have back : Stretch [.ofNat s.labelCount, .ofNat (s.labelCount + 2)] w w₂ [round.back (.ofNat s.labelCount)] :=
    back.cover (forall_mem_singleton.2 (.inr (by simp)))
  exact ⟨t, t', u, w, test, part, begun, by omega, testing, untested, inner, next.trans (advance.widen _),
    back.define ended (.inr (by simp))⟩

theorem Sound.leave {target : LoopLabels → Int32} {what : Unsupported} (sound : Sound s)
    (run : leaveLoop target what loc s = .ok () s') :
    ∃ labels ∈ s.loops, Stretch [target labels] s s' [⟨.jmp, .none, [.label (target labels)]⟩] := by
  obtain ⟨_, _, got, run⟩ := bind_eq_ok.1 run
  obtain ⟨rfl, rfl⟩ := get_eq_ok.1 got
  cases loops : s.loops with
  | nil =>
    rw [loops] at run
    exact (unsupported_eq_ok.1 run).elim
  | cons labels rest =>
    rw [loops] at run
    exact ⟨labels, mem_cons_self .., (Stretch.refl [target labels] sound).jump run (.inr (by simp))⟩

end Statements

end Lowering

end Cof
