/-
  Steps that succeed, and the code they add.

  `Lowers scopes k m Q` is about runs of `m` from a state in which these names are visible and `k`
  variables are numbered.  Nothing else of the state matters: the run succeeds, it adds a stretch of code
  to what is there, and `Q` holds of its result, of the number of variables afterwards and of that
  stretch.  Labels come out as unknown numbers, since what code does depends on the labels being defined
  once and not on how they are called.
-/
import Cof.Proofs.Decimal
import Cof.Proofs.Runs
import Mathlib.Data.Nat.Digits.Defs

namespace Cof

/-! ## Instructions that can be encoded -/

def Operand.fits : Operand → Bool
  | .symbol _ name => name.length ≤ 65535
  | _ => true

def Instr.fits (i : Instr) : Bool := i.operands.length ≤ 255 && i.operands.all Operand.fits

theorem Operand.encode_of_fits {o : Operand} (h : o.fits = true) : ∃ bytes, o.encode = .ok bytes := by
  cases o with
  | imm | var | label => exact ⟨_, rfl⟩
  | symbol tag name =>
    have short : name.length ≤ 65535 := by simpa [Operand.fits] using h
    exact ⟨_, if_pos short⟩

theorem Operand.encodeAll_of_fits {os : List Operand} (h : os.all Operand.fits = true) :
    ∃ bytes, encodeAll os = .ok bytes := by
  induction os with
  | nil => exact ⟨[], rfl⟩
  | cons o os ih =>
    rw [List.all_cons, Bool.and_eq_true] at h
    obtain ⟨first, hfirst⟩ := encode_of_fits h.1
    obtain ⟨rest, hrest⟩ := ih h.2
    exact ⟨first ++ rest, by simp only [encodeAll, hfirst, hrest]⟩

theorem Instr.encode_of_fits {i : Instr} (h : i.fits = true) : ∃ bytes, i.encode = .ok bytes := by
  obtain ⟨few, all⟩ : i.operands.length ≤ 255 ∧ i.operands.all Operand.fits = true := by
    simpa only [Instr.fits, Bool.and_eq_true, decide_eq_true_eq] using h
  obtain ⟨rest, hrest⟩ := Operand.encodeAll_of_fits all
  refine ⟨[i.opcode.toByte, i.qualifier.toByte, .ofNat i.operands.length] ++ rest, ?_⟩
  simp only [Instr.encode, if_pos few, hrest]

theorem length_decimal_le {n : Nat} (h : n < 10 ^ 10) : (decimal n).length ≤ 10 := by
  rw [decimal, List.length_map]
  exact Nat.toDigits_length 10 n 10 (by decide) h

theorem length_labelName_le (l : Int32) : (labelName l).length ≤ 13 := by
  have low := l.le_toInt
  have high := l.toInt_lt
  have integer : (decimalInt l.toInt).length ≤ 11 := by
    unfold decimalInt
    split
    · have short := length_decimal_le (n := (-l.toInt).toNat) (by omega)
      rw [List.length_cons]
      omega
    · have short := length_decimal_le (n := l.toInt.toNat) (by omega)
      omega
  have spelled : (labelName l).length = 2 + (decimalInt l.toInt).length := by
    rw [labelName, List.length_append]
    rfl
  omega

theorem fits_labelName (tag : TypeTag) (l : Int32) : (Operand.symbol tag (labelName l)).fits = true :=
  decide_eq_true (Nat.le_trans (length_labelName_le l) (by decide))

theorem Instr.label_fits (l : Int32) : (Instr.label l).fits = true := by
  simp [Instr.fits, Instr.label, fits_labelName]

namespace Lowering

/-! ## Runs that succeed -/

/-- From a state with these names and so many variables a step succeeds, and it only adds code. -/
def Lowers {α : Type} (scopes : Scopes) (k : Nat) (m : Lower α) (Q : α → Nat → List Instr → Prop) : Prop :=
  ∀ s : State, s.scopes = scopes → s.variableCount = k → ∃ a s' part, m s = .ok a s' ∧
    s'.scopes = scopes ∧ s'.code = part.reverse ++ s.code ∧ Q a s'.variableCount part

section Rules

variable {α β : Type} {scopes : Scopes} {k : Nat} {m : Lower α} {f : α → Lower β} {Q R : α → Nat → List Instr → Prop}

theorem Lowers.mono (h : Lowers scopes k m R) (sub : ∀ a n part, R a n part → Q a n part) : Lowers scopes k m Q := by
  intro s visible count
  obtain ⟨a, s', part, run, visible', code, good⟩ := h s visible count
  exact ⟨a, s', part, run, visible', code, sub _ _ _ good⟩

variable {a : α} {opcode : Opcode} {qualifier : Qualifier} {operands : List Operand} {type : CType}

theorem lowers_pure (h : Q a k []) : Lowers scopes k (pure a) Q := by
  rintro s rfl rfl
  exact ⟨a, s, [], rfl, rfl, rfl, h⟩

theorem lowers_bind {Q : β → Nat → List Instr → Prop} (first : Lowers scopes k m R)
    (second : ∀ a n part, R a n part → Lowers scopes n (f a) fun b n' more => Q b n' (part ++ more)) :
    Lowers scopes k (m >>= f) Q := by
  intro s visible count
  obtain ⟨a, t, part, run, visible₁, code₁, good₁⟩ := first s visible count
  obtain ⟨b, s', more, run₂, visible₂, code₂, good₂⟩ := second a _ part good₁ t visible₁ rfl
  refine ⟨b, s', part ++ more, bind_eq_ok.2 ⟨a, t, run, run₂⟩, visible₂, ?_, good₂⟩
  rw [code₂, code₁, List.reverse_append, List.append_assoc]

theorem lowers_skip {Q : β → Nat → List Instr → Prop}
    (skips : ∀ s : State, s.scopes = scopes → ∃ s', m s = .ok a s' ∧ s'.scopes = s.scopes ∧
      s'.code = s.code ∧ s'.variableCount = s.variableCount)
    (rest : Lowers scopes k (f a) Q) : Lowers scopes k (m >>= f) Q := by
  intro s visible count
  obtain ⟨t, run, visible₁, code₁, count₁⟩ := skips s visible
  obtain ⟨b, s', part, run₂, visible₂, code₂, good⟩ := rest t (visible₁.trans visible) (count₁.trans count)
  exact ⟨b, s', part, bind_eq_ok.2 ⟨a, t, run, run₂⟩, visible₂, code₁ ▸ code₂, good⟩

theorem lowers_emit {Q : Unit → Nat → List Instr → Prop} (fits : Instr.fits ⟨opcode, qualifier, operands⟩ = true)
    (h : Q () k [⟨opcode, qualifier, operands⟩]) : Lowers scopes k (emit opcode qualifier operands) Q := by
  rintro s rfl rfl
  obtain ⟨bytes, encodes⟩ := Instr.encode_of_fits fits
  exact ⟨(), _, _, emit_eq_ok.2 ⟨bytes, encodes, rfl⟩, rfl, rfl, h⟩

variable {Q : β → Nat → List Instr → Prop}

theorem lowers_emit_bind {f : Unit → Lower β} (fits : Instr.fits ⟨opcode, qualifier, operands⟩ = true)
    (rest : Lowers scopes k (f ()) fun b n more => Q b n (⟨opcode, qualifier, operands⟩ :: more)) :
    Lowers scopes k (emit opcode qualifier operands >>= f) Q := by
  refine lowers_bind (lowers_emit (Q := fun _ n part => n = k ∧ part = [⟨opcode, qualifier, operands⟩])
    fits ⟨rfl, rfl⟩) ?_
  rintro _ _ _ ⟨rfl, rfl⟩
  exact rest

theorem lowers_defineLabel_bind {l : Int32} {f : Unit → Lower β}
    (rest : Lowers scopes k (f ()) fun b n more => Q b n (Instr.label l :: more)) :
    Lowers scopes k (defineLabel l >>= f) Q :=
  lowers_emit_bind (Instr.label_fits l) rest

theorem lowers_freshLabel {f : Int32 → Lower β} (rest : ∀ l, Lowers scopes k (f l) Q) :
    Lowers scopes k (freshLabel >>= f) Q := by
  intro s visible count
  obtain ⟨b, s', part, run, more⟩ := rest (Int32.ofNat s.labelCount)
    { s with labelCount := s.labelCount + 1 } visible count
  exact ⟨b, s', part, bind_eq_ok.2 ⟨_, _, freshLabel_eq_ok.2 ⟨rfl, rfl⟩, run⟩, more⟩

def intVar (k : Nat) : Operand := .var .i32 (UInt32.ofNat k)

def intValue (k : Nat) : Value := ⟨intVar k, .int⟩

theorem lowers_temporary_typed {f : Operand → Lower β}
    (rest : Lowers scopes (k + 1) (f (.var type.encoding (UInt32.ofNat k))) Q) :
    Lowers scopes k (temporary type >>= f) Q := by
  rintro s visible rfl
  obtain ⟨b, s', part, run, more⟩ := rest { s with variableCount := s.variableCount + 1 } visible rfl
  exact ⟨b, s', part, bind_eq_ok.2 ⟨_, _, temporary_eq_ok.2 ⟨rfl, rfl⟩, run⟩, more⟩

theorem lowers_temporary {f : Operand → Lower β} (rest : Lowers scopes (k + 1) (f (intVar k)) Q) :
    Lowers scopes k (temporary .int >>= f) Q := lowers_temporary_typed rest

theorem lowers_compute_typed
    (fits : Instr.fits ⟨opcode, qualifier, .var type.encoding (UInt32.ofNat k) :: operands⟩ = true) :
    Lowers scopes k (compute opcode qualifier type operands) fun v n part =>
      v = ⟨.var type.encoding (UInt32.ofNat k), type⟩ ∧ n = k + 1 ∧
        part = [⟨opcode, qualifier, .var type.encoding (UInt32.ofNat k) :: operands⟩] :=
  lowers_temporary_typed (lowers_emit_bind fits (lowers_pure ⟨rfl, rfl, rfl⟩))

theorem lowers_noted {m : Lower Value} {loc : Location} {Q : Value → Nat → List Instr → Prop}
    (h : Lowers scopes k m Q) : Lowers scopes k (m >>= fun v => noted loc v) Q := by
  intro s visible count
  obtain ⟨v, t, part, run, visible', code, good⟩ := h s visible count
  exact ⟨v, _, part, bind_eq_ok.2 ⟨v, t, run, noted_eq_ok.2 ⟨rfl, rfl⟩⟩, visible', code, good⟩

end Rules

/-! ## Operations on `int` -/

section Int

variable {scopes : Scopes} {k : Nat}

variable {opcode : Opcode} {op : BinOp} {left right : Operand} {loc : Location} {r : Nat} {id : UInt32}

theorem lowers_compute {qualifier : Qualifier} {operands : List Operand}
    (fits : Instr.fits ⟨opcode, qualifier, intVar k :: operands⟩ = true) :
    Lowers scopes k (compute opcode qualifier .int operands) fun v n part =>
      v = intValue k ∧ n = k + 1 ∧ part = [⟨opcode, qualifier, intVar k :: operands⟩] :=
  lowers_compute_typed fits

theorem arithmetic_int (h : opcode? op = some opcode) (a b : Operand) (loc : Location) :
    arithmetic op ⟨a, .int⟩ ⟨b, .int⟩ loc = compute opcode .signed .int [a, b] := by
  cases op <;> cases h <;> rfl

theorem signed_int {op : UnOp} (h : op = .neg ∨ op = .bitNot) (a : Operand) (loc : Location) :
    signed op ⟨a, .int⟩ loc = compute (if op = .neg then .neg else .not) .signed .int [a] := by
  rcases h with rfl | rfl <;> rfl

def truthCode (left right : Operand) (condition : Qualifier) (target : Operand) (onFalse done : Int32) : List Instr :=
  [⟨.cmp, .signed, [left, right]⟩, ⟨.br, condition.inverted, [.label onFalse]⟩,
    ⟨.mov, .none, [target, intConstant 1]⟩, ⟨.jmp, .none, [.label done]⟩, .label onFalse,
    ⟨.mov, .none, [target, intConstant 0]⟩, .label done]

theorem lowers_truthOf {condition : Qualifier} (fits : left.fits = true ∧ right.fits = true) :
    Lowers scopes k (truthOf left right .signed condition) fun v n part =>
      v = intValue k ∧ n = k + 1 ∧ ∃ onFalse done, part = truthCode left right condition (intVar k) onFalse done := by
  refine lowers_freshLabel fun onFalse => lowers_freshLabel fun done => ?_
  refine lowers_emit_bind (by simp [Instr.fits, fits]) (lowers_emit_bind rfl (lowers_temporary ?_))
  refine lowers_emit_bind rfl (lowers_emit_bind rfl (lowers_defineLabel_bind (lowers_emit_bind rfl ?_)))
  exact lowers_defineLabel_bind (lowers_pure ⟨rfl, rfl, onFalse, done, rfl⟩)

theorem lowers_comparison (fits : left.fits = true ∧ right.fits = true) :
    Lowers scopes k (comparison op ⟨left, .int⟩ ⟨right, .int⟩ loc) fun v n part =>
      v = intValue k ∧ n = k + 1 ∧ ∃ onFalse done,
        part = truthCode left right (condition op) (intVar k) onFalse done := by
  unfold comparison
  exact lowers_truthOf fits

theorem lowers_leaveIf {exit : Qualifier} {label : Int32} :
    Lowers scopes k (leaveIf exit (intValue r) label) fun _ n part =>
      n = k ∧ part = [⟨.cmp, .signed, [intVar r, intConstant 0]⟩, ⟨.br, exit, [.label label]⟩] :=
  lowers_emit_bind rfl (lowers_emit rfl ⟨rfl, rfl⟩)

theorem lowers_logicalResult {short full : UInt64} {shortLabel endLabel : Int32} :
    Lowers scopes k (logicalResult short full shortLabel endLabel) fun v n part =>
      v = intValue k ∧ n = k + 1 ∧
        part = [⟨.mov, .none, [intVar k, intConstant full]⟩, ⟨.jmp, .none, [.label endLabel]⟩,
          .label shortLabel, ⟨.mov, .none, [intVar k, intConstant short]⟩, .label endLabel] := by
  refine lowers_temporary (lowers_emit_bind rfl (lowers_emit_bind rfl (lowers_defineLabel_bind ?_)))
  exact lowers_emit_bind rfl (lowers_defineLabel_bind (lowers_pure ⟨rfl, rfl, rfl⟩))

def stepOpcode : Step → Opcode
  | .inc => .add
  | .dec => .sub

theorem lowers_stepPlace {s : Step} {fixity : Fixity} :
    Lowers scopes k (stepPlace s fixity (.storage (.var .i32 id) .int) loc) fun v n part =>
      v = (match fixity with | .pre => intValue (k + 1) | .post => intValue k) ∧ n = k + 2 ∧
        part = [⟨.mov, .none, [intVar k, .var .i32 id]⟩,
          ⟨stepOpcode s, .signed, [intVar (k + 1), intVar k, intConstant 1]⟩,
          ⟨.mov, .none, [.var .i32 id, intVar (k + 1)]⟩] := by
  refine lowers_skip (fun s _ => ⟨s, rfl, rfl, rfl, rfl⟩) ?_
  refine lowers_bind (lowers_compute rfl) ?_
  rintro _ _ _ ⟨rfl, rfl, rfl⟩
  have opcode : opcode? (stepOp s) = some (stepOpcode s) := by cases s <;> rfl
  show Lowers scopes (k + 1) (arithmetic (stepOp s) ⟨intVar k, .int⟩ ⟨intConstant 1, .int⟩ loc >>= _) _
  rw [arithmetic_int opcode]
  refine lowers_bind (lowers_compute rfl) ?_
  rintro _ _ _ ⟨rfl, rfl, rfl⟩
  refine lowers_skip (fun s _ => ⟨s, rfl, rfl, rfl, rfl⟩) ?_
  show Lowers scopes (k + 1 + 1) (emit .mov .none [.var .i32 id, intVar (k + 1)] >>= _) _
  refine lowers_emit_bind rfl ?_
  cases fixity <;> exact lowers_pure ⟨rfl, rfl, rfl⟩

theorem lowers_noted_value {Q : Value → Nat → List Instr → Prop}
    (h : Q (intValue r) k []) : Lowers scopes k (noted loc (intValue r)) Q :=
  lowers_skip (a := ()) (fun _ _ => ⟨_, noteType_eq_ok.2 rfl, rfl, rfl, rfl⟩) (lowers_pure h)

theorem lowers_storeResult :
    Lowers scopes k (storeResult loc (.storage (.var .i32 id) .int) (intValue r)) fun v n part =>
      v = intValue r ∧ n = k ∧ part = [⟨.mov, .none, [.var .i32 id, intVar r]⟩] := by
  have same : convertAssigned (intValue r) .int loc = pure (intValue r) := rfl
  show Lowers scopes k (convertAssigned (intValue r) .int loc >>= _) _
  rw [same, pure_bind]
  show Lowers scopes k (emit .mov .none [.var .i32 id, intVar r] >>= fun _ => noted loc (intValue r)) _
  exact lowers_emit_bind rfl (lowers_noted_value ⟨rfl, rfl, rfl⟩)

theorem deliver_int (target : Operand) (r : Nat) (loc : Location) :
    deliver (some target) (intValue r) .int loc = emit .mov .none [target, intVar r] := rfl

theorem lowers_branchTarget_bind {β : Type} {f : Option Operand → Lower β}
    {Q : β → Nat → List Instr → Prop} (rest : Lowers scopes (k + 1) (f (some (intVar k))) Q) :
    Lowers scopes k (branchTarget .int >>= f) Q := by
  have target : Lowers scopes k (branchTarget .int) fun t n part =>
      t = some (intVar k) ∧ n = k + 1 ∧ part = [] :=
    lowers_temporary (lowers_pure ⟨rfl, rfl, rfl⟩)
  refine lowers_bind target ?_
  rintro _ _ _ ⟨rfl, rfl, rfl⟩
  exact rest

end Int

end Lowering

end Cof
