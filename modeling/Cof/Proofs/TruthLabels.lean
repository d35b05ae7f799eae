/-
  Truth values and their labels.

  A comparison, or a `!`, makes code for its operands first and numbers its own two labels then.  So it ends in
  seven instructions that are always the same, and its labels are the last two: whatever label the code of the
  operands has to do with was numbered before.  A `&&` or `||` numbers the label for the short way out between
  its operands, and the label of the end behind both.
-/
import Cof.Proofs.Compiled

namespace Cof

/-- The labels that an instruction defines, goes to, or takes the address of. -/
def Instr.refers (i : Instr) : List Int32 := i.introduced?.toList ++ i.targets ++ i.addresses

namespace Lowering

/-- All labels that code has to do with are numbered from one count up to another. -/
def LabelsIn (first last : Nat) (code : List Instr) : Prop :=
  ∀ i ∈ code, ∀ l ∈ i.refers, ∃ k, first ≤ k ∧ k < last ∧ l = .ofNat k

/-- Compare two operands, and let the target be 1 if a condition holds and 0 if it does not. -/
def decisionCode (signedness condition : Qualifier) (left right target : Operand) (onFalse done : Int32) :
    List Instr :=
  [⟨.cmp, signedness, [left, right]⟩, ⟨.br, condition.inverted, [.label onFalse]⟩,
    ⟨.mov, .none, [target, intConstant 1]⟩, ⟨.jmp, .none, [.label done]⟩, .label onFalse,
    ⟨.mov, .none, [target, intConstant 0]⟩, .label done]

def leaveCode (exit : Qualifier) (v : Value) (label : Int32) : List Instr :=
  [⟨.cmp, .signedness v.type.isUnsigned, [v.operand, zeroLike v]⟩, ⟨.br, exit, [.label label]⟩]

/-- Behind the code of its operands an expression ends in that for the truth of a condition.  The two labels of
this are the last that were numbered, and the labels of the operands are smaller. -/
def Materialized (condition : Qualifier) (s : State) (v : Value) (s' : State) : Prop :=
  ∃ operands signedness left right id n,
    v = ⟨.var CType.int.encoding id, .int⟩ ∧ s'.labelCount = n + 2 ∧
    s'.code.reverse = s.code.reverse ++ operands ++
      decisionCode signedness condition left right v.operand (.ofNat n) (.ofNat n + 1) ∧
    LabelsIn s.labelCount n operands ∧
    (s'.labelCount ≤ 2 ^ 31 → ∀ i ∈ operands, ∀ l ∈ i.refers, l < .ofNat n)

/-- A logical operator leaves behind its left operand or behind its right one for the same label, which is
larger than those of the left operand and smaller than those of the right one; the label at its end is the last
that was numbered, and the largest. -/
def ShortCircuited (op : BinOp) (s : State) (v : Value) (s' : State) : Prop :=
  ∃ first l second r id n m,
    v = ⟨.var CType.int.encoding id, .int⟩ ∧ n < m ∧ s'.labelCount = m + 1 ∧
    s'.code.reverse = s.code.reverse ++ first ++ leaveCode (shortCircuit op).1 l (.ofNat n) ++ second ++
      leaveCode (shortCircuit op).1 r (.ofNat n) ++
      [⟨.mov, .none, [v.operand, intConstant (shortCircuit op).2.2]⟩, ⟨.jmp, .none, [.label (.ofNat m)]⟩,
        .label (.ofNat n), ⟨.mov, .none, [v.operand, intConstant (shortCircuit op).2.1]⟩, .label (.ofNat m)] ∧
    LabelsIn s.labelCount n first ∧ LabelsIn (n + 1) m second ∧
    (s'.labelCount ≤ 2 ^ 31 → (∀ i ∈ first, ∀ k ∈ i.refers, k < .ofNat n) ∧
      (∀ i ∈ second, ∀ k ∈ i.refers, .ofNat n < k ∧ k < .ofNat m) ∧ Int32.ofNat n < .ofNat m)

variable {α : Type} {s s' t : State} {v : Value} {m : Lower α} {a : α} {first last n : Nat} {code : List Instr}

/-! ## Numbers and labels -/

theorem ofNat_lt_ofNat {k : Nat} (less : k < n) (small : n < 2 ^ 31) : Int32.ofNat k < Int32.ofNat n := by
  rw [Int32.lt_iff_toInt_lt, Int32.toInt_ofNat_of_lt (Nat.lt_trans less small), Int32.toInt_ofNat_of_lt small]
  omega

theorem LabelsIn.below (h : LabelsIn first n code) (small : n < 2 ^ 31) :
    ∀ i ∈ code, ∀ l ∈ i.refers, l < .ofNat n := by
  intro i mem l refers
  obtain ⟨k, -, less, rfl⟩ := h i mem l refers
  exact ofNat_lt_ofNat less small

theorem LabelsIn.above (h : LabelsIn (n + 1) last code) (small : last ≤ 2 ^ 31) :
    ∀ i ∈ code, ∀ l ∈ i.refers, .ofNat n < l := by
  intro i mem l refers
  obtain ⟨k, more, less, rfl⟩ := h i mem l refers
  exact ofNat_lt_ofNat more (by omega)

theorem introduced?_of_dataLabel? {i : Instr} {l : Int32} (h : i.dataLabel? = some l) : i.introduced? = some l := by
  obtain ⟨opcode, qualifier, operands⟩ := i
  cases opcode with
  | data => exact h
  | _ => cases h

/-- Code that defines every label that is numbered for it has to do with these labels only. -/
theorem labelsIn_of_neutral (neutral : ∀ F loops, Neutral F loops 0 [] m) (run : m s = .ok a s') :
    s.labelCount ≤ s'.labelCount ∧
      ∃ part, s'.code.reverse = s.code.reverse ++ part ∧ LabelsIn s.labelCount s'.labelCount part := by
  obtain ⟨body, -, appends, resolved⟩ := (neutral _ _ s a s' (labelled_start s) run).appends
  refine ⟨appends.since, body.reverse, appends.code, fun i mem l refers => ?_⟩
  rcases List.mem_append.1 refers with refers | address
  · rcases List.mem_append.1 refers with introduces | target
    · exact appends.introduced mem (Option.mem_toList.1 introduces)
    · obtain ⟨j, there, defines⟩ := resolved.targets i mem l target
      exact appends.defined there defines
  · obtain ⟨older, newer, split⟩ := List.append_of_mem mem
    obtain ⟨j, there, data⟩ := resolved.addresses older i newer split l address
    exact appends.introduced (split ▸ List.mem_append_left _ there) (introduced?_of_dataLabel? data)

/-! ## The last instructions -/

def AddsCode (part : List Instr) (s s' : State) : Prop :=
  s'.labelCount = s.labelCount ∧ s'.code.reverse = s.code.reverse ++ part

theorem AddsCode.trans {part part' : List Instr} (h : AddsCode part s t) (h' : AddsCode part' t s') :
    AddsCode (part ++ part') s s' :=
  ⟨h'.1.trans h.1, by rw [h'.2, h.2, List.append_assoc]⟩

theorem emit_adds {opcode : Opcode} {qualifier : Qualifier} {operands : List Operand} {u : Unit}
    (run : emit opcode qualifier operands s = .ok u s') : AddsCode [⟨opcode, qualifier, operands⟩] s s' := by
  obtain ⟨_, _, rfl⟩ := emit_eq_ok.1 run
  exact ⟨rfl, List.reverse_cons⟩

theorem leaveIf_adds {exit : Qualifier} {label : Int32} {u : Unit} (run : leaveIf exit v label s = .ok u s') :
    AddsCode (leaveCode exit v label) s s' := by
  obtain ⟨_, t, compared, branched⟩ := bind_eq_ok.1 run
  exact (emit_adds compared).trans (emit_adds branched)

theorem logicalResult_adds {short full : UInt64} {shortLabel endLabel : Int32}
    (run : logicalResult short full shortLabel endLabel s = .ok v s') :
    ∃ id, v = ⟨.var CType.int.encoding id, .int⟩ ∧ AddsCode
      [⟨.mov, .none, [v.operand, intConstant full]⟩, ⟨.jmp, .none, [.label endLabel]⟩, .label shortLabel,
        ⟨.mov, .none, [v.operand, intConstant short]⟩, .label endLabel] s s' := by
  obtain ⟨target, t₁, taken, run⟩ := bind_eq_ok.1 run
  obtain ⟨rfl, rfl⟩ := temporary_eq_ok.1 taken
  obtain ⟨_, t₂, moved, run⟩ := bind_eq_ok.1 run
  obtain ⟨_, t₃, jumped, run⟩ := bind_eq_ok.1 run
  obtain ⟨_, t₄, defined, run⟩ := bind_eq_ok.1 run
  obtain ⟨_, t₅, moved', run⟩ := bind_eq_ok.1 run
  obtain ⟨_, t₆, ended, run⟩ := bind_eq_ok.1 run
  obtain ⟨rfl, rfl⟩ := pure_eq_ok.1 run
  have front := ((emit_adds moved).trans (emit_adds jumped)).trans (emit_adds defined)
  exact ⟨_, rfl, (front.trans (emit_adds moved')).trans (emit_adds ended)⟩

theorem truthOf_adds {left right : Operand} {signedness condition : Qualifier}
    (run : truthOf left right signedness condition s = .ok v s') :
    ∃ id, v = ⟨.var CType.int.encoding id, .int⟩ ∧ s'.labelCount = s.labelCount + 2 ∧
      s'.code.reverse = s.code.reverse ++ decisionCode signedness condition left right v.operand
        (.ofNat s.labelCount) (.ofNat s.labelCount + 1) := by
  obtain ⟨_, t₁, first, run⟩ := bind_eq_ok.1 run
  obtain ⟨rfl, rfl⟩ := freshLabel_eq_ok.1 first
  obtain ⟨_, t₂, second, run⟩ := bind_eq_ok.1 run
  obtain ⟨rfl, rfl⟩ := freshLabel_eq_ok.1 second
  obtain ⟨_, t₃, compared, run⟩ := bind_eq_ok.1 run
  obtain ⟨_, t₄, branched, run⟩ := bind_eq_ok.1 run
  have result : logicalResult 0 1 (.ofNat s.labelCount) (.ofNat (s.labelCount + 1)) t₄ = .ok v s' := run
  obtain ⟨id, value, adds⟩ := logicalResult_adds result
  have next : Int32.ofNat (s.labelCount + 1) = .ofNat s.labelCount + 1 := Int32.ofNat_add _ _
  rw [next] at adds
  exact ⟨id, value, ((emit_adds compared).trans (emit_adds branched)).trans adds⟩

/-! ## Expressions -/

theorem materialized {left right : α → Operand} {signedness : α → Qualifier} {condition : Qualifier} {loc : Location}
    (neutral : ∀ F loops, Neutral F loops 0 [] m)
    (run : (do
      let x ← m
      noted loc (← truthOf (left x) (right x) (signedness x) condition)) s = .ok v s') :
    Materialized condition s v s' := by
  obtain ⟨x, t, operands, run⟩ := bind_eq_ok.1 run
  obtain ⟨w, u, truth, noted⟩ := bind_eq_ok.1 run
  obtain ⟨rfl, rfl⟩ := noted_eq_ok.1 noted
  obtain ⟨-, part, code, labels⟩ := labelsIn_of_neutral neutral operands
  obtain ⟨id, value, count, code'⟩ := truthOf_adds truth
  refine ⟨part, signedness x, left x, right x, id, t.labelCount, value, count, ?_, labels, fun few => ?_⟩
  · rw [← code]
    exact code'
  · refine labels.below ?_
    have small : u.labelCount ≤ 2 ^ 31 := few
    omega

theorem not_isLogical {op : BinOp} (h : op.isComparison = true) : op.isLogical = false := by
  cases op <;> first | rfl | cases h

theorem materialized_comparison {loc : Location} {op : BinOp} {left right : Expr} (compares : op.isComparison = true)
    (run : value (.binary loc op left right) s = .ok v s') : Materialized (condition op) s v s' := by
  have parts : value (.binary loc op left right) = (do
      let x ← (do
        let l ← value left
        let r ← value right
        comparable op l r loc)
      noted loc (← truthOf x.1.operand x.2.operand (.signedness x.1.type.isUnsigned) (condition op))) := by
    simp only [value, not_isLogical compares, compares, if_true, if_false, Bool.false_eq_true, comparison, bind_assoc]
  rw [parts] at run
  refine materialized (fun F loops => ?_) run
  refine triple_bind (neutral_value left) fun l => triple_bind (neutral_value right) fun r => ?_
  exact congruence_neutral.comparable op (Account.gives_head l []).reads trivial loc 0 []

theorem materialized_not {loc : Location} {operand : Expr} (run : value (.unary loc .not operand) s = .ok v s') :
    Materialized .eq s v s' := by
  have parts : value (.unary loc .not operand) = (do
      let x ← (do
        let x ← value operand
        requireScalar x "!" loc
        return x)
      noted loc (← truthOf x.operand (zeroLike x) (.signedness x.type.isUnsigned) .eq)) := by
    simp only [value, isZero, bind_assoc, pure_bind]
  rw [parts] at run
  refine materialized (fun F loops => ?_) run
  refine triple_bind (neutral_value operand) fun x => ?_
  exact triple_bind (follows_requireScalar _ _ _).quiet fun _ => neutral_pure

theorem shortCircuited {loc : Location} {op : BinOp} {left right : Expr} (logical : op.isLogical = true)
    (run : value (.binary loc op left right) s = .ok v s') : ShortCircuited op s v s' := by
  rw [value, if_pos logical] at run
  rw [ShortCircuited]
  generalize shortCircuit op = circuit at run ⊢
  obtain ⟨l, t₁, ran, run⟩ := bind_eq_ok.1 run
  obtain ⟨_, t₂, scalar, run⟩ := bind_eq_ok.1 run
  obtain ⟨_, rfl⟩ := requireScalar_eq_ok.1 scalar
  obtain ⟨_, t₂, numbered, run⟩ := bind_eq_ok.1 run
  obtain ⟨rfl, rfl⟩ := freshLabel_eq_ok.1 numbered
  obtain ⟨_, t₃, leaves, run⟩ := bind_eq_ok.1 run
  obtain ⟨r, t₄, ran', run⟩ := bind_eq_ok.1 run
  obtain ⟨_, t₅, scalar, run⟩ := bind_eq_ok.1 run
  obtain ⟨_, rfl⟩ := requireScalar_eq_ok.1 scalar
  obtain ⟨_, t₅, numbered, run⟩ := bind_eq_ok.1 run
  obtain ⟨rfl, rfl⟩ := freshLabel_eq_ok.1 numbered
  obtain ⟨_, t₆, leaves', run⟩ := bind_eq_ok.1 run
  obtain ⟨w, u, result, noted⟩ := bind_eq_ok.1 run
  obtain ⟨rfl, rfl⟩ := noted_eq_ok.1 noted
  obtain ⟨-, first, code₁, inFirst⟩ := labelsIn_of_neutral (fun _ _ => neutral_value left) ran
  obtain ⟨labels₃, code₃⟩ := leaveIf_adds leaves
  obtain ⟨since, second, code₄, inSecond⟩ := labelsIn_of_neutral (fun _ _ => neutral_value right) ran'
  obtain ⟨id, value, result⟩ := logicalResult_adds result
  obtain ⟨labels, code⟩ := (leaveIf_adds leaves').trans result
  rw [labels₃] at since inSecond
  refine ⟨first, l, second, r, id, t₁.labelCount, t₄.labelCount, value, since, labels, ?_, inFirst,
    inSecond, fun few => ?_⟩
  · show u.code.reverse = _
    rw [code, code₄, code₃, code₁]
    simp only [List.append_assoc]
  · have small : t₄.labelCount < 2 ^ 31 := by
      rw [labels] at few
      exact few
    refine ⟨inFirst.below (Nat.lt_trans since small), fun i mem k refers => ?_, ofNat_lt_ofNat since small⟩
    exact ⟨inSecond.above (Nat.le_of_lt small) i mem k refers, inSecond.below small i mem k refers⟩

/-- How truth values are made, from any state.  A comparison and a `!` end in the code for the truth of their
condition, whose labels are the last two.  A logical operator has the label of its short way out between the
labels of its operands, and that of its end behind them.  In a module that is compiled all numbers fit. -/
theorem value_materializes :
    (∀ s v s' loc op left right, op.isComparison = true → value (.binary loc op left right) s = .ok v s' →
      Materialized (condition op) s v s') ∧
    (∀ s v s' loc operand, value (.unary loc .not operand) s = .ok v s' → Materialized .eq s v s') ∧
    (∀ s v s' loc op left right, op.isLogical = true → value (.binary loc op left right) s = .ok v s' →
      ShortCircuited op s v s') ∧
    ∀ source bytes p s, compile source = .ok bytes → Program.parse source = .ok p →
      p.forM topLevel {} = .ok () s → s.labelCount ≤ 2 ^ 31 := by
  refine ⟨fun _ _ _ _ _ _ _ => materialized_comparison, fun _ _ _ _ _ => materialized_not,
    fun _ _ _ _ _ _ _ => shortCircuited, fun source bytes p s compiled parsed made => ?_⟩
  obtain ⟨p', s', v, parsed', made', -, few, -, -⟩ := compile_topLevels compiled
  obtain rfl : p' = p := Except.ok.inj (parsed'.symm.trans parsed)
  obtain ⟨-, rfl⟩ : () = () ∧ s' = s := by simpa using made'.symm.trans made
  exact Nat.le_of_lt few

def decided (op : BinOp) : Expr := .binary ⟨1, 1⟩ op (.int ⟨1, 1⟩ 1) (.unary ⟨1, 1⟩ .not (.int ⟨1, 1⟩ 2))

/-- The labels of `(1 && !2) < (1 || !2)`: those of its operands are 0 to 7, and its own 8 and 9. -/
theorem value_materializes_nested :
    (∃ v s', value (.binary ⟨1, 1⟩ .lt (decided .and) (decided .or)) {} = .ok v s' ∧ s'.labelCount = 10 ∧
      Materialized .lt {} v s') ∧
    (∃ v s', value (.unary ⟨1, 1⟩ .not (.int ⟨1, 1⟩ 2)) {} = .ok v s' ∧ Materialized .eq {} v s') ∧
    (∃ v s', value (decided .and) {} = .ok v s' ∧ ShortCircuited .and {} v s') ∧
    ∃ bytes p s, compile (ascii "int f()\x7breturn 1<2;\x7d") = .ok bytes ∧
      Program.parse (ascii "int f()\x7breturn 1<2;\x7d") = .ok p ∧ p.forM topLevel {} = .ok () s ∧
      s.labelCount ≤ 2 ^ 31 := by
  have compiles : (compile (ascii "int f()\x7breturn 1<2;\x7d")).toOption.any (fun _ => true) = true := by
    decide +kernel
  obtain ⟨bytes, compiled, -⟩ := ok_of_any compiles
  obtain ⟨p, s, v, parsed, made, -⟩ := compile_topLevels compiled
  have nested : succeeds (value (.binary ⟨1, 1⟩ .lt (decided .and) (decided .or))) {}
      (fun _ s => s.labelCount == 10) = true := by decide +kernel
  have single : succeeds (value (.unary ⟨1, 1⟩ .not (.int ⟨1, 1⟩ 2))) {} (fun _ _ => true) = true := by decide +kernel
  have short : succeeds (value (decided .and)) {} (fun _ _ => true) = true := by decide +kernel
  obtain ⟨v₁, s₁, run₁, ten⟩ := ok_of_succeeds nested
  obtain ⟨v₂, s₂, run₂, -⟩ := ok_of_succeeds single
  obtain ⟨v₃, s₃, run₃, -⟩ := ok_of_succeeds short
  obtain ⟨comparison, negation, logical, fits⟩ := value_materializes
  exact ⟨⟨v₁, s₁, run₁, beq_iff_eq.1 ten, comparison _ _ _ _ .lt _ _ rfl run₁⟩, ⟨v₂, s₂, run₂, negation _ _ _ _ _ run₂⟩,
    ⟨v₃, s₃, run₃, logical _ _ _ _ .and _ _ rfl run₃⟩,
    bytes, p, s, compiled, parsed, made, fits _ bytes p s compiled parsed made⟩

end Lowering

end Cof
