/-
  Indexing is dereferencing a sum.

  `a[i]` has code of its own, and `*(a + i)` is made of two operators.  Both evaluate `a` and then `i`, both move the
  pointer among the two by the number that is the other one, and both refuse whatever is not a pointer and a whole
  number.  They differ in one check: only `*` refuses a pointer to `void`.  Apart from it they fail together, and
  otherwise give the same place or value by the same code.
-/
import Cof.Proofs.Course

namespace Cof.Lowering

variable {α β : Type} {s s' t : State}

/-! ## Parallel runs -/

def State.unnoted (s : State) : State := { s with types := [] }

/-- Runs that both fail, or both succeed, with one result and the same state but for notes on types. -/
inductive Parallel : EStateM.Result LowerError State α → EStateM.Result LowerError State α → Prop
  | failed {e e' : LowerError} {s s' : State} : Parallel (.error e s) (.error e' s')
  | done {a : α} {s s' : State} (same : s.unnoted = s'.unnoted) : Parallel (.ok a s) (.ok a s')

section Parallel

variable {m m' : Lower α} {f g : α → Lower β}

theorem bind_of_ok {a : α} (run : m s = .ok a t) : (m >>= f) s = f a t := by
  show EStateM.bind m f s = _
  rw [EStateM.bind, run]

theorem bind_of_error {e : LowerError} (run : m s = .error e t) : (m >>= f) s = .error e t := by
  show EStateM.bind m f s = _
  rw [EStateM.bind, run]

theorem parallel_bind (h : Parallel (m s) (m' s'))
    (rest : ∀ a t t', t.unnoted = t'.unnoted → Parallel (f a t) (g a t')) :
    Parallel ((m >>= f) s) ((m' >>= g) s') := by
  generalize first : m s = r at h
  generalize second : m' s' = r' at h
  cases h with
  | failed =>
    rw [bind_of_error first, bind_of_error second]
    exact .failed
  | done same =>
    rw [bind_of_ok first, bind_of_ok second]
    exact rest _ _ _ same

theorem parallel_same (rest : ∀ a t, m s = .ok a t → Parallel (f a t) (g a t)) :
    Parallel ((m >>= f) s) ((m >>= g) s) := by
  cases run : m s with
  | error e t =>
    rw [bind_of_error run, bind_of_error run]
    exact .failed
  | ok a t =>
    rw [bind_of_ok run, bind_of_ok run]
    exact rest a t run

theorem parallel_noted (loc loc' : Location) (v : Value) (same : s.unnoted = s'.unnoted) :
    Parallel (noted loc v s) (noted loc' v s') := .done same

theorem parallel_emit (opcode : Opcode) (qualifier : Qualifier) (operands : List Operand)
    (same : s.unnoted = s'.unnoted) :
    Parallel (emit opcode qualifier operands s) (emit opcode qualifier operands s') := by
  cases encodes : Instr.encode ⟨opcode, qualifier, operands⟩ with
  | error f =>
    rw [emit_of_error encodes, emit_of_error encodes]
    exact .failed
  | ok bytes =>
    rw [emit_of_ok encodes, emit_of_ok encodes]
    exact .done (congrArg (·.push ⟨opcode, qualifier, operands⟩ bytes) same)

theorem parallel_compute (opcode : Opcode) (qualifier : Qualifier) (type : CType) (operands : List Operand)
    (same : s.unnoted = s'.unnoted) :
    Parallel (compute opcode qualifier type operands s) (compute opcode qualifier type operands s') := by
  have count : s.unnoted.variableCount = s'.unnoted.variableCount := congrArg State.variableCount same
  change s.variableCount = s'.variableCount at count
  have fresh : Parallel (temporary type s) (temporary type s') := by
    show Parallel (.ok (Operand.var _ (UInt32.ofNat s.variableCount)) _)
      (.ok (Operand.var _ (UInt32.ofNat s'.variableCount)) _)
    rw [count]
    exact .done (congrArg (fun u : State => { u with variableCount := s'.variableCount + 1 }) same)
  refine parallel_bind fresh fun target t t' same => ?_
  exact parallel_bind (parallel_emit _ _ _ same) fun _ _ _ same => .done same

theorem parallel_readPlace (p : Place) (same : s.unnoted = s'.unnoted) : Parallel (readPlace p s) (readPlace p s') := by
  cases p with
  | storage operand type =>
    unfold readPlace
    simp only
    split
    · exact parallel_compute _ _ _ _ same
    · exact parallel_compute _ _ _ _ same
  | memory address type =>
    unfold readPlace
    simp only
    split
    · exact .done same
    · exact parallel_compute _ _ _ _ same

end Parallel

/-! ## Elements -/

section Elements

variable {v w : Value} {a b : CType} {sum loc loc' : Location}

theorem parallel_moved {target : CType} (hv : v.HasType (.pointer target)) (hw : w.HasType b)
    (integral : b.isIntegral = true) (solid : target.isVoid = false) (s : State) :
    Parallel ((do
      let address ← offsetPointer v w .add
      notePlace loc (.memory address.operand target)) s) ((do
      let address ← offsetPointer v w .add
      let address ← noted sum address
      pointedPlace loc' address) s) := by
  refine parallel_same fun address t run => ?_
  have made := (enacts_offsetPointer hv hw integral (.inl rfl) s address t rfl run).2
  have pointed : pointedPlace loc' address = notePlace loc' (.memory address.operand target) := by
    unfold pointedPlace
    rw [made.typed.type]
    show (if target.isVoid = true then _ else _) = _
    rw [if_neg (by rw [solid]; exact Bool.false_ne_true)]
  rw [bind_of_ok (noted_eq_ok.2 ⟨rfl, rfl⟩), pointed]
  exact .done rfl

theorem parallel_numbers (hv : v.HasType a) (hw : w.HasType b) {e : LowerError} (s t : State) :
    Parallel (.error e t) ((do
      let r ← numeric .add v w sum
      let r ← noted sum r
      pointedPlace loc' r) s) := by
  cases run : numeric .add v w sum s with
  | error e t =>
    rw [bind_of_error run]
    exact .failed
  | ok r u =>
    have factor : b.isScalar = true → BinOp.add = .mul ∨ BinOp.add = .div → w.Stored := by
      rintro - (⟨⟨⟩⟩ | ⟨⟨⟩⟩)
    obtain ⟨c, found, made⟩ := (enacts_numeric hv hw .add factor sum s r u rfl run).2
    have arithmetic := resultType?_isArithmetic found
    have pointed : pointedPlace loc' r = invalid "*" (.one c) loc' := by
      unfold pointedPlace
      rw [made.typed.type]
      cases c with
      | integral | floating => rfl
      | void | pointer | array | function => cases arithmetic
    rw [bind_of_ok run, bind_of_ok (noted_eq_ok.2 ⟨rfl, rfl⟩), pointed]
    exact .failed

theorem parallel_element (hv : v.HasType a) (hw : w.HasType b) (left : a ≠ .pointer .void) (right : b ≠ .pointer .void)
    (s : State) : Parallel (elementPlace loc v w s) ((do
      let address ← arithmetic .add v w sum
      let address ← noted sum address
      pointedPlace loc' address) s) := by
  have solid : ∀ target : CType, CType.pointer target ≠ .pointer .void → target.isVoid = false := by
    intro target other
    cases target <;> first | rfl | exact absurd rfl other
  have plain := hv.plain
  have plain' := hw.plain
  obtain ⟨x, a⟩ := v
  obtain ⟨y, b⟩ := w
  obtain rfl := hv.type
  obtain rfl := hw.type
  cases a with
  | pointer target =>
    cases b with
    | integral width signed => exact parallel_moved hv hw rfl (solid target left) s
    | void | floating | pointer | array | function => exact .failed
  | integral width signed =>
    cases b with
    | pointer target => exact parallel_moved hw hv rfl (solid target right) s
    | void | integral | floating | function => exact parallel_numbers hv hw s s
    | array => cases plain'.1
  | void | floating =>
    cases b with
    | pointer => exact .failed
    | void | integral | floating | function => exact parallel_numbers hv hw s s
    | array => cases plain'.1
  | array => cases plain.1
  | function => cases plain.2

end Elements

/-! ## Expressions -/

theorem parallel_place (proper : s.scopes.Proper) {a i : Expr} (loc loc' sum : Location)
    (left : ∀ u, typeOf s.scopes a = .ok u → u.decay ≠ .pointer .void)
    (right : ∀ u, typeOf s.scopes i = .ok u → u.decay ≠ .pointer .void) :
    Parallel (place (.index loc a i) s) (place (.unary loc' .deref (.binary sum .add a i)) s) := by
  have sums : value (.binary sum .add a i) =
      value a >>= fun v => value i >>= fun w => arithmetic .add v w sum >>= noted sum := by
    rw [value]
    rfl
  rw [place, place, sums]
  simp only [bind_assoc]
  refine parallel_same fun v t run => ?_
  obtain ⟨grown, ⟨ua, typed, made⟩, -⟩ := enacts_value proper a s v t rfl run
  have scopes := (names_of_growth grown.steps).1
  refine parallel_same fun w u run' => ?_
  obtain ⟨-, ⟨ui, typed', made'⟩, -⟩ := enacts_value (scopes ▸ proper) i t w u rfl run'
  rw [scopes] at typed'
  exact parallel_element made.typed made'.typed (left ua typed) (right ui typed') u

/-- Wherever code is made for a program that was read: if neither `a` nor `i` is a pointer to `void`, then `a[i]` and
`*(a + i)` both fail, or both give the same value by the same code, with the same counts of variables and labels; and
so they do as places. -/
theorem index_eq_deref_add {source : Bytes} {p : Program} (parsed : Program.parse source = .ok p)
    (reached : Reached p s) (a i : Expr) (loc loc' sum : Location)
    (left : ∀ u, typeOf s.scopes a = .ok u → u.decay ≠ .pointer .void)
    (right : ∀ u, typeOf s.scopes i = .ok u → u.decay ≠ .pointer .void) :
    Parallel (value (.index loc a i) s) (value (.unary loc' .deref (.binary sum .add a i)) s) ∧
      Parallel (place (.index loc a i) s) (place (.unary loc' .deref (.binary sum .add a i)) s) := by
  have places := parallel_place (proper_of_reached parsed reached) loc loc' sum left right
  refine ⟨?_, places⟩
  rw [value_eq_place rfl, value_eq_place rfl]
  refine parallel_bind places fun p t t' same => ?_
  exact parallel_bind (parallel_readPlace p same) fun v u u' same => parallel_noted loc loc' v same

/-- The index may be the pointer: `1[m]`, and `*(1 + m)`. -/
theorem index_eq_deref_add_swapped :
    ∃ p v s s', Program.parse (ascii "int m[2];") = .ok p ∧ Reached p (stateAfter (program p) {}) ∧
      value (.index ⟨2, 2⟩ (.int ⟨2, 1⟩ 1) (.ident ⟨2, 3⟩ (ascii "m"))) (stateAfter (program p) {}) = .ok v s ∧
      value (.unary ⟨2, 1⟩ .deref (.binary ⟨2, 4⟩ .add (.int ⟨2, 1⟩ 1) (.ident ⟨2, 3⟩ (ascii "m"))))
        (stateAfter (program p) {}) = .ok v s' ∧
      s.unnoted = s'.unnoted := by
  have computed : (Program.parse (ascii "int m[2];")).toOption.any (fun p =>
      (match value (.index ⟨2, 2⟩ (.int ⟨2, 1⟩ 1) (.ident ⟨2, 3⟩ (ascii "m"))) (stateAfter (program p) {}) with
        | .ok .. => true
        | .error .. => false) &&
      (typeOf (stateAfter (program p) {}).scopes (.int ⟨2, 1⟩ 1)).toOption.all (·.decay != .pointer .void) &&
      (typeOf (stateAfter (program p) {}).scopes (.ident ⟨2, 3⟩ (ascii "m"))).toOption.all
        (·.decay != .pointer .void)) = true := by decide +kernel
  obtain ⟨p, parsed, holds⟩ := ok_of_any computed
  simp only [Bool.and_eq_true] at holds
  obtain ⟨⟨runs, left⟩, right⟩ := holds
  have reached := reached_program p
  have parallel := (index_eq_deref_add parsed reached (.int ⟨2, 1⟩ 1) (.ident ⟨2, 3⟩ (ascii "m")) ⟨2, 2⟩ ⟨2, 1⟩ ⟨2, 4⟩
    (fun u typed => by simpa [typed, Except.toOption] using left)
    (fun u typed => by simpa [typed, Except.toOption] using right)).1
  generalize first : value (.index ⟨2, 2⟩ _ _) _ = r at parallel runs
  generalize second : value (.unary ⟨2, 1⟩ .deref _) _ = r' at parallel
  cases parallel with
  | failed => cases runs
  | done same => exact ⟨p, _, _, _, parsed, reached, first, second, same⟩

end Cof.Lowering
