/-
  Constants as first values.

  A variable of static storage gets its value with its definition, as an immediate that is worked out while code
  is made.  An automatic variable gets it from code: a literal is loaded in its own type, negated in the promoted
  type and converted to the variable's.  Both start from the same constants, literals with at most one minus in
  front, and this is a comparison of the two.
-/
import Cof.Proofs.Course
import Cof.Proofs.Emitted
import Cof.Proofs.Refused
import Cof.Proofs.WrappedIntegers

namespace Cof

open Cof.Lowering Cof.Module

/-! ## What a constant is worth -/

namespace Expr

def literalType? : Expr → Option CType
  | .int _ n => some (.ofLiteral n)
  | .char .. => some .char
  | .float .. => some .double
  | _ => none

def literalValue? : Expr → Option Int
  | .int _ n => some n.toNat
  | .char _ c => some (CType.char.wrap c.toNat)
  | _ => none

/-- The type of a constant: of a literal with at most one minus in front. -/
def constantType? : Expr → Option CType
  | .unary _ .neg literal => literal.literalType?.map CType.promote
  | literal => literal.literalType?

def constantValue? : Expr → Option Int
  | .unary _ .neg literal =>
    literal.literalType?.bind fun type => literal.literalValue?.map fun x => type.promote.wrap (-x)
  | literal => literal.literalValue?

def isNegativeChar : Expr → Bool
  | .char _ c => 128 ≤ c.toNat
  | _ => false

end Expr

theorem Lowering.literalOf_cases (e : Expr) : (∃ loc literal, e = .unary loc .neg literal) ∨
    literalOf e = (e, false) ∧ e.constantType? = e.literalType? ∧ e.constantValue? = e.literalValue? := by
  cases e with
  | unary loc op operand =>
    cases op with
    | neg => exact .inl ⟨loc, operand, rfl⟩
    | plus | not | bitNot | addrOf | deref => exact .inr ⟨rfl, rfl, rfl⟩
  | _ => exact .inr ⟨rfl, rfl, rfl⟩

section Literals

variable {e : Expr} {type : CType} {x : Int}

theorem CType.ofLiteral_isIntegral (n : UInt64) : (CType.ofLiteral n).isIntegral = true := by
  unfold CType.ofLiteral
  split
  · rfl
  · split <;> rfl

theorem Expr.literalType?_cases (typed : e.literalType? = some type) : type = .double ∨ type.isIntegral = true := by
  cases e with
  | int loc n =>
    cases typed
    exact .inr (CType.ofLiteral_isIntegral n)
  | char =>
    cases typed
    exact .inr rfl
  | float => exact .inl (Option.some.inj typed).symm
  | _ => cases typed

theorem Expr.literal_of_value (valued : e.literalValue? = some x) :
    ∃ type, e.literalType? = some type ∧ type.isIntegral = true ∧ type.Fits x := by
  cases e with
  | int loc n =>
    cases valued
    refine ⟨_, rfl, CType.ofLiteral_isIntegral n, ?_⟩
    have bound := n.toNat_lt
    unfold CType.ofLiteral
    split
    · exact CType.fits_signed (by rw [IntWidth.bytes, patterns_four]; omega) (by rw [IntWidth.bytes, patterns_four]; omega)
    · split
      · exact CType.fits_signed (by rw [IntWidth.bytes, patterns_eight]; omega)
          (by rw [IntWidth.bytes, patterns_eight]; omega)
      · exact CType.fits_unsigned (Int.natCast_nonneg _) (by rw [IntWidth.bytes, patterns_eight]; omega)
  | char loc c =>
    obtain rfl := Option.some.inj valued
    exact ⟨_, rfl, rfl, CType.char.fits_wrap _⟩
  | _ => cases valued

end Literals

theorem CType.promote_isIntegral {type : CType} (h : type.isIntegral = true) : type.promote.isIntegral = true := by
  cases type with
  | integral width isSigned => cases width <;> rfl
  | void | floating | pointer | array | function => cases h

section Constants

variable {e : Expr} {type : CType} {x : Int}

theorem Expr.constantValue?_negated {loc : Location} {literal : Expr}
    (h : (Expr.unary loc .neg literal).constantValue? = some x) :
    ∃ type y, literal.literalType? = some type ∧ literal.literalValue? = some y ∧ x = type.promote.wrap (-y) := by
  obtain ⟨type, typed, found⟩ := Option.bind_eq_some_iff.1 h
  obtain ⟨y, valued, rfl⟩ := Option.map_eq_some_iff.1 found
  exact ⟨type, y, typed, valued, rfl⟩

theorem Expr.constant_of_value (valued : e.constantValue? = some x) :
    ∃ type, e.constantType? = some type ∧ type.isIntegral = true ∧ type.Fits x := by
  rcases literalOf_cases e with ⟨loc, literal, rfl⟩ | ⟨-, ofType, ofValue⟩
  · obtain ⟨source, y, typed, written, rfl⟩ := constantValue?_negated valued
    obtain ⟨_, again, integral, -⟩ := literal_of_value written
    obtain rfl := Option.some.inj (typed.symm.trans again)
    exact ⟨source.promote, congrArg (Option.map CType.promote) typed, CType.promote_isIntegral integral,
      CType.fits_wrap ..⟩
  · rw [ofType]
    rw [ofValue] at valued
    exact literal_of_value valued

theorem Expr.constantType?_of_bits {target : CType} {bits : UInt64} (found : constantBits? target e = some bits) :
    ∃ type, e.constantType? = some type := by
  have literal : ∀ l : Expr, (floatingLiteral? l).isSome = true ∨ (integerLiteral? l).isSome = true →
      ∃ type, l.literalType? = some type := by
    intro l known
    cases l with
    | int | char | float => exact ⟨_, rfl⟩
    | _ => rcases known with known | known <;> cases known
  obtain ⟨source, written⟩ := literal _ (literal_of_constantBits? found)
  rcases literalOf_cases e with ⟨loc, literal, rfl⟩ | ⟨plain, ofType, -⟩
  · exact ⟨source.promote, congrArg (Option.map CType.promote) written⟩
  · rw [plain] at written
    exact ⟨source, ofType.trans written⟩

theorem Expr.constantType?_cases (typed : e.constantType? = some type) : type = .double ∨ type.isIntegral = true := by
  rcases literalOf_cases e with ⟨loc, literal, rfl⟩ | ⟨-, ofType, -⟩
  · obtain ⟨source, written, rfl⟩ := Option.map_eq_some_iff.1 typed
    rcases literalType?_cases written with rfl | integral
    · exact .inl rfl
    · exact .inr (CType.promote_isIntegral integral)
  · exact literalType?_cases (ofType ▸ typed)

end Constants

/-! ## Constants in code -/

namespace Lowering

variable {scopes : Scopes} {k : Nat} {e : Expr} {type source : CType} {id : UInt32} {loc : Location}

def Value.slot (type : CType) (id : UInt32) : Value := ⟨.var type.encoding id, type⟩

theorem lowers_constant (type : CType) (bits : UInt64) :
    Lowers scopes k (constant type bits) fun v _ part =>
      ∃ id, v = .slot type id ∧ Loads part (.var type.encoding id) bits.toNat := by
  refine (lowers_compute_typed rfl).mono ?_
  rintro _ _ _ ⟨rfl, -, rfl⟩
  exact ⟨_, rfl, (loads_imm type.encoding bits).mov rfl⟩

theorem lowers_convert (source target : CType) (id : UInt32) :
    Lowers scopes k (convert (.slot source id) target) fun v _ more =>
      ∃ id', v = .slot target id' ∧ ∀ part x, source.isIntegral = true → target.isIntegral = true →
        source.Fits x → Loads part (.var source.encoding id) x →
        Loads (part ++ more) (.var target.encoding id') (target.wrap x) := by
  unfold convert
  split
  case isTrue same =>
    obtain rfl : source = target := same
    refine lowers_pure ⟨id, rfl, fun part x _ _ fits loads => ?_⟩
    rw [List.append_nil, fits]
    exact loads
  case isFalse =>
    split
    case isTrue same =>
      have same : source.encoding = target.encoding := same
      refine lowers_pure ⟨id, by rw [Value.slot, Value.slot, same], fun part x _ integral fits loads => ?_⟩
      rw [List.append_nil, ← same]
      exact loads.congr (by rw [Operand.encoding, same, CType.low_wrap integral])
    case isFalse =>
      refine (lowers_compute_typed rfl).mono ?_
      rintro _ _ _ ⟨rfl, -, rfl⟩
      refine ⟨_, rfl, fun part x integral integral' fits loads => ?_⟩
      refine Loads.congr ?_ (CType.low_wrap integral' x).symm
      exact loads.cvt (CType.extend_low integral fits)

theorem lowers_negated (arithmetic : source.isArithmetic = true) (id : UInt32) (loc : Location) :
    Lowers scopes k (signed .neg (.slot source id) loc) fun v _ more =>
      ∃ id', v = .slot source.promote id' ∧ ∀ part x, source.isIntegral = true → source.Fits x →
        Loads part (.var source.encoding id) x →
        Loads (part ++ more) (.var source.promote.encoding id') (source.promote.wrap (-x)) := by
  unfold signed
  rw [if_neg (by show ¬ (!source.isArithmetic) = true; rw [arithmetic]; exact Bool.false_ne_true)]
  refine lowers_bind (lowers_convert source source.promote id) ?_
  rintro _ n near ⟨id₁, rfl, converts⟩
  refine (lowers_compute_typed rfl).mono ?_
  rintro _ _ _ ⟨rfl, -, rfl⟩
  refine ⟨_, rfl, fun part x integral fits loads => ?_⟩
  have promoted := CType.promote_isIntegral integral
  rw [← List.append_assoc]
  refine ((converts part x integral promoted fits loads).neg rfl).congr ?_
  -- both are `-x`, as far as the bits go
  show source.promote.encoding.low _ = source.promote.encoding.low _
  rw [CType.low_wrap promoted, ← Encoding.low_neg, CType.low_wrap promoted, Encoding.low_neg]

theorem lowers_value_literal (typed : e.literalType? = some type) :
    Lowers scopes k (value e) fun v _ part =>
      ∃ id, v = .slot type id ∧ ∀ x, e.literalValue? = some x → Loads part (.var type.encoding id) x := by
  cases e with
  | int loc n =>
    cases typed
    refine lowers_noted ((lowers_constant (.ofLiteral n) n).mono ?_)
    rintro _ _ part ⟨id, rfl, loads⟩
    refine ⟨id, rfl, fun x valued => ?_⟩
    cases valued
    exact loads
  | char loc c =>
    cases typed
    refine lowers_noted ((lowers_constant .char c.toUInt64).mono ?_)
    rintro _ _ part ⟨id, rfl, loads⟩
    refine ⟨id, rfl, fun x valued => ?_⟩
    obtain rfl := Option.some.inj valued
    refine loads.congr ?_
    exact (@CType.low_wrap .char rfl _).symm
  | float loc x =>
    cases typed
    refine lowers_noted ((lowers_constant .double x.bits).mono ?_)
    rintro _ _ part ⟨id, rfl, -⟩
    refine ⟨id, rfl, fun x valued => ?_⟩
    cases valued
  | _ => cases typed

theorem lowers_value_constant (typed : e.constantType? = some type) :
    Lowers scopes k (value e) fun v _ part =>
      ∃ id, v = .slot type id ∧ ∀ x, e.constantValue? = some x → Loads part (.var type.encoding id) x := by
  rcases literalOf_cases e with ⟨loc, literal, rfl⟩ | ⟨-, ofType, ofValue⟩
  · obtain ⟨source, written, rfl⟩ := Option.map_eq_some_iff.1 typed
    have arithmetic : source.isArithmetic = true := by
      rcases Expr.literalType?_cases written with rfl | integral
      · rfl
      · rw [CType.isArithmetic, integral, Bool.true_or]
    refine lowers_bind (lowers_value_literal written) ?_
    rintro _ n part ⟨id, rfl, loads⟩
    refine lowers_noted ((lowers_negated arithmetic id loc).mono ?_)
    rintro _ _ more ⟨id', rfl, negates⟩
    refine ⟨id', rfl, fun x worth => ?_⟩
    obtain ⟨_, y, again, valued, rfl⟩ := Expr.constantValue?_negated worth
    obtain rfl := Option.some.inj (written.symm.trans again)
    obtain ⟨_, again, integral, fits⟩ := Expr.literal_of_value valued
    obtain rfl := Option.some.inj (written.symm.trans again)
    exact negates part y integral fits (loads y valued)
  · rw [ofType] at typed
    rw [ofValue]
    exact lowers_value_literal typed

/-- A constant can be assigned to any scalar, except that a floating number cannot to a pointer. -/
theorem assignable_constant {target : CType} (scalar : target.isScalar = true) (typed : e.constantType? = some type) :
    assignable target type = true ↔ ¬ (target.isPointer = true ∧ type = .double) := by
  unfold assignable
  rw [scalar]
  rcases Expr.constantType?_cases typed with rfl | integral
  · cases target with
    | pointer => exact iff_of_false Bool.noConfusion fun h => h ⟨rfl, rfl⟩
    | void | integral | floating | array | function => exact iff_of_true rfl fun h => Bool.noConfusion h.1
  · cases type with
    | integral =>
      refine iff_of_true ?_ fun h => CType.noConfusion h.2
      cases target <;> rfl
    | void | floating | pointer | array | function => cases integral

/-! ## Automatic variables -/

section Automatic

variable {v : VarDecl} {init : Expr} {s s' : State}

variable {target : CType}

theorem scalar_of_assignable {source : CType} (h : assignable target source = true) : target.isScalar = true := by
  unfold assignable at h
  rw [Bool.and_eq_true, Bool.and_eq_true] at h
  exact h.1.1

theorem size_ne_zero_of_isScalar {type : CType} (h : type.isScalar = true) : type.size ≠ 0 := by
  cases type with
  | integral width isSigned => cases width <;> cases isSigned <;> decide
  | floating width => cases width <;> decide
  | pointer => exact (by decide : (8 : UInt64) ≠ 0)
  | void | array | function => cases h

def createWith (id : UInt32) (type : CType) (init : Expr) : Lower Unit := do
  let target ← createVariable id type
  let first ← value init
  let first ← convertAssigned first type init.loc
  emit .mov .none [target, first.operand]

theorem localAutomatic_eq (given : v.init = some init) (scalar : v.type.isScalar = true) :
    localAutomatic v = freshVariable >>= fun id =>
      bindName v.name v.type (.slot id) v.loc >>= fun _ => createWith id v.type init := by
  have flat : v.type.isArray = false := (plain_of_isScalar scalar).1
  unfold localAutomatic
  rw [if_neg (size_ne_zero_of_isScalar scalar)]
  simp only [given, flat, Bool.false_eq_true, ite_false]
  rfl

theorem lowers_createVariable (id : UInt32) (type : CType) :
    Lowers scopes k (createVariable id type) fun o _ part => o = .var type.encoding id ∧
      part = [⟨.var, .none, [.var type.encoding id, .size type.size]⟩] :=
  lowers_emit_bind rfl (lowers_pure ⟨rfl, rfl⟩)

theorem lowers_createWith (constant : init.constantType? = some type)
    (assigns : assignable target type = true) (id : UInt32) :
    Lowers scopes k (createWith id target init) fun _ _ part =>
      ∀ x, init.constantValue? = some x → target.isIntegral = true → Loads part (.var target.encoding id) x := by
  refine lowers_bind (lowers_createVariable id target) ?_
  rintro _ n _ ⟨rfl, rfl⟩
  refine lowers_bind (lowers_value_constant constant) ?_
  rintro _ n near ⟨id₁, rfl, loads⟩
  rw [convertAssigned, if_pos (show assignable target (Value.slot type id₁).type = true from assigns)]
  refine lowers_bind (lowers_convert type target id₁) ?_
  rintro _ n far ⟨id₂, rfl, converts⟩
  refine lowers_emit rfl fun x valued integral => ?_
  obtain ⟨_, again, whole, fits⟩ := Expr.constant_of_value valued
  obtain rfl := Option.some.inj (constant.symm.trans again)
  have first := converts near x whole integral fits (loads x valued)
  rw [List.singleton_append, ← List.append_assoc]
  exact ((first.mov rfl).congr (CType.low_wrap integral x)).cons_var

theorem localAutomatic_of_assignable (given : v.init = some init) (constant : init.constantType? = some type)
    (assigns : assignable v.type type = true) (free : s.scopes.lookupCurrent v.name = none) :
    ∃ s' part, localAutomatic v s = .ok () s' ∧
      s'.scopes = s.scopes.bind ⟨v.name, v.type, s.scopes.depth, .slot (.ofNat s.variableCount)⟩ ∧
      s'.code = part.reverse ++ s.code ∧ ∀ x, init.constantValue? = some x → v.type.isIntegral = true →
        Loads part (.var v.type.encoding (.ofNat s.variableCount)) x := by
  let named : State :=
    { s with variableCount := s.variableCount + 1,
             scopes := s.scopes.bind ⟨v.name, v.type, s.scopes.depth, .slot (.ofNat s.variableCount)⟩ }
  obtain ⟨_, s', part, run, scopes, code, loads⟩ :=
    lowers_createWith constant assigns (.ofNat s.variableCount) named rfl rfl
  refine ⟨s', part, ?_, scopes, code, loads⟩
  rw [localAutomatic_eq given (scalar_of_assignable assigns)]
  refine bind_eq_ok.2 ⟨_, _, freshVariable_eq_ok.2 ⟨rfl, rfl⟩, bind_eq_ok.2 ⟨(), named, ?_, run⟩⟩
  exact Scopes.bindName_of_free (l := { s with variableCount := s.variableCount + 1 }) free ..

theorem localAutomatic_of_not_assignable (given : v.init = some init) (constant : init.constantType? = some type)
    (scalar : v.type.isScalar = true) (refuses : assignable v.type type = false) : localAutomatic v s ≠ .ok () s' := by
  intro run
  rw [localAutomatic_eq given scalar] at run
  obtain ⟨_, t₁, -, run⟩ := bind_eq_ok.1 run
  obtain ⟨_, t₂, -, run⟩ := bind_eq_ok.1 run
  obtain ⟨_, t₃, -, run⟩ := bind_eq_ok.1 run
  obtain ⟨first, t₄, lowered, run⟩ := bind_eq_ok.1 run
  obtain ⟨_, _, _, again, -, -, id, rfl, -⟩ := lowers_value_constant constant t₃ rfl rfl
  obtain ⟨rfl, rfl⟩ := EStateM.Result.ok.inj (lowered.symm.trans again)
  obtain ⟨_, t₅, assigned, -⟩ := bind_eq_ok.1 run
  obtain ⟨accepts, -⟩ | ⟨-, failed⟩ := ite_eq_ok.1 assigned
  · exact absurd (accepts.symm.trans refuses) Bool.noConfusion
  · exact (invalid_eq_ok.1 failed).elim

end Automatic

/-! ## Variables of static storage -/

section Static

variable {v : VarDecl} {init : Expr} {bits : UInt64} {s s' : State}

theorem static_code (given : v.init = some init) (run : globalVariable v s = .ok () s' ∨ localStatic v s = .ok () s') :
    ∃ t name isStatic first, initialValue v t = .ok first t ∧
      s'.code = definition name v.type isStatic first :: s.code := by
  rcases run with run | run
  · have defines : v.isDefinition = true := by rw [VarDecl.isDefinition, given, Option.isSome_some, Bool.or_true]
    obtain ⟨t, linked, ⟨-, defined⟩ | ⟨undefined, -⟩⟩ := globalVariable_steps run
    · obtain ⟨_, _, rfl⟩ := linked.same
      obtain ⟨first, _, _, initial, -, -, rfl⟩ := defineObject_steps defined
      exact ⟨_, _, _, first, initial, rfl⟩
    · cases defines.symm.trans undefined
  · obtain ⟨first, _, _, initial, -, -, rfl⟩ := defineObject_steps (localStatic_steps run).2
    exact ⟨_, _, _, first, initial, rfl⟩

theorem initialValue_iff (given : v.init = some init) {first : List Operand} :
    initialValue v s = .ok first s ↔ v.type.isScalar = true ∧
      ∃ bits, constantBits? v.type init = some bits ∧ first = [.imm v.type.encoding bits] := by
  unfold initialValue
  rw [given]
  show (constantOperand v init >>= fun o => pure [o]) s = .ok first s ↔ _
  unfold constantOperand
  cases v.type.isScalar with
  | false =>
    refine iff_of_false (fun run => ?_) (fun h => Bool.noConfusion h.1)
    obtain ⟨_, _, failed, -⟩ := bind_eq_ok.1 run
    exact (unsupported_eq_ok.1 failed).elim
  | true =>
    cases constantBits? v.type init with
    | none =>
      refine iff_of_false (fun run => ?_) (fun h => ?_)
      · obtain ⟨_, _, failed, -⟩ := bind_eq_ok.1 run
        exact (unsupported_eq_ok.1 failed).elim
      · obtain ⟨-, bits, found, -⟩ := h
        cases found
    | some bits =>
      constructor
      · intro run
        obtain ⟨_, _, found, run⟩ := bind_eq_ok.1 run
        obtain ⟨rfl, rfl⟩ := pure_eq_ok.1 found
        obtain ⟨rfl, -⟩ := pure_eq_ok.1 run
        exact ⟨rfl, bits, rfl, rfl⟩
      · rintro ⟨-, _, ⟨⟩, rfl⟩
        rfl

end Static

/-! ## The value of an immediate -/

section Immediate

variable {width : IntWidth} {isSigned : Bool} {x : Int}

theorem patterns_dvd (width : IntWidth) : (patterns width.bytes : Int) ∣ patterns 8 := by
  rw [Int.natCast_dvd_natCast]
  exact Nat.pow_dvd_pow 2 (by cases width <;> decide)

theorem toNat_neg_modEq (n : UInt64) : ((0 - n).toNat : Int) ≡ -n.toNat [ZMOD patterns 8] := by
  have bound := n.toNat_lt
  have difference : (0 - n).toNat = (18446744073709551616 - n.toNat) % 18446744073709551616 := by
    simp
  rw [Int.modEq_iff_dvd, patterns_eight, difference]
  omega

theorem wrap_char (c : UInt8) : CType.char.wrap c.toNat = if c.toNat < 128 then (c.toNat : Int) else c.toNat - 256 := by
  have bound := c.toNat_lt
  show Int.bmod c.toNat (patterns 1) = _
  rw [patterns_one, Int.bmod_def]
  split <;> split <;> omega

theorem wrap_char_modEq (c : UInt8) (width : IntWidth) :
    (c.toNat : Int) ≡ CType.char.wrap c.toNat [ZMOD patterns width.bytes] ↔ ¬ (128 ≤ c.toNat ∧ width ≠ .w8) := by
  rw [wrap_char]
  by_cases high : 128 ≤ c.toNat
  · have less : (c.toNat : Int) - 256 - c.toNat = -256 := by omega
    rw [if_neg (Nat.not_lt.2 high), Int.modEq_iff_dvd, less, Int.dvd_neg]
    cases width with
    | w8 => exact iff_of_true (Int.dvd_refl _) fun h => h.2 rfl
    | w16 | w32 | w64 => exact iff_of_false (by decide) fun h => h ⟨high, IntWidth.noConfusion⟩
  · rw [if_pos (Nat.not_le.1 high)]
    exact iff_of_true rfl fun h => high h.1

/-- The bits of a literal are those of its value, except that a character is extended by zeros. -/
theorem integerLiteral?_modEq (valued : e.literalValue? = some x) (width : IntWidth) :
    ∃ n, integerLiteral? e = some n ∧
      ((n.toNat : Int) ≡ x [ZMOD patterns width.bytes] ↔ ¬ (e.isNegativeChar = true ∧ width ≠ .w8)) := by
  cases e with
  | int loc n =>
    cases valued
    exact ⟨n, rfl, iff_of_true rfl fun h => Bool.noConfusion h.1⟩
  | char loc c =>
    obtain rfl := Option.some.inj valued
    refine ⟨c.toUInt64, rfl, ?_⟩
    rw [UInt8.toNat_toUInt64, wrap_char_modEq, Expr.isNegativeChar, decide_eq_true_eq]
  | _ => cases valued

/-- The promoted type of a literal holds its negation, or else is as wide as an immediate. -/
theorem wrap_neg_modEq (typed : e.literalType? = some type) (valued : e.literalValue? = some x) :
    type.promote.wrap (-x) ≡ -x [ZMOD patterns 8] := by
  have small : -2147483648 < x → x ≤ 2147483648 → CType.int.wrap (-x) ≡ -x [ZMOD patterns 8] := by
    intro low high
    have fits : CType.int.Fits (-x) :=
      CType.fits_signed (by rw [IntWidth.bytes, patterns_four]; omega) (by rw [IntWidth.bytes, patterns_four]; omega)
    exact congrArg (· % (patterns 8 : Int)) fits
  cases e with
  | int loc n =>
    cases typed
    cases valued
    unfold CType.ofLiteral
    split
    · exact small (by omega) (by omega)
    · split
      · exact @CType.wrap_emod .w64 _ _
      · exact @CType.wrap_emod .w64 _ _
  | char loc c =>
    cases typed
    obtain rfl := Option.some.inj valued
    have bound := c.toNat_lt
    have range := wrap_char c
    exact small (by split at range <;> omega) (by split at range <;> omega)
  | _ => cases valued

theorem constantBits?_modEq {init : Expr} (valued : init.constantValue? = some x) (width : IntWidth) (isSigned : Bool) :
    ∃ bits, constantBits? (.integral width isSigned) init = some bits ∧
      ((bits.toNat : Int) ≡ x [ZMOD patterns width.bytes] ↔
        ¬ ((literalOf init).1.isNegativeChar = true ∧ width ≠ .w8)) := by
  rcases literalOf_cases init with ⟨loc, literal, rfl⟩ | ⟨plain, -, ofValue⟩
  · obtain ⟨source, y, typed, written, rfl⟩ := Expr.constantValue?_negated valued
    obtain ⟨n, found, agree⟩ := integerLiteral?_modEq written width
    refine ⟨0 - n, ?_, Iff.trans ?_ agree⟩
    · show (integerLiteral? literal).map _ = _
      rw [found]
      rfl
    have left := (toNat_neg_modEq n).of_dvd (patterns_dvd width)
    have right := (wrap_neg_modEq typed written).of_dvd (patterns_dvd width)
    calc ((0 - n).toNat : Int) ≡ source.promote.wrap (-y) [ZMOD patterns width.bytes]
        ↔ -(n.toNat : Int) ≡ -y [ZMOD patterns width.bytes] :=
          ⟨fun h => left.symm.trans (h.trans right), fun h => left.trans (h.trans right.symm)⟩
      _ ↔ (n.toNat : Int) ≡ y [ZMOD patterns width.bytes] := Int.neg_modEq_neg
  · rw [ofValue] at valued
    obtain ⟨n, found, agree⟩ := integerLiteral?_modEq valued width
    refine ⟨n, ?_, ?_⟩
    · unfold constantBits?
      rw [plain]
      show (integerLiteral? init).map _ = _
      rw [found]
      rfl
    · rw [plain]
      exact agree

end Immediate

/-! ## Both ways compared -/

section Compared

variable {v : VarDecl} {init : Expr} {s s' : State}

/-- An integer constant is accepted for a variable of integer type whatever its storage.  The code for an automatic
variable leaves the value of the constant in it.  The immediate of a static one has that value, modulo the width of
the type, unless the literal is a character from 128 on and the variable is wider than that. -/
theorem first_value_agrees_iff {width : IntWidth} {isSigned : Bool} {x : Int} (type : v.type = .integral width isSigned)
    (given : v.init = some init) (worth : init.constantValue? = some x) : ∃ bits : UInt64,
      (∀ s, initialValue v s = .ok [.imm v.type.encoding bits] s) ∧
      (∀ s s', globalVariable v s = .ok () s' ∨ localStatic v s = .ok () s' → ∃ name isStatic,
        s'.code = definition name v.type isStatic [.imm v.type.encoding bits] :: s.code) ∧
      (∀ s, s.scopes.lookupCurrent v.name = none → ∃ s' id part, localAutomatic v s = .ok () s' ∧
        s'.scopes = s.scopes.bind ⟨v.name, v.type, s.scopes.depth, .slot id⟩ ∧
        s'.code = part.reverse ++ s.code ∧ Loads part (.var v.type.encoding id) x) ∧
      ((bits.toNat : Int) ≡ x [ZMOD patterns width.bytes] ↔
        ¬ ((literalOf init).1.isNegativeChar = true ∧ width ≠ .w8)) := by
  obtain ⟨bits, found, agree⟩ := constantBits?_modEq worth width isSigned
  rw [← type] at found
  have scalar : v.type.isScalar = true := by
    rw [type]
    rfl
  have integral : v.type.isIntegral = true := by
    rw [type]
    rfl
  refine ⟨bits, fun s => ?_, fun s s' run => ?_, fun s free => ?_, agree⟩
  · exact (initialValue_iff given).2 ⟨scalar, bits, found, rfl⟩
  · obtain ⟨t, name, isStatic, first, initial, code⟩ := static_code given run
    obtain ⟨-, _, again, rfl⟩ := (initialValue_iff given).1 initial
    obtain rfl := Option.some.inj (found.symm.trans again)
    exact ⟨name, isStatic, code⟩
  · obtain ⟨source, typed, -⟩ := Expr.constant_of_value worth
    have assigns : assignable v.type source = true := by
      refine (assignable_constant scalar typed).2 fun h => ?_
      rw [type] at h
      exact Bool.noConfusion h.1
    obtain ⟨s', part, run, scopes, code, loads⟩ := localAutomatic_of_assignable given typed assigns free
    exact ⟨s', _, part, run, scopes, code, loads x worth integral⟩

def startingAt (type : CType) (init : Expr) : VarDecl := ⟨ascii "x", type, some init, .plain, ⟨1, 5⟩⟩

/-- As an `unsigned long`, `-1` is the largest number, since it is an `int` that is extended by its sign. -/
theorem first_value_agrees_minus_one : (Expr.unary ⟨1, 7⟩ .neg (.int ⟨1, 8⟩ 1)).constantValue? = some (-1) ∧
    ∃ bits : UInt64,
      initialValue (startingAt .unsignedLong (.unary ⟨1, 7⟩ .neg (.int ⟨1, 8⟩ 1))) {} = .ok [.imm .u64 bits] {} ∧
      (∃ s' id, localAutomatic (startingAt .unsignedLong (.unary ⟨1, 7⟩ .neg (.int ⟨1, 8⟩ 1))) {} = .ok () s' ∧
        Loads s'.code.reverse (.var .u64 id) (-1)) ∧
      (bits.toNat : Int) ≡ -1 [ZMOD patterns 8] := by
  have worth : (Expr.unary ⟨1, 7⟩ .neg (.int ⟨1, 8⟩ 1)).constantValue? = some (-1) := rfl
  obtain ⟨bits, initial, -, automatic, agree⟩ :=
    first_value_agrees_iff (v := startingAt .unsignedLong (.unary ⟨1, 7⟩ .neg (.int ⟨1, 8⟩ 1))) rfl rfl worth
  obtain ⟨s', id, part, run, -, code, loads⟩ := automatic {} rfl
  refine ⟨worth, bits, initial {}, ⟨s', id, run, ?_⟩, agree.2 fun h => Bool.noConfusion h.1⟩
  rw [code, List.append_nil, List.reverse_reverse]
  exact loads

def highCharacter : Bytes := ascii "int x='\\xff';"

/-- The immediate is 255, and the code for an automatic variable leaves `-1` in it. -/
theorem first_value_differs_high_character :
    (∃ bytes v, compile highCharacter = .ok bytes ∧ View.parse bytes = .ok v ∧
      Instr.decodeStream v.code = .ok [definition (ascii "x") .int false [.imm .i32 255]]) ∧
    (∃ s', localAutomatic (startingAt .int (.char ⟨1, 7⟩ 255)) {} = .ok () s' ∧
      (Registers.run s'.code.reverse fun _ => 0).map (·.read (.var .i32 0)) = some 4294967295) := by
  constructor
  · have computed : (compile highCharacter).toOption.any (fun bytes => (View.parse bytes).toOption.any fun v =>
        (Instr.decodeStream v.code).toOption.any (· = [definition (ascii "x") .int false [.imm .i32 255]])) = true := by
      decide +kernel
    obtain ⟨bytes, compiled, holds⟩ := ok_of_any computed
    obtain ⟨v, view, holds⟩ := ok_of_any holds
    obtain ⟨code, decoded, holds⟩ := ok_of_any holds
    obtain rfl := of_decide_eq_true holds
    exact ⟨bytes, v, compiled, view, decoded⟩
  · exact ⟨_, rfl, by decide⟩

/-- Whatever constant is accepted for a variable of static storage is accepted for an automatic one too, unless the
variable is a pointer and the constant a floating number. -/
theorem automatic_accepts_iff (given : v.init = some init) {t : State}
    (accepted : globalVariable v s = .ok () s' ∨ localStatic v s = .ok () s')
    (free : t.scopes.lookupCurrent v.name = none) :
    (∃ t', localDeclaration (.var { v with linkage := .plain }) t = .ok () t') ↔
      ¬ (v.type.isPointer = true ∧ init.constantType? = some .double) := by
  obtain ⟨_, _, _, first, initial, -⟩ := static_code given accepted
  obtain ⟨scalar, bits, found, -⟩ := (initialValue_iff given).1 initial
  obtain ⟨source, typed⟩ := Expr.constantType?_of_bits found
  have assigns := assignable_constant scalar typed
  rw [typed, Option.some_inj, ← assigns]
  show (∃ t', localAutomatic { v with linkage := .plain } t = .ok () t') ↔ _
  constructor
  · rintro ⟨t', run⟩
    by_contra refuses
    exact localAutomatic_of_not_assignable given typed scalar (Bool.eq_false_iff.2 refuses) run
  · intro accepts
    obtain ⟨t', _, run, -⟩ := localAutomatic_of_assignable (v := { v with linkage := .plain }) given typed accepts free
    exact ⟨t', run⟩

/-- A floating number for a `char` is accepted in both. -/
theorem automatic_accepts_fraction :
    ∃ s' t', globalVariable (startingAt .char (.float ⟨1, 8⟩ (.ofNat 1))) {} = .ok () s' ∧
      localDeclaration (.var (startingAt .char (.float ⟨1, 8⟩ (.ofNat 1)))) {} = .ok () t' := by
  have accepted : ∃ s', globalVariable (startingAt .char (.float ⟨1, 8⟩ (.ofNat 1))) {} = .ok () s' := ⟨_, rfl⟩
  obtain ⟨s', run⟩ := accepted
  obtain ⟨t', run'⟩ := (automatic_accepts_iff (t := {}) rfl (.inl run) rfl).2 fun h => Bool.noConfusion h.1
  exact ⟨s', t', run, run'⟩

/-- A floating number for a pointer is accepted at file scope, and refused for an automatic variable. -/
theorem pointer_accepts_fraction : (∃ bytes, compile (ascii "int*p=1.5;") = .ok bytes) ∧
    compile (ascii "void f(void)\x7bint*p=1.5;\x7d") =
      .error (.lower (.invalidOperand "=" (.two (.pointer .int) .double)) ⟨1, 20⟩) := by
  constructor
  · have computed : (compile (ascii "int*p=1.5;")).toOption.any (fun _ => true) = true := by decide +kernel
    obtain ⟨bytes, compiled, -⟩ := ok_of_any computed
    exact ⟨bytes, compiled⟩
  · decide +kernel

end Compared

end Lowering

end Cof
