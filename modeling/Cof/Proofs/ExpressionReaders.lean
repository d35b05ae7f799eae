/-
  How the readers of expressions are built.

  Expressions are read by a family of readers that call each other, each with less depth than it was given, and by
  loops.  A loop goes on with more, or it ends; a turn of it is a function of what it does in these two cases
  (`lengthTurn`, `suffixTurn` and so on), so that the same lemma serves a loop and a single turn.
-/
import Cof.Proofs.Readers

namespace Cof.Grammar

open List

variable {S τ φ : Type} [Store S τ φ]
variable {ρ : Telling S} {γ δ : Type} {K : Known τ} {N : TokenKind → Prop} {eats : Bool} {d r : Nat}
variable {view' : γ → δ} {M' : γ → List τ} {Q : δ → Prop}

abbrev BuiltExpr (ρ : Telling S) (K : Known τ) (eats : Bool) (d r : Nat) :
    ReaderOf S (Expr τ) → Reader Expr → Prop := Built ρ K eats d r (Expr.translate ρ.translation) Expr.mentions

abbrev BuiltArgs (ρ : Telling S) (K : Known τ) (d r : Nat) : ReaderOf S (List (Expr τ)) → Reader (List Expr) → Prop :=
  Built ρ K true d r (List.map (Expr.translate ρ.translation)) (List.flatMap Expr.mentions)

abbrev MakesType (ρ : Telling S) (K : Known τ) (N : TokenKind → Prop) (eats : Bool) (d r : Nat) (P : CType → Prop) :
    ReaderOf S τ → Reader CType → Prop := Makes ρ K N eats d r ρ.type ([·]) P

theorem built_stringParts : ∀ depth parts, Repeats ρ K Any false depth 1 (stringParts depth parts) (stringParts depth parts)
  | 0, _ => built_tooDeep
  | depth + 1, parts => by
    refine built_look fun kind => ?_
    cases kind with
    | string part => exact built_pass nofun (built_stringParts depth _).deep
    | _ => exact built_plain

theorem built_strings {part : Bytes} : ∀ depth,
    Repeats ρ K (· = .string part) eats depth 1 (stringParts depth []) (stringParts depth [])
  | 0 => built_tooDeep
  | depth + 1 => by
    refine makes_look fun kind same => .given ?_
    subst same
    exact built_pass nofun (built_stringParts depth _).deep

theorem built_primary (depth : Nat) : BuiltExpr ρ K true depth 1 (primary depth) (primary depth) := by
  refine .look fun t _ => ?_
  obtain ⟨kind, loc, raw⟩ := t
  cases kind with
  | int value => exact built_pass nofun (built_pure rfl (nil_subset _))
  | float value => exact built_pass nofun (built_pure rfl (nil_subset _))
  | char value => exact built_pass nofun (built_pure rfl (nil_subset _))
  | ident name => exact built_pass nofun (built_pure rfl (nil_subset _))
  | string part => exact .eat (built_strings depth) fun bytes => built_pure rfl (nil_subset _)
  | eof | keyword _ | punct _ => exact built_failExpected _

variable {type : τ}

theorem makes_pointer (listed : type ∈ K.types) : MakesType ρ K N false d r (· = .pointer (ρ.type type))
    (Store.make (.pointer type)) (Store.make (.pointer (ρ.type type))) :=
  makes_type (.make (cons_subset.2 ⟨listed, nil_subset _⟩))

theorem built_stars (depth : Nat) {K : Known τ} {type : τ} (listed : type ∈ K.types) :
    MakesType ρ K Any false depth 1 (fun _ => True) (stars depth type) (stars depth (ρ.type type)) := by
  match depth with
  | 0 => exact built_tooDeep
  | depth + 1 =>
    refine built_ifAccept nofun (.bind (makes_pointer listed) fun n => ?_) (built_pure rfl (by grind))
    exact (built_stars depth mem_cons_self).deep

theorem built_lengthOf (e : Expr τ) :
    Repeats ρ K Any false d r (lengthOf e) (lengthOf (e.translate ρ.translation)) := by
  cases e with
  | int loc value => exact built_ite built_plain (.failAt _ loc nofun)
  | _ => exact built_plain

theorem makes_makeArray {P : CType → Prop} (listed : type ∈ K.types) (lengths : List ArraySize)
    (told : K.fact → P (arrayOf (ρ.type type) lengths)) :
    MakesType ρ K N false d r P (makeArray type lengths) (makeArray (ρ.type type) lengths) := by
  induction lengths generalizing P with
  | nil => exact .pure rfl (by grind) told
  | cons length lengths ih =>
    refine .bind (ih (P := (· = arrayOf (ρ.type type) lengths)) fun _ => rfl) fun n => ?_
    refine .types (.make (subset_append_left [n] _)) fun known => ?_
    rw [TypeNode.unfold, known.2]
    exact told known.1

/-! ### Turns of loops

One turn of a loop goes on with `again`, or it ends with `stop`. -/

def lengthTurn (again stop : List ArraySize → ReaderOf S γ) (depth : Nat) (done : List ArraySize) : ReaderOf S γ := do
  if ← accept (.punct .lBracket) then
    if ← accept (.punct .rBracket) then again (.unsized :: done)
    else
      let e ← conditional depth
      let length ← lengthOf e
      expect .rBracket "after array size"
      again (length :: done)
  else stop done.reverse

def suffixTurn (again stop : Expr τ → ReaderOf S γ) (depth : Nat) (e : Expr τ) : ReaderOf S γ := do
  let t ← peek
  match t.kind with
  | .punct .lParen =>
    let _ ← advance
    let args ← arguments depth
    again (.call t.loc e args)
  | .punct .lBracket =>
    let _ ← advance
    let i ← expression depth
    expect .rBracket "after array index"
    again (.index t.loc e i)
  | .punct .dot =>
    let _ ← advance
    let name ← expectName "after member access"
    again (.member t.loc e false name)
  | .punct .arrow =>
    let _ ← advance
    let name ← expectName "after member access"
    again (.member t.loc e true name)
  | kind =>
    match step? kind with
    | some s =>
      let _ ← advance
      again (.step t.loc s .post e)
    | none => stop e

variable {depth : Nat}

theorem built_lengthTurn {again stop : List ArraySize → ReaderOf S γ} {again' stop' : List ArraySize → Reader δ}
    {done : List ArraySize} (length : ∀ K, BuiltExpr ρ K true d (8 + r) (conditional depth) (conditional depth))
    (more : ∀ K done, Makes ρ K Any false d (8 + r) view' M' Q (again done) (again' done))
    (last : Makes ρ K Any eats d r view' M' Q (stop done.reverse) (stop' done.reverse)) :
    Makes ρ K Any eats d r view' M' Q (lengthTurn again stop depth done) (lengthTurn again' stop' depth done) := by
  refine built_ifAccept nofun (built_ifAccept nofun (more _ _).any ?_) last
  refine .eat (length _) fun e => built_seq (built_lengthOf e) fun length => ?_
  exact built_seq (built_expect _ _) fun _ => (more _ _).any

theorem punct_ne_eof (p : Punct) : TokenKind.punct p ≠ .eof := nofun

theorem built_suffixTurn {again stop : Expr τ → ReaderOf S γ} {again' stop' : Expr → Reader δ} {e : Expr τ}
    (listed : e.mentions ⊆ K.types) (args : ∀ K, BuiltArgs ρ K d (8 + r) (arguments depth) (arguments depth))
    (inner : ∀ K, BuiltExpr ρ K true d (8 + r) (expression depth) (expression depth))
    (more : ∀ K (e : Expr τ), e.mentions ⊆ K.types →
      Makes ρ K Any false d (8 + r) view' M' Q (again e) (again' (e.translate ρ.translation)))
    (last : ∀ {K N}, e.mentions ⊆ K.types → Makes ρ K N eats d r view' M' Q (stop e) (stop' (e.translate ρ.translation))) :
    Makes ρ K Any eats d r view' M' Q (suffixTurn again stop depth e)
      (suffixTurn again' stop' depth (e.translate ρ.translation)) := by
  refine .look fun t _ => .given ?_
  obtain ⟨kind, loc, raw⟩ := t
  cases kind with
  | punct p =>
    cases p with
    | lParen =>
      refine built_pass (punct_ne_eof _) (.eat (args _) fun args => ?_)
      have call := more (K.add (args.flatMap Expr.mentions) True) (.call loc e args) (by
        rw [Expr.mentions, Expr.allMentions_eq]
        grind)
      rw [Expr.translate, Expr.translateAll_eq_map] at call
      exact call.any
    | lBracket =>
      refine built_pass (punct_ne_eof _) (.eat (inner _) fun i => built_seq (built_expect _ _) fun _ => ?_)
      exact (more _ (.index loc e i) (by grind)).any
    | dot =>
      exact built_pass (punct_ne_eof _) (.bind (makes_expectName _) fun name => more _ (.member loc e false name) listed)
    | arrow =>
      exact built_pass (punct_ne_eof _) (.bind (makes_expectName _) fun name => more _ (.member loc e true name) listed)
    | plusPlus => exact built_pass (punct_ne_eof _) (more _ (.step loc .inc .post e) listed)
    | minusMinus => exact built_pass (punct_ne_eof _) (more _ (.step loc .dec .post e) listed)
    | _ => exact last listed
  | _ => exact last listed

theorem frontOp?_translate (ρ : Telling S) (kind : TokenKind) :
    (frontOp? (τ := τ) kind = none ∧ frontOp? (τ := CType) kind = none) ∨ kind ≠ .eof ∧
    ∃ make make', frontOp? kind = some make ∧ frontOp? (τ := CType) kind = some make' ∧
      ∀ loc (e : Expr τ), make' (ρ.loc loc) (e.translate ρ.translation) = (make loc e).translate ρ.translation ∧
        (make loc e).mentions = e.mentions := by
  unfold frontOp?
  split
  all_goals first
    | exact .inl ⟨rfl, rfl⟩
    | exact .inr ⟨punct_ne_eof _, _, _, rfl, rfl, fun loc e => ⟨rfl, rfl⟩⟩

mutual

theorem built_expression : ∀ depth K, BuiltExpr ρ K true depth 5 (expression depth) (expression depth)
  | 0, _ => built_tooDeep
  | depth + 1, K => by
    refine .eat (built_conditional depth _).deep fun target => built_look fun kind => ?_
    cases assignOp? kind with
    | none => exact built_pure rfl (by grind)
    | some op =>
      refine .bind (.advance nofun) fun t => .eat (built_expression depth _).deep fun source => ?_
      exact built_pure rfl (by grind)

theorem built_conditional : ∀ depth K, BuiltExpr ρ K true depth 4 (conditional depth) (conditional depth)
  | 0, _ => built_tooDeep
  | depth + 1, K => by
    refine .eat (built_binary depth loosest _).deep fun cond => built_seq (built_comes _) fun _ => ?_
    refine built_ite ?_ (built_pure rfl (by grind))
    refine .bind (.advance nofun) fun t => .eat (built_expression depth _).deep fun yes => ?_
    refine built_seq (built_expect _ _) fun _ => .eat (built_conditional depth _).deep fun no => ?_
    exact built_pure rfl (by grind)

theorem built_binary : ∀ depth least K, BuiltExpr ρ K true depth 3 (binary depth least) (binary depth least)
  | 0, _, _ => built_tooDeep
  | depth + 1, least, K => by
    exact .eat (built_unary depth _).deep fun left => (built_binaryRest depth least left _ (by grind)).deep

theorem built_binaryRest : ∀ depth least (left : Expr τ) K, left.mentions ⊆ K.types →
    BuiltExpr ρ K false depth 1 (binaryRest depth least left) (binaryRest depth least (left.translate ρ.translation))
  | 0, _, _, _, _ => built_tooDeep
  | depth + 1, least, left, K, listed => by
    refine built_look fun kind => ?_
    cases found : binaryOp? kind with
    | none => exact built_pure rfl listed
    | some operator =>
      obtain ⟨op, strength⟩ := operator
      refine built_ite (built_pure rfl listed) (.eat (.advance fun _ => ?_) fun t => ?_)
      · rintro _ rfl rfl
        cases found
      refine .eat (built_binary depth _ _).deep fun right => ?_
      exact (built_binaryRest depth least (.binary t.loc op left right) _ (by grind)).deep

theorem built_unary : ∀ depth K, BuiltExpr ρ K true depth 2 (unary depth) (unary depth)
  | 0, _ => built_tooDeep
  | depth + 1, K => by
    refine .look fun t _ => .given ?_
    have kind : (ρ.token t).kind = t.kind := rfl
    rw [kind]
    rcases frontOp?_translate ρ t.kind with ⟨none, none'⟩ | ⟨real, make, make', some, some', told⟩
    · rw [none, none']
      refine built_ifAccept nofun (built_sizeof depth t.loc _).deep.calm (built_ifAccept nofun ?_ ?_)
      · refine built_seq built_atTypeName fun _ => built_ite ?_ ?_
        · refine .eat (built_typeName depth _).deep fun type => built_seq (built_expect _ _) fun _ => ?_
          exact .eat (built_unary depth _).deep fun e => built_pure rfl (by grind)
        · refine .eat (built_expression depth _).deep fun inner => built_seq (built_expect _ _) fun _ => ?_
          exact (built_suffixes depth inner _ (by grind)).deep
      · exact .eat (built_primary depth).deep fun e => (built_suffixes depth e _ (by grind)).deep
    · rw [some, some']
      refine built_pass real (.eat (built_unary depth _).deep fun e => built_pure (told t.loc e).1 ?_)
      rw [(told t.loc e).2]
      grind

theorem built_sizeof : ∀ depth loc K, BuiltExpr ρ K true depth 3 (sizeof depth loc) (sizeof depth (ρ.loc loc))
  | 0, _, _ => built_tooDeep
  | depth + 1, loc, K => by
    refine built_ifAccept nofun ?_ (.eat (built_unary depth _).deep fun e => built_pure rfl (by grind))
    refine built_seq built_atTypeName fun _ => built_ite ?_ ?_
    · refine .eat (built_typeName depth _).deep fun type => built_seq (built_expect _ _) fun _ => ?_
      exact built_pure rfl (by grind)
    · refine .eat (built_expression depth _).deep fun inner => built_seq (built_expect _ _) fun _ => ?_
      exact .bind (built_suffixes depth inner _ (by grind)).deep fun e => built_pure rfl (by grind)

theorem built_suffixes : ∀ depth (e : Expr τ) K, e.mentions ⊆ K.types →
    BuiltExpr ρ K false depth 1 (suffixes depth e) (suffixes depth (e.translate ρ.translation))
  | 0, _, _, _ => built_tooDeep
  | depth + 1, e, K, listed => by
    exact built_suffixTurn listed (fun _ => (built_arguments depth _).deep) (fun _ => (built_expression depth _).deep)
      (fun _ e listed => (built_suffixes depth e _ listed).deep) (built_pure rfl)

theorem built_arguments : ∀ depth K, BuiltArgs ρ K depth 7 (arguments depth) (arguments depth)
  | 0, _ => built_tooDeep
  | depth + 1, K => by
    exact built_ifAccept nofun (built_pure rfl (nil_subset _)) (built_argumentList depth [] _ (nil_subset _)).deep

theorem built_argumentList : ∀ depth (done : List (Expr τ)) K, done.flatMap Expr.mentions ⊆ K.types →
    BuiltArgs ρ K depth 6 (argumentList depth done) (argumentList depth (done.map (Expr.translate ρ.translation)))
  | 0, _, _, _ => built_tooDeep
  | depth + 1, done, K, listed => by
    refine .eat (built_expression depth _).deep fun arg => ?_
    refine built_ifAccept nofun (built_argumentList depth (arg :: done) _ (by grind)).deep.calm ?_
    refine built_seq (built_expect _ _) fun _ => built_pure ?_ (by grind)
    rw [← map_cons, ← map_reverse]

theorem built_typeName : ∀ depth K, MakesType ρ K Any true depth 2 (fun _ => True) (typeName depth) (typeName depth)
  | 0, _ => built_tooDeep
  | depth + 1, K => by
    refine .eat (makes_specifiers false depth).deep fun given => ?_
    refine .bind (built_stars depth mem_cons_self).deep fun type => ?_
    refine built_seq (built_arrayLengths depth [] _).deep fun lengths => ?_
    exact makes_makeArray mem_cons_self lengths fun _ => trivial

theorem built_arrayLengths : ∀ depth done K, Repeats ρ K Any false depth 1 (arrayLengths depth done) (arrayLengths depth done)
  | 0, _, _ => built_tooDeep
  | depth + 1, done, K => by
    exact built_lengthTurn (fun _ => (built_conditional depth _).deep) (fun _ done => (built_arrayLengths depth done _).deep)
      built_plain

end

end Cof.Grammar
