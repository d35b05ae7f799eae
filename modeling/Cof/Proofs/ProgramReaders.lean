/-
  How the readers of declarations, statements and programs are built.

  The readers of declarations, and of what declarations stand in, read what is well-formed, and so does the reader
  of whole programs (`Program.wellFormed_of_parse`).

  What is read from a source is read from its tokens (`Program.parse_eq`): the reader of whole programs is
  run on all of them, unless there is an error in the place of the first (`Tokens.program_cases`).
-/
import Cof.Proofs.ExpressionReaders

namespace Cof

open List

namespace Grammar

section Makes

variable {S τ φ : Type} [Store S τ φ]
variable {ρ : Telling S} {γ δ : Type} {K : Known τ} {N : TokenKind → Prop} {eats : Bool} {d r : Nat}
variable {view' : γ → δ} {M' : γ → List τ} {Q : δ → Prop}

/-! ## Declarations -/

theorem built_qualifiers : ∀ depth, Repeats ρ K Any false depth 1 (qualifiers depth) (qualifiers depth)
  | 0 => built_tooDeep
  | depth + 1 => by
    refine built_look fun kind => ?_
    split
    · exact built_pass TokenKind.noConfusion (built_qualifiers depth).deep
    · exact built_pass TokenKind.noConfusion (built_qualifiers depth).deep
    · exact built_plain

theorem makes_pointers (depth : Nat) {K : Known τ} {type : τ} (listed : type ∈ K.types)
    (plain : K.fact → (ρ.type type).Plain) :
    MakesType ρ K Any false depth 1 CType.Plain (pointers depth type) (pointers depth (ρ.type type)) := by
  match depth with
  | 0 => exact built_tooDeep
  | depth + 1 =>
    refine built_ifAccept TokenKind.noConfusion (.bind (makes_pointer listed) fun n => ?_) (.pure rfl (by grind) plain)
    refine built_seq (built_qualifiers depth).deep fun _ => (makes_pointers depth mem_cons_self fun known => ?_).deep
    rw [known.2]
    exact CType.plain_pointer _

theorem built_name? : Repeats ρ K Any false d r name? name? := by
  refine built_look fun kind => ?_
  cases kind with
  | ident name => exact built_pass TokenKind.noConfusion built_plain
  | _ => exact built_plain

theorem built_parameter (depth : Nat) (K : Known τ) :
    Built ρ K true depth 1 ρ.typed (fun found => [found.2]) (parameter depth) (parameter depth) := by
  refine .eat (makes_specifiers false depth).any fun given => ?_
  refine .bind (makes_pointers depth mem_cons_self And.right).any fun type => ?_
  refine built_seq built_name? fun name => built_seq (built_comes _) fun _ => built_ite (built_fail _ Fault.noConfusion) ?_
  refine built_seq (built_arrayLengths depth [] _).any fun lengths => ?_
  refine .bind (makes_makeArray (P := fun _ => True) mem_cons_self lengths fun _ => trivial) fun n => ?_
  exact built_pure rfl (by grind)

def parameterTurn (again stop : Parameters τ → ReaderOf S γ) (depth : Nat) (done : Parameters τ) : ReaderOf S γ := do
  if ← comes (.punct .ellipsis) then
    if done.types.isEmpty then fail .ellipsisFirst
    else
      let _ ← advance
      stop { done.reverse with variadic := true }
  else
    let loc ← here
    let (name, type) ← parameter depth
    if ← Store.isVoid type then
      if done.types.isEmpty && name.isNone then
        if ← comes (.punct .rParen) then stop {} else failAt .voidParameter loc
      else failAt .voidParameter loc
    else
      let done := done.add name (← Store.decay type)
      if ← accept (.punct .comma) then again done
      else stop done.reverse

def Parameters.tell (ρ : Telling S) (p : Parameters τ) : Parameters CType :=
  { types := p.types.map ρ.type, names := p.names, variadic := p.variadic }

theorem Parameters.reverse_tell (ρ : Telling S) (p : Parameters τ) : (p.tell ρ).reverse = p.reverse.tell ρ := by
  simp only [tell, reverse, map_reverse]

/-- Parameters whose types are numbers or pointers, with a name or its absence for each. -/
structure Parameters.WellFormed (p : Parameters CType) : Prop where
  arity : p.names.length = p.types.length
  types : ∀ type ∈ p.types, type.isScalar = true

/-- What holds before a parameter is read and is kept by adding one.  A parameter that is not void is a number or a
pointer, since its type decays. -/
structure Parameters.Kept (T : Parameters CType → Prop) : Prop where
  empty : T {}
  add : ∀ done name type, type.isScalar = true → T done → T (done.add name type)
  reverse : ∀ done variadic, T done → T { done.reverse with variadic }

theorem Parameters.kept_wellFormed : Kept WellFormed where
  empty := ⟨rfl, forall_mem_nil _⟩
  add done name type scalar h := ⟨congrArg (· + 1) h.arity, forall_mem_cons.2 ⟨scalar, h.types⟩⟩
  reverse done variadic h := by
    refine ⟨?_, fun type listed => h.types type (mem_reverse.1 listed)⟩
    rw [Parameters.reverse, length_reverse, length_reverse, h.arity]

/-- What some parameters look like when a turn starts. -/
structure Parameters.Given (ρ : Telling S) (K : Known τ) (T : Parameters CType → Prop) (p : Parameters τ) : Prop where
  listed : p.types ⊆ K.types
  holds : K.fact → T (p.tell ρ)

theorem Parameters.Given.reverse {T : Parameters CType → Prop} {p : Parameters τ} (h : p.Given ρ K T) (kept : Kept T)
    (variadic : Bool) : Given ρ K T { p.reverse with variadic } := by
  refine ⟨reverse_subset.2 h.listed, fun known => ?_⟩
  have reversed := kept.reverse _ variadic (h.holds known)
  rwa [reverse_tell] at reversed

theorem CType.isScalar_decay {type : CType} (notVoid : type.isVoid = false) : type.decay.isScalar = true := by
  refine (CType.plain_decay type).scalar ?_
  cases type <;> simp_all [CType.decay, CType.isVoid]

theorem makes_parameterTurn {again stop : Parameters τ → ReaderOf S γ} {again' stop' : Parameters CType → Reader δ}
    {done : Parameters τ} {T : Parameters CType → Prop} (kept : Parameters.Kept T) (h : done.Given ρ K T)
    (one : ∀ K, Built ρ K true d r ρ.typed (fun found => [found.2]) (parameter depth) (parameter depth))
    (more : ∀ K (done : Parameters τ), done.Given ρ K T →
      Makes ρ K Any false d (8 + r) view' M' Q (again done) (again' (done.tell ρ)))
    (last : ∀ K (found : Parameters τ), found.Given ρ K T →
      Makes ρ K Any eats d r view' M' Q (stop found) (stop' (found.tell ρ))) :
    Makes ρ K Any eats d r view' M' Q (parameterTurn again stop depth done)
      (parameterTurn again' stop' depth (done.tell ρ)) := by
  have none : (done.tell ρ).types.isEmpty = done.types.isEmpty := isEmpty_map
  rw [parameterTurn, parameterTurn, none]
  -- What follows one more parameter.
  have go : ∀ K (found : Parameters τ), found.Given ρ K T → Makes ρ K Any false d (8 + r) view' M' Q
      (do if ← accept (.punct .comma) then again found else stop found.reverse)
      (do if ← accept (.punct .comma) then again' (found.tell ρ) else stop' (found.tell ρ).reverse) := by
    intro K found h
    have all := last K _ (h.reverse kept found.variadic)
    rw [Parameters.reverse_tell]
    exact built_ifAccept TokenKind.noConfusion (more _ _ h).any all.calm.any
  refine built_seq (built_comes _) fun _ => built_ite ?_ ?_
  · refine built_ite (built_fail _ Fault.noConfusion) (.bind (.advance Bool.noConfusion) fun _ => .given ?_)
    rw [Parameters.reverse_tell]
    exact last K _ (h.reverse kept true)
  · refine .bind built_here fun loc => .eat (one _) fun given => ?_
    refine .bind (makes_type (.isVoid mem_cons_self)) fun void => makes_ite (fun _ => ?_) fun notVoid => ?_
    · refine built_ite (built_seq (built_comes _) fun _ => ?_) (.failAt _ loc Fault.noConfusion)
      exact built_ite (last _ {} ⟨nil_subset _, fun _ => kept.empty⟩).calm.any (.failAt _ loc Fault.noConfusion)
    · refine .bind (makes_type (.decay mem_cons_self)) fun n => go _ (done.add given.1 n) ⟨?_, fun known => ?_⟩
      · exact cons_subset.2 ⟨mem_cons_self, by grind [h.listed]⟩
      · refine kept.add _ _ _ ?_ (h.holds known.1.1.1.1)
        rw [known.2]
        refine CType.isScalar_decay ?_
        rw [← known.1.2]
        simpa using notVoid

abbrev MakesParameters (ρ : Telling S) (K : Known τ) (d r : Nat) :
    ReaderOf S (Parameters τ) → Reader (Parameters CType) → Prop :=
  Makes ρ K Any false d r (Parameters.tell ρ) Parameters.types Parameters.WellFormed

theorem makes_parameterList (depth : Nat) {K : Known τ} {done : Parameters τ}
    (h : done.Given ρ K Parameters.WellFormed) :
    MakesParameters ρ K depth 2 (parameterList depth done) (parameterList depth (done.tell ρ)) := by
  match depth with
  | 0 => exact built_tooDeep
  | depth + 1 =>
    exact makes_parameterTurn Parameters.kept_wellFormed h (fun K => (built_parameter depth K).deep)
      (fun _ _ more => (makes_parameterList depth more).deep) fun _ _ all => .pure rfl all.listed all.holds

theorem makes_parameters (depth : Nat) : MakesParameters ρ K depth 2 (parameters depth) (parameters depth) := by
  have none : Parameters.Given ρ K Parameters.WellFormed {} := ⟨nil_subset _, fun _ => Parameters.kept_wellFormed.empty⟩
  exact built_seq (built_comes _) fun _ => built_ite (.pure rfl none.listed none.holds) (makes_parameterList depth none)

theorem arrayOf_notFunction {type : CType} (h : type.isFunction = false) (lengths : List ArraySize) :
    (arrayOf type lengths).isFunction = false := by
  cases lengths with
  | nil => exact h
  | cons => rfl

def Declarator.tell (ρ : Telling S) : Declarator τ φ → Declarator CType Signature
  | .object loc name type => .object (ρ.loc loc) name (ρ.type type)
  | .function loc name signature names => .function (ρ.loc loc) name (ρ.signature signature) names

@[grind =] def Declarator.mentions : Declarator τ φ → List τ
  | .object _ _ type => [type]
  | .function .. => []

def Declarator.WellFormed : Declarator CType Signature → Prop
  | object _ name type => IsWord name ∧ type.isFunction = false
  | function loc name signature names => FunctionDecl.WellFormed { name, signature, names, linkage := .plain, loc }

variable {base : τ}

theorem makes_declarator (depth : Nat) (listed : base ∈ K.types) (plain : K.fact → (ρ.type base).Plain) :
    Makes ρ K Any true depth 1 (Declarator.tell ρ) Declarator.mentions Declarator.WellFormed (declarator depth base)
      (declarator depth (ρ.type base)) := by
  refine .bind (makes_pointers depth listed plain).any fun type => .bind built_here fun loc => ?_
  refine .eat (makes_expectName _) fun name => built_ifAccept TokenKind.noConfusion ?_ ?_
  · refine .bind (makes_parameters depth).any fun given => built_seq (built_expect _ _) fun _ => ?_
    refine built_seq (built_comes _) fun _ => built_ite (built_fail _ Fault.noConfusion) ?_
    refine .bind (makes_type (.makeFunction (cons_subset.2 ⟨by grind, by grind⟩))) fun n => ?_
    refine .pure rfl (nil_subset _) ?_
    rintro ⟨⟨⟨⟨⟨_, plain⟩, _⟩, word⟩, params⟩, told⟩
    refine ⟨word, ?_, ?_, ?_⟩
    · show CType.Plain (ρ.signature n).result
      rw [told]
      exact plain
    · show given.names.length = (ρ.signature n).params.length
      rw [told]
      exact params.arity
    · show ∀ type ∈ (ρ.signature n).params, type.isScalar = true
      rw [told]
      exact params.types
  · refine built_seq (built_arrayLengths depth [] _).any fun lengths => ?_
    refine .bind (makes_makeArray (P := fun type => type.isFunction = false) (by grind) lengths fun known => ?_) fun n => ?_
    · exact arrayOf_notFunction known.1.1.2.function lengths
    · exact .pure rfl (by grind) fun known => ⟨known.1.2, known.2⟩

theorem built_initializer (depth : Nat) : Built ρ K false depth 0 (Option.map (Expr.translate ρ.translation))
    Expr.mentions? (initializer depth) (initializer depth) := by
  refine built_ifAccept TokenKind.noConfusion (built_seq (built_comes _) fun _ => built_ite (built_fail _ Fault.noConfusion) ?_)
    (built_pure rfl (nil_subset _))
  exact .eat (built_expression depth _).any fun e => built_pure rfl (by grind)

def Declared.tell (ρ : Telling S) : Declared τ φ → Declared
  | complete ds => .complete (ds.map (Declaration.translate ρ.translation))
  | bodyAhead earlier f => .bodyAhead (earlier.map (Declaration.translate ρ.translation)) (f.translate ρ.translation)

@[grind =] def Declared.mentions : Declared τ φ → List τ
  | complete ds | bodyAhead ds _ => ds.flatMap Declaration.mentions

/-- What a declaration looks like as far as it was read. -/
def Declared.WellFormed : Declared → Prop
  | complete ds => GroupWellFormed ds
  | bodyAhead earlier f => (∀ d ∈ earlier, d.WellFormed) ∧ f.WellFormed

theorem names_translate (f : FunctionDecl φ) : (f.translate ρ.translation).names = f.names := by
  simp [FunctionDecl.translate]

abbrev MakesDeclared (ρ : Telling S) (K : Known τ) (d r : Nat) : ReaderOf S (Declared τ φ) → Reader Declared → Prop :=
  Makes ρ K Any true d r (Declared.tell ρ) Declared.mentions Declared.WellFormed

theorem makes_declarators (linkage : Linkage) (depth : Nat) {K : Known τ} {done : List (Declaration τ φ)}
    (listed : base ∈ K.types) (plain : K.fact → (ρ.type base).Plain)
    (earlier : done.flatMap Declaration.mentions ⊆ K.types)
    (h : K.fact → ∀ d ∈ done.map (Declaration.translate ρ.translation), d.WellFormed) :
    MakesDeclared ρ K depth 2 (declarators linkage base depth done)
      (declarators linkage (ρ.type base) depth (done.map (Declaration.translate ρ.translation))) := by
  match depth with
  | 0 => exact built_tooDeep
  | depth + 1 =>
    -- What follows one more declaration.
    have go : ∀ {K : Known τ} {d d'}, d' = Declaration.translate ρ.translation d → base ∈ K.types →
        (K.fact → (ρ.type base).Plain) → (d :: done).flatMap Declaration.mentions ⊆ K.types →
        (K.fact → ∀ x ∈ (d :: done).map (Declaration.translate ρ.translation), x.WellFormed) →
        Makes ρ K Any false (depth + 1) (8 + 2) (Declared.tell ρ) Declared.mentions Declared.WellFormed (do
          if ← accept (.punct .comma) then declarators linkage base depth (d :: done)
          else
            expect .semicolon "after declaration"
            return .complete (d :: done).reverse) (do
          if ← accept (.punct .comma) then
            declarators linkage (ρ.type base) depth (d' :: done.map (Declaration.translate ρ.translation))
          else
            expect .semicolon "after declaration"
            return .complete (d' :: done.map (Declaration.translate ρ.translation)).reverse) := by
      rintro K d _ rfl listed plain all more
      refine built_ifAccept TokenKind.noConfusion (makes_declarators linkage depth listed plain all more).deep.calm ?_
      refine built_seq (built_expect _ _) fun _ => .pure ?_ (by grind) fun known => ⟨?_, fun x hx => ?_⟩
      · rw [Declared.tell, ← map_cons, map_reverse]
      · exact reverse_ne_nil_iff.2 (cons_ne_nil _ _)
      · exact more known x (mem_reverse.1 hx)
    refine .eat (makes_declarator depth listed plain).deep fun found => ?_
    cases found with
    | function loc name signature names =>
      let f : FunctionDecl φ := { name, signature, names, linkage, loc }
      have told : f.translate ρ.translation = ⟨name, ρ.signature signature, names, linkage, ρ.loc loc⟩ := by
        simp [f, FunctionDecl.translate]
      have formed : (Declarator.tell ρ (.function loc name signature names)).WellFormed →
          (f.translate ρ.translation).WellFormed := fun h => by
        rw [told]
        exact ⟨h.name, h.result, h.arity, h.types⟩
      refine built_seq (built_comes _) fun _ => built_ite (.pure ?_ (by grind) fun known => ⟨?_, ?_⟩) ?_
      · rw [Declared.tell, told, map_reverse]
      · exact fun x hx => h known.1 x (mem_reverse.1 hx)
      · exact told ▸ formed known.2
      · refine built_seq (built_comes _) fun _ => built_ite (built_fail _ Fault.noConfusion) (go ?_ (by grind) ?_ (by grind) ?_)
        · rw [Declaration.translate, told]
        · exact fun known => plain known.1
        · exact fun known => forall_mem_cons.2 ⟨formed known.2, h known.1⟩
    | object loc name type =>
      refine .bind (makes_type (.isVoid mem_cons_self)) fun void => makes_ite (fun _ => .failAt _ loc Fault.noConfusion) fun notVoid => ?_
      refine .bind (built_initializer depth).deep fun init => go rfl (by grind) (fun known => plain known.1.1.1) (by grind) ?_
      refine fun known => forall_mem_cons.2 ⟨⟨known.1.1.2.1, ?_, known.1.1.2.2⟩, h known.1.1.1⟩
      show (ρ.type type).isVoid = false
      rw [← known.1.2]
      simpa using notVoid

theorem makes_declaration (depth : Nat) (K : Known τ) :
    MakesDeclared ρ K depth 1 (declaration depth) (declaration depth) := by
  refine built_seq built_atDeclaration fun _ => built_ite ?_ (built_failExpected _)
  exact .eat (makes_specifiers true depth).any fun given =>
    (makes_declarators given.1 depth mem_cons_self And.right (nil_subset _) fun _ => forall_mem_nil _).any.calm

theorem makes_blockDeclaration (depth : Nat) (K : Known τ) : Makes ρ K Any true depth 1
    (List.map (Declaration.translate ρ.translation)) (List.flatMap Declaration.mentions) GroupWellFormed
      (blockDeclaration depth) (blockDeclaration depth) := by
  refine .eat (makes_declaration depth K).any fun found => ?_
  cases found with
  | complete ds => exact .pure rfl (by grind) And.right
  | bodyAhead earlier f => exact built_fail _ Fault.noConfusion

/-! ## Statements -/

theorem built_expressionStatement (depth : Nat) :
    BuiltExpr ρ K true depth 5 (expressionStatement depth) (expressionStatement depth) :=
  .eat (built_expression depth _).any fun _ => built_seq (built_expect _ _) fun _ => built_pure rfl (subset_append_left _ _)

theorem built_condition (word : Keyword) (depth : Nat) :
    BuiltExpr ρ K false depth 5 (condition word depth) (condition word depth) :=
  built_seq (built_expect _ _) fun _ => .eat (built_expression depth _).any fun _ =>
    built_seq (built_expect _ _) fun _ => built_pure rfl (subset_append_left _ _)

theorem makes_forInit (depth : Nat) : Makes ρ K Any false depth 5 (Option.map (ForInit.translate ρ.translation))
    ForInit.mentions? (fun init => ∀ ds ∈ (init.map ForInit.groups).getD [], GroupWellFormed ds)
      (forInit depth) (forInit depth) := by
  refine built_ifAccept TokenKind.noConfusion (.pure rfl (nil_subset _) fun _ => forall_mem_nil _) ?_
  refine .bind built_here fun loc => built_seq built_atDeclaration fun _ => built_ite ?_ ?_
  · exact .eat (makes_blockDeclaration depth _).any fun ds =>
      .pure rfl (by grind) fun known => forall_mem_singleton.2 known.2
  · exact .eat (built_expressionStatement depth).any fun e => .pure rfl (by grind) fun _ => forall_mem_nil _

theorem built_expressionUnless (p : Punct) (depth : Nat) :
    Built ρ K false depth 5 (Option.map (Expr.translate ρ.translation)) Expr.mentions? (expressionUnless p depth)
      (expressionUnless p depth) := by
  refine built_seq (built_comes _) fun _ => built_ite (built_pure rfl (nil_subset _)) ?_
  exact .eat (built_expression depth _).any fun _ => built_pure rfl (by grind)

def statementTurn (again stop : List (Stmt τ φ) → ReaderOf S γ) (depth : Nat) (done : List (Stmt τ φ)) :
    ReaderOf S γ := do
  match ← peekKind with
  | .punct .rBrace | .eof => stop done.reverse
  | _ =>
    let s ← statement depth
    again (s :: done)

theorem makes_statementTurn {P : Stmt → Prop} {again stop : List (Stmt τ φ) → ReaderOf S γ}
    {again' stop' : List Stmt → Reader δ} {done : List (Stmt τ φ)}
    (one : ∀ {N}, Makes ρ K N true d r (Stmt.translate ρ.translation) Stmt.mentions P (statement depth) (statement depth))
    (more : ∀ st, Makes ρ (K.add st.mentions (P (st.translate ρ.translation))) Any false d (8 + r) view' M' Q
      (again (st :: done)) (again' ((st :: done).map (Stmt.translate ρ.translation))))
    (last : ∀ {N}, Makes ρ K N eats d r view' M' Q (stop done.reverse)
      (stop' (done.map (Stmt.translate ρ.translation)).reverse)) :
    Makes ρ K Any eats d r view' M' Q (statementTurn again stop depth done)
      (statementTurn again' stop' depth (done.map (Stmt.translate ρ.translation))) := by
  refine built_look fun kind => ?_
  split
  · exact last
  · exact last
  · exact .eat one more

abbrev MakesStmt (ρ : Telling S) (K : Known τ) (N : TokenKind → Prop) (d r : Nat) :
    ReaderOf S (Stmt τ φ) → Reader Stmt → Prop :=
  Makes ρ K N true d r (Stmt.translate ρ.translation) Stmt.mentions fun st => ∀ ds ∈ st.groups, GroupWellFormed ds

abbrev MakesStmts (ρ : Telling S) (K : Known τ) (eats : Bool) (d r : Nat) :
    ReaderOf S (List (Stmt τ φ)) → Reader (List Stmt) → Prop :=
  Makes ρ K Any eats d r (List.map (Stmt.translate ρ.translation)) (List.flatMap Stmt.mentions)
    fun body => ∀ ds ∈ Stmt.allGroups body, GroupWellFormed ds

mutual

theorem makes_statement : ∀ depth K, MakesStmt ρ K Any depth 6 (statement depth) (statement depth)
  | 0, _ => built_tooDeep
  | depth + 1, K => by
    refine .look fun t _ => .given ?_
    obtain ⟨kind, loc, raw⟩ := t
    -- Whatever is no statement of its own form is a declaration or an expression.
    have other : MakesStmt ρ K (· = kind) (depth + 1) 6
        (do if ← atDeclaration then return .decls loc (← blockDeclaration depth)
            else return .expr loc (← expressionStatement depth))
        (do if ← atDeclaration then return .decls (ρ.loc loc) (← blockDeclaration depth)
            else return .expr (ρ.loc loc) (← expressionStatement depth)) := by
      refine built_seq built_atDeclaration fun _ => built_ite ?_ ?_
      · exact .eat (makes_blockDeclaration depth _).deep fun ds =>
          .pure rfl (by grind) fun known => forall_mem_singleton.2 known.2
      · exact .eat (built_expressionStatement depth).deep fun e => .pure rfl (by grind) fun _ => forall_mem_nil _
    cases kind with
    | punct p =>
      cases p with
      | lBrace =>
        refine .eat (makes_block depth _).deep fun body => .pure ?_ ?_ And.right
        · rw [Stmt.translate, Stmt.translateAll_eq_map]
        · rw [Stmt.mentions, Stmt.allMentions_eq]
          exact subset_append_left _ _
      | semicolon => exact built_pass TokenKind.noConfusion (.pure rfl (nil_subset _) fun _ => forall_mem_nil _)
      | _ => exact other
    | keyword word =>
      cases word with
      | ifWord =>
        refine built_pass TokenKind.noConfusion (.bind (built_condition .ifWord depth).deep fun cond => ?_)
        refine .eat (makes_statement depth _).deep fun yes => built_ifAccept TokenKind.noConfusion ?_ (.pure rfl (by grind) And.right)
        refine .eat (makes_statement depth _).deep fun no => .pure rfl (by grind) fun known => ?_
        exact forall_mem_append.2 ⟨known.1.2, known.2⟩
      | whileWord =>
        refine built_pass TokenKind.noConfusion (.bind (built_condition .whileWord depth).deep fun cond => ?_)
        exact .eat (makes_statement depth _).deep fun body => .pure rfl (by grind) And.right
      | doWord =>
        refine built_pass TokenKind.noConfusion (.eat (makes_statement depth _).deep fun body => ?_)
        refine built_ifAccept TokenKind.noConfusion ?_ (built_failExpected _)
        refine .bind (built_condition .whileWord depth).deep fun cond => ?_
        exact built_seq (built_expect _ _) fun _ => .pure rfl (by grind) fun known => known.1.2
      | forWord =>
        refine built_pass TokenKind.noConfusion (built_seq (built_expect _ _) fun _ => ?_)
        refine .bind (makes_forInit depth).deep fun init => ?_
        refine .bind (built_expressionUnless _ depth).deep fun cond => built_seq (built_expect _ _) fun _ => ?_
        refine .bind (built_expressionUnless _ depth).deep fun step => built_seq (built_expect _ _) fun _ => ?_
        refine .eat (makes_statement depth _).deep fun body => .pure rfl (by grind) fun known => ?_
        exact forall_mem_append.2 ⟨known.1.1.1.2, known.2⟩
      | returnWord =>
        refine built_pass TokenKind.noConfusion (.bind (built_expressionUnless _ depth).deep fun value => ?_)
        exact built_seq (built_expect _ _) fun _ => .pure rfl (by grind) fun _ => forall_mem_nil _
      | breakWord | continueWord =>
        refine built_pass TokenKind.noConfusion (built_seq (built_expect _ _) fun _ => ?_)
        exact .pure rfl (nil_subset _) fun _ => forall_mem_nil _
      | switch | caseWord | default | goto => exact built_fail _ Fault.noConfusion
      | _ => exact other
    | _ => exact other

theorem makes_block : ∀ depth K, MakesStmts ρ K true depth 1 (block depth) (block depth)
  | 0, _ => built_tooDeep
  | depth + 1, K => by
    refine .eat (built_expect _ _) fun _ => .given ?_
    refine .bind (makes_statements depth [] _ (nil_subset _) fun _ => forall_mem_nil _).deep fun body => ?_
    exact built_seq (built_expect _ _) fun _ => .pure rfl (subset_append_left _ _) And.right

theorem makes_statements (depth : Nat) (done : List (Stmt τ φ)) (K : Known τ)
    (listed : done.flatMap Stmt.mentions ⊆ K.types)
    (h : K.fact → ∀ ds ∈ Stmt.allGroups (done.map (Stmt.translate ρ.translation)).reverse, GroupWellFormed ds) :
    MakesStmts ρ K false depth 7 (statements depth done) (statements depth (done.map (Stmt.translate ρ.translation))) := by
  match depth with
  | 0 => exact built_tooDeep
  | depth + 1 =>
    refine makes_statementTurn (makes_statement depth _).deep (fun st => ?_) (.pure map_reverse.symm (by grind) h)
    refine (makes_statements depth (st :: done) _ (by grind) fun known => ?_).deep
    rw [map_cons, reverse_cons, Stmt.allGroups_append, Stmt.allGroups, Stmt.allGroups, append_nil]
    exact forall_mem_append.2 ⟨h known.1, known.2⟩

end

/-! ## Programs -/

abbrev MakesProgram (ρ : Telling S) (K : Known τ) (eats : Bool) (d r : Nat) :
    ReaderOf S (Program τ φ) → Reader Program → Prop :=
  Makes ρ K Any eats d r (Program.translate ρ.translation) Program.mentions fun p => ∀ t ∈ p, t.WellFormed

theorem makes_topLevel (depth : Nat) : MakesProgram ρ K true depth 1 (topLevel depth) (topLevel depth) := by
  refine .eat (makes_declaration depth _).any fun found => ?_
  cases found with
  | complete ds =>
    refine .pure ?_ ?_ fun known t ht => ?_
    · rw [Program.translate, map_map, map_map]
      rfl
    · rw [Program.mentions]
      grind
    · obtain ⟨d, hd, rfl⟩ := mem_map.1 ht
      refine ⟨forall_mem_singleton.2 (known.2.each d hd), forall_mem_nil _, fun f body same => ?_⟩
      cases same
  | bodyAhead earlier f =>
    simp only [Declared.tell, isEmpty_map, names_translate]
    refine built_ite (built_failExpected _) ?_
    cases unnamed : f.names.findIdx? (·.isNone) with
    | some i => exact .failAt _ f.loc Fault.noConfusion
    | none =>
      refine .eat (makes_block depth _).any fun body => .pure ?_ ?_ fun known => forall_mem_singleton.2 ⟨?_, ?_, ?_⟩
      · rw [Program.translate, map_singleton, TopLevel.translate, Stmt.translateAll_eq_map]
      · rw [Program.mentions, flatMap_singleton, TopLevel.mentions, Stmt.allMentions_eq]
        exact subset_append_left _ _
      · refine forall_mem_cons.2 ⟨known.1.2.2, fun d hd => ?_⟩
        rw [← Stmt.flatten_allGroups] at hd
        obtain ⟨ds, hds, inside⟩ := mem_flatten.1 hd
        exact (known.2 ds hds).each d inside
      · exact fun ds hds => (known.2 ds hds).nonempty
      · rintro _ _ ⟨⟩ name listed
        rw [names_translate] at listed
        have named := findIdx?_eq_none_iff.1 unnamed name listed
        rwa [Option.isNone_eq_false_iff] at named

theorem makes_topLevels (depth : Nat) {K : Known τ} {done : Program τ φ} (listed : done.mentions ⊆ K.types)
    (h : K.fact → ∀ t ∈ done.translate ρ.translation, t.WellFormed) :
    MakesProgram ρ K false depth 2 (topLevels depth done) (topLevels depth (done.translate ρ.translation)) := by
  match depth with
  | 0 => exact built_tooDeep
  | depth + 1 =>
    refine built_seq (built_comes _) fun _ => built_ite (.pure map_reverse.symm ?_ fun known t ht => ?_) ?_
    · rw [Program.mentions] at *
      grind
    · exact h known t (mem_reverse.1 ht)
    · refine .eat (makes_topLevel depth).deep fun more => ?_
      have told : Program.translate ρ.translation (more.reverse ++ done) =
          (Program.translate ρ.translation more).reverse ++ done.translate ρ.translation := by
        rw [Program.translate, map_append, map_reverse]
        rfl
      rw [← told]
      refine (makes_topLevels depth ?_ fun known => ?_).deep
      · rw [Program.mentions] at *
        grind [Program.mentions]
      · rw [told]
        exact forall_mem_append.2 ⟨fun t ht => known.2 t (mem_reverse.1 ht), h known.1⟩

theorem makes_program (depth : Nat) : MakesProgram ρ ⟨True, []⟩ false depth 2 (topLevels depth []) (topLevels depth []) :=
  makes_topLevels depth (nil_subset _) fun _ => forall_mem_nil _

end Makes

end Grammar

/-! ## Programs of sources -/

/-- A lexical error is not the next thing to be read: it was raised when the token before it was passed. -/
def Tokens.Guarded (ts : Tokens) : Prop := ∀ e, ts.stop = .error e → ts.ahead ≠ []

def Tokens.program (ts : Tokens) : Except ParseError Program :=
  match ts with
  | ⟨[], .error e⟩ => .error (.lex e)
  | _ => Prod.fst <$> Grammar.topLevels (Grammar.enough ts.ahead.length) [] ts

theorem Program.parse_eq (source : Bytes) : Program.parse source = (Tokens.ofSource source).program := by
  unfold Program.parse Grammar.start
  generalize Tokens.ofSource source = ts
  obtain ⟨ahead, stop⟩ := ts
  cases ahead <;> cases stop <;> rfl

theorem Tokens.program_cases (ts : Tokens) : (∃ e, ts = ⟨[], .error e⟩ ∧ ts.program = .error (.lex e)) ∨
    ts.Guarded ∧ ts.program = Prod.fst <$> Grammar.topLevels (Grammar.enough ts.ahead.length) [] ts := by
  unfold program
  split
  · rename_i e
    exact .inl ⟨e, rfl, rfl⟩
  · rename_i notError
    refine .inr ⟨fun e stop none => notError e ?_, rfl⟩
    rw [← stop, ← none]

variable {source : Bytes} {p : Program}

theorem Declaration.WellFormed.of_moving {f : Location → Location} {d : Declaration}
    (h : (d.translate (.moving f)).WellFormed) : d.WellFormed := by
  cases d with
  | var v =>
    obtain ⟨name, notVoid, notFunction⟩ : VarDecl.WellFormed _ := h
    exact ⟨name, notVoid, notFunction⟩
  | proto g =>
    obtain ⟨name, result, arity, types⟩ : FunctionDecl.WellFormed _ := h
    exact ⟨name, result, (length_map _).symm.trans arity, types⟩

theorem TopLevel.wellFormed_of_parse (h : Program.parse source = .ok p) : ∀ t ∈ p, t.WellFormed := by
  rw [Program.parse_eq] at h
  rcases (Tokens.ofSource source).program_cases with ⟨e, _, failed⟩ | ⟨_, parsed⟩
  · rw [h] at failed
    cases failed
  · rw [h] at parsed
    cases read : Grammar.topLevels (Grammar.enough (Tokens.ofSource source).ahead.length) []
        (Tokens.ofSource source) with
    | error e =>
      rw [read] at parsed
      cases parsed
    | ok result =>
      rw [read] at parsed
      rw [Except.ok.inj parsed]
      intro t ht
      have made := Grammar.makes_program (ρ := .moving id) (Grammar.enough (Tokens.ofSource source).ahead.length)
      have formed := (made.holds trivial (Tokens.ofSource_worded source) trivial read).2 _ (mem_map_of_mem ht)
      obtain ⟨declarations, groups, named⟩ := formed.translated
      exact ⟨fun d hd => (declarations d hd).of_moving, groups, named⟩

theorem Program.wellFormed_of_parse (h : Program.parse source = .ok p) : p.WellFormed :=
  fun t ht => (TopLevel.wellFormed_of_parse h t ht).declarations

theorem Program.named_of_parse (h : Program.parse source = .ok p) : p.Named :=
  fun f body defined _ listed =>
    (TopLevel.wellFormed_of_parse h _ defined).named f body rfl _ (FunctionDecl.mem_params listed).1

end Cof
