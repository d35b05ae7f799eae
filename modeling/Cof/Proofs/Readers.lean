/-
  How readers are built.

  A reader has three ways to touch the tokens: to look at the next one, to pass it, and to fail at a
  position.  It has four ways to touch types, none of which it carries out itself.  Everything else in the grammar is
  made of these and of sequencing.  `Makes` says so, and there is a lemma that says it for every reader, down to the one
  that reads whole programs.  So what these have, and what sequencing keeps, holds of all readers; such a fact is proved by
  induction on `Makes`, without going through the grammar again.

  `Makes` is about two readers that are made alike.  The second one keeps types as they are, and its tokens may
  be at other positions.  A reader looks at what tokens are; their positions it copies into expressions, statements,
  declarations and errors, and the bytes they were read from it does not look at.  So if all positions of the tokens
  are moved, then what is read is the same with its positions moved, and an error is the same at the moved position
  (`Makes.moves`).

  What is read has a property, if names among the tokens are words.  Most readers need none, and are only built
  (`Built`).
-/
import Cof.Proofs.Interned
import Cof.Proofs.Parsed

namespace Cof

open List

/-! ## Tokens and errors -/

def Token.move (f : Location → Location) (t : Token) : Token := ⟨t.kind, f t.loc, []⟩

def LexError.move (f : Location → Location) (e : LexError) : LexError := { e with loc := f e.loc }

def Stop.move (f : Location → Location) : Stop → Stop
  | .eof loc => .eof (f loc)
  | .error e => .error (e.move f)

def Tokens.move (f : Location → Location) (ts : Tokens) : Tokens := ⟨ts.ahead.map (·.move f), ts.stop.move f⟩

def ParseError.move (f : Location → Location) : ParseError → ParseError
  | .lex e => .lex (e.move f)
  | .form fault loc => .form fault (f loc)

/-! ## The types in a program -/

section

variable {τ φ : Type}

mutual

/-- The types that an expression mentions. -/
@[grind =] def Expr.mentions : Expr τ → List τ
  | .int .. | .float .. | .char .. | .string .. | .ident .. => []
  | .unary _ _ operand | .step _ _ _ operand | .member _ operand _ _ | .sizeofExpr _ operand => operand.mentions
  | .binary _ _ left right => left.mentions ++ right.mentions
  | .assign _ target _ value => target.mentions ++ value.mentions
  | .call _ callee args => callee.mentions ++ Expr.allMentions args
  | .index _ base offset => base.mentions ++ offset.mentions
  | .conditional _ cond yes no => cond.mentions ++ (yes.mentions ++ no.mentions)
  | .cast _ type operand => type :: operand.mentions
  | .sizeofType _ type => [type]

@[grind =] def Expr.allMentions : List (Expr τ) → List τ
  | [] => []
  | e :: rest => e.mentions ++ Expr.allMentions rest

end

@[grind =] def Expr.mentions? : Option (Expr τ) → List τ
  | none => []
  | some e => e.mentions

/-- The type of a variable, and those in its first value.  A function's type is not among them. -/
@[grind =] def Declaration.mentions : Declaration τ φ → List τ
  | var v => v.type :: Expr.mentions? v.init
  | proto _ => []

@[grind =] def ForInit.mentions? : Option (ForInit τ φ) → List τ
  | none => []
  | some (.expr _ e) => e.mentions
  | some (.decls _ ds) => ds.flatMap Declaration.mentions

mutual

@[grind =] def Stmt.mentions : Stmt τ φ → List τ
  | .expr _ e => e.mentions
  | .block _ body => Stmt.allMentions body
  | .ifThen _ cond yes => cond.mentions ++ yes.mentions
  | .ifElse _ cond yes no => cond.mentions ++ (yes.mentions ++ no.mentions)
  | .whileLoop _ cond body | .doWhile _ body cond => cond.mentions ++ body.mentions
  | .forLoop _ init cond next body =>
    ForInit.mentions? init ++ (Expr.mentions? cond ++ (Expr.mentions? next ++ body.mentions))
  | .ret _ value => Expr.mentions? value
  | .decls _ ds => ds.flatMap Declaration.mentions
  | .brk _ | .cont _ | .empty _ => []

@[grind =] def Stmt.allMentions : List (Stmt τ φ) → List τ
  | [] => []
  | st :: rest => st.mentions ++ Stmt.allMentions rest

end

@[grind =] def TopLevel.mentions : TopLevel τ φ → List τ
  | declare d => d.mentions
  | define _ body => Stmt.allMentions body

def Program.mentions (p : Program τ φ) : List τ := p.flatMap TopLevel.mentions

theorem Expr.allMentions_eq (es : List (Expr τ)) : Expr.allMentions es = es.flatMap Expr.mentions := by
  induction es with
  | nil => rfl
  | cons e es ih => rw [Expr.allMentions, ih, flatMap_cons]

theorem Stmt.allMentions_eq (sts : List (Stmt τ φ)) : Stmt.allMentions sts = sts.flatMap Stmt.mentions := by
  induction sts with
  | nil => rfl
  | cons st sts ih => rw [Stmt.allMentions, ih, flatMap_cons]

end

namespace Grammar

/-! ## Readers -/

theorem bind_eq_ok {S α β : Type} {m : ReaderOf S α} {f : α → ReaderOf S β} {ts ts' : S} {b : β} :
    (m >>= f) ts = .ok (b, ts') ↔ ∃ a between, m ts = .ok (a, between) ∧ f a between = .ok (b, ts') := by
  change (m ts >>= fun found => f found.1 found.2) = _ ↔ _
  cases m ts with
  | error e =>
    constructor
    · rintro ⟨⟩
    · rintro ⟨_, _, ⟨⟩, _⟩
  | ok found =>
    refine ⟨fun h => ⟨found.1, found.2, rfl, h⟩, ?_⟩
    rintro ⟨a, between, same, h⟩
    cases same
    exact h

/-- How positions and types are told, with types as they are. -/
structure Telling (S : Type) {τ φ : Type} [Store S τ φ] where
  loc : Location → Location
  raw : Bytes → Bytes
  type : τ → CType
  signature : φ → Signature

abbrev Telling.translation {S τ φ : Type} [Store S τ φ] (ρ : Telling S) : Translation τ φ CType Signature :=
  ⟨ρ.loc, fun name => name, ρ.type, ρ.signature⟩

abbrev Telling.token {S τ φ : Type} [Store S τ φ] (ρ : Telling S) (t : Token) : Token :=
  ⟨t.kind, ρ.loc t.loc, ρ.raw t.raw⟩

abbrev Telling.moving (f : Location → Location) : Telling Tokens :=
  ⟨f, fun _ => [], fun type => type, fun signature => signature⟩

/-- What is known when a reader starts: a fact, and types that were made. -/
structure Known (τ : Type) where
  fact : Prop
  types : List τ

abbrev Known.add {τ : Type} (K : Known τ) (types : List τ) (fact : Prop) : Known τ :=
  ⟨K.fact ∧ fact, types ++ K.types⟩

abbrev Any : TokenKind → Prop := fun _ => True

section Makes

variable {S τ φ : Type} [Store S τ φ]

/-- A reader makes something of known types that is told as `b`; `view` tells what it makes. -/
inductive TypeStep (ρ : Telling S) (known : List τ) : {α β : Type} → (view : α → β) → (mentions : α → List τ) →
    ReaderOf S α → (b : β) → Prop where
  | make (parts : node.parts ⊆ known) : TypeStep ρ known ρ.type ([·]) (Store.make node) (node.unfold ρ.type)
  | makeFunction (parts : result :: params ⊆ known) : TypeStep ρ known ρ.signature (fun _ => [])
      (Store.makeFunction result params variadic) ⟨ρ.type result, params.map ρ.type, variadic⟩
  | decay (listed : type ∈ known) : TypeStep ρ known ρ.type ([·]) (Store.decay type) (ρ.type type).decay
  | isVoid (listed : type ∈ known) : TypeStep ρ known id (fun _ => []) (Store.isVoid type) (ρ.type type).isVoid

/-- Two readers made alike of looking at a token, passing it, failing, making types, and doing one thing after another.
What the first reads, `view` tells as the second reads it.  It mentions known types only, and has property `Q` as it
is told, if names are words and what is known is a fact.

The kind of the next token is in `N`.  A reader that `eats` passes a token, so one that is not the end of the
source.  At depth `d` it fails for want of depth only where `d` is less than `r` and eight for each token ahead;
so what comes after a reader that eats may want eight more. -/
inductive Makes (ρ : Telling S) : {α β : Type} → (K : Known τ) → (N : TokenKind → Prop) → (eats : Bool) →
    (d r : Nat) → (view : α → β) → (mentions : α → List τ) → (Q : β → Prop) → ReaderOf S α → Reader β → Prop where
  | pure (told : b = view a) (listed : M a ⊆ K.types) (holds : K.fact → Q b) :
      Makes ρ K N false d r view M Q (pure a) (pure b)
  | bind (first : Makes ρ K N false d r view M P m m')
      (more : ∀ a, Makes ρ (K.add (M a) (P (view a))) Any eats d r view' M' Q (g a) (g' (view a))) :
      Makes ρ K N eats d r view' M' Q (m >>= g) (m' >>= g')
  | eat (first : Makes ρ K N true d r view M P m m')
      (more : ∀ a, Makes ρ (K.add (M a) (P (view a))) Any false d (8 + r) view' M' Q (g a) (g' (view a))) :
      Makes ρ K N eats d r view' M' Q (m >>= g) (m' >>= g')
  | look (more : ∀ t, N t.kind →
      Makes ρ (K.add [] t.kind.Worded) (· = t.kind) eats d r view M Q (g t) (g' (ρ.token t))) :
      Makes ρ K N eats d r view M Q (peek >>= g) (peek >>= g')
  | advance (real : eats = true → ∀ kind, N kind → kind ≠ .eof) :
      Makes ρ K N eats d r ρ.token (fun _ => []) (fun _ => True) advance advance
  | failAt (fault : Fault) (loc : Location) (deep : fault = .tooDeep → d < r) :
      Makes ρ K N eats d r view M Q (failAt fault loc) (failAt fault (ρ.loc loc))
  | types (step : TypeStep ρ K.types view M m b) (holds : K.fact → Q b) : Makes ρ K N false d r view M Q m (pure b)
  | mono (fact : G → G') (next : ∀ kind, N kind → N' kind) (calm : eats = true → eats' = true)
      (deep : d + r' ≤ d' + r) (h : Makes ρ ⟨G', types⟩ N' eats' d' r' view M Q m m') :
      Makes ρ ⟨G, types⟩ N eats d r view M Q m m'

variable {ρ : Telling S} {α β γ δ : Type} {K : Known τ} {N : TokenKind → Prop} {eats : Bool} {d r k : Nat}
variable {view : α → β} {M : α → List τ} {P : β → Prop} {m : ReaderOf S α} {m' : Reader β}
variable {view' : γ → δ} {M' : γ → List τ} {Q : δ → Prop} {g : α → ReaderOf S γ} {g' : β → Reader δ}

abbrev Built (ρ : Telling S) (K : Known τ) (eats : Bool) (d r : Nat) (view : α → β) (M : α → List τ)
    (m : ReaderOf S α) (m' : Reader β) : Prop := Makes ρ K Any eats d r view M (fun _ => True) m m'

/-- What is read has neither positions nor types in it. -/
abbrev Repeats (ρ : Telling S) (K : Known τ) (N : TokenKind → Prop) (eats : Bool) (d r : Nat) (m : ReaderOf S α)
    (m' : Reader α) : Prop := Makes ρ K N eats d r id (fun _ => []) (fun _ => True) m m'

namespace Makes

theorem calm (h : Makes ρ K N eats d r view M P m m') : Makes ρ K N false d r view M P m m' :=
  .mono id (fun _ => id) nofun (Nat.le_refl _) h

theorem any (h : Makes ρ K Any eats d r view M P m m') : Makes ρ K N eats d (k + r) view M P m m' :=
  .mono id (fun _ _ => trivial) id (by omega) h

theorem deep (h : Makes ρ K Any eats d r view M P m m') : Makes ρ K N eats (d + 1) (k + r + 1) view M P m m' :=
  .mono id (fun _ _ => trivial) id (by omega) h

/-- More is known than is needed. -/
theorem given {G : Prop} (h : Makes ρ K N eats d r view M P m m') :
    Makes ρ (K.add [] G) N eats d r view M P m m' := .mono And.left (fun _ => id) id (Nat.le_refl _) h

end Makes

theorem built_pure {a : α} {b : β} (told : b = view a) (listed : M a ⊆ K.types) :
    Makes ρ K N false d r view M (fun _ => True) (pure a) (pure b) := .pure told listed fun _ => trivial

theorem built_plain {a : α} : Repeats ρ K N false d r (pure a : ReaderOf S α) (pure a) := built_pure rfl (nil_subset _)

theorem makes_type {b : β} (step : TypeStep ρ K.types view M m b) : Makes ρ K N false d r view M (· = b) m (pure b) :=
  .types step fun _ => rfl

theorem built_seq {m : ReaderOf S α} {m' : Reader α} {g' : α → Reader δ} (hm : Repeats ρ K N false d r m m')
    (hg : ∀ a, Makes ρ K Any eats d r view' M' Q (g a) (g' a)) : Makes ρ K N eats d r view' M' Q (m >>= g) (m' >>= g') :=
  .bind hm fun a => (hg a).given

theorem makes_ite {c : Prop} [Decidable c] {n : ReaderOf S α} {n' : Reader β}
    (hm : c → Makes ρ K N eats d r view M P m m') (hn : ¬ c → Makes ρ K N eats d r view M P n n') :
    Makes ρ K N eats d r view M P (if c then m else n) (if c then m' else n') := by
  by_cases holds : c
  · rw [if_pos holds, if_pos holds]
    exact hm holds
  · rw [if_neg holds, if_neg holds]
    exact hn holds

theorem built_ite {c : Prop} [Decidable c] {n : ReaderOf S α} {n' : Reader β}
    (hm : Makes ρ K N eats d r view M P m m') (hn : Makes ρ K N eats d r view M P n n') :
    Makes ρ K N eats d r view M P (if c then m else n) (if c then m' else n') :=
  makes_ite (fun _ => hm) fun _ => hn

/-- Look at the kind of the next token, and remember it. -/
theorem makes_look {g : TokenKind → ReaderOf S γ} {g' : TokenKind → Reader δ} (hg : ∀ kind, N kind →
      Makes ρ (K.add [] kind.Worded) (· = kind) eats d r view' M' Q (g kind) (g' kind)) :
    Makes ρ K N eats d r view' M' Q (peekKind >>= g) (peekKind >>= g') := by
  rw [peekKind, peekKind, bind_assoc, bind_assoc]
  refine .look fun t next => ?_
  rw [pure_bind, pure_bind]
  exact hg t.kind next

theorem built_look {g : TokenKind → ReaderOf S γ} {g' : TokenKind → Reader δ}
    (hg : ∀ kind, Makes ρ K (· = kind) eats d r view' M' Q (g kind) (g' kind)) :
    Makes ρ K N eats d r view' M' Q (peekKind >>= g) (peekKind >>= g') := makes_look fun kind _ => (hg kind).given

theorem built_here : Makes ρ K N false d r ρ.loc (fun _ => []) (fun _ => True) here here :=
  .look fun _ _ => built_pure rfl (nil_subset _)

theorem built_pass {kind : TokenKind} {m : ReaderOf S γ} {m' : Reader δ} (real : kind ≠ .eof)
    (hm : Makes ρ K Any false d (8 + r) view' M' Q m m') :
    Makes ρ K (· = kind) eats d r view' M' Q (advance >>= fun _ => m) (advance >>= fun _ => m') := by
  refine .eat (.advance fun _ _ same => ?_) fun _ => hm.given
  rwa [same]

theorem built_fail (fault : Fault) (deep : fault = .tooDeep → d < r) :
    Makes ρ K N eats d r view M P (fail fault) (fail fault) :=
  .bind built_here fun loc => .failAt fault loc deep

theorem built_failExpected (wanted : Wanted) :
    Makes ρ K N eats d r view M P (failExpected wanted) (failExpected wanted) :=
  built_look fun _ => built_fail _ nofun

theorem built_tooDeep : Makes ρ K N eats 0 (r + 1) view M P tooDeep tooDeep :=
  built_fail _ fun _ => Nat.succ_pos r

theorem built_comes (kind : TokenKind) : Repeats ρ K N false d r (comes kind) (comes kind) :=
  built_look fun _ => built_plain

theorem built_accept (kind : TokenKind) : Repeats ρ K N false d r (accept kind) (accept kind) :=
  built_seq (built_comes kind) fun _ => built_ite (.bind (.advance nofun) fun _ => built_plain) built_plain

/-- Where a token is passed if it comes next, one of two readers starts behind it. -/
theorem built_ifAccept {kind : TokenKind} {yes no : ReaderOf S γ} {yes' no' : Reader δ} (real : kind ≠ .eof)
    (hy : Makes ρ K Any false d (8 + r) view' M' Q yes yes') (hn : Makes ρ K Any eats d r view' M' Q no no') :
    Makes ρ K N eats d r view' M' Q (do if ← accept kind then yes else no) (do if ← accept kind then yes' else no') := by
  have looks : ∀ {S τ φ α : Type} [Store S τ φ] (yes no : ReaderOf S α), (do if ← accept kind then yes else no) =
      peekKind >>= fun k => if k = kind then advance >>= fun _ => yes else pure () >>= fun _ => no := by
    intro S τ φ α _ yes no
    simp only [accept, comes, bind_assoc, pure_bind]
    refine bind_congr fun k => ?_
    by_cases same : k = kind <;> simp [same]
  rw [looks, looks]
  refine built_look fun k => makes_ite (fun same => built_pass (same ▸ real) hy) fun _ => ?_
  exact built_seq built_plain fun _ => hn

theorem built_expect (p : Punct) (place : String) :
    Repeats ρ K Any eats d r (expect p place) (expect p place) :=
  built_ifAccept nofun built_plain (built_failExpected _)

theorem makes_expectName (place : String) :
    Makes ρ K Any eats d r id (fun _ => []) IsWord (expectName place) (expectName place) := by
  refine makes_look fun kind _ => ?_
  cases kind with
  | ident name => exact built_pass nofun (.pure rfl (nil_subset _) fun known => known.2 name rfl)
  | _ => exact built_failExpected _

/-! ## Specifiers -/

theorem built_atDeclaration : Repeats ρ K N false d r atDeclaration atDeclaration := by
  refine built_look fun kind => ?_
  cases kind <;> exact built_plain

theorem built_atTypeName : Repeats ρ K N false d r atTypeName atTypeName := by
  refine built_look fun kind => ?_
  split
  · exact built_plain
  · exact built_plain
  · exact built_atDeclaration

theorem built_storageClass (allowed : Bool) (k : Keyword) (given : Linkage) (s : Specifiers)
    {kind : TokenKind} (real : kind ≠ .eof) : Repeats ρ K (· = kind) eats d r
      (storageClass allowed k given s) (storageClass allowed k given s) := by
  refine built_ite (built_fail _ nofun) ?_
  cases s.linkage.join? given with
  | none => exact built_fail _ nofun
  | some linkage => exact built_pass real built_plain

/-- Nothing comes after a failure. -/
theorem fail_bind (fault : Fault) (g : α → ReaderOf S γ) : (fail fault : ReaderOf S α) >>= g = fail fault := by
  rw [fail, fail, bind_assoc]
  rfl

/-- Words are passed, or there is none and what follows starts from what was known before. -/
theorem built_specifierWords {storage eats : Bool} {s : Specifiers} {g : Specifiers → ReaderOf S γ}
    {g' : Specifiers → Reader δ} {r : Nat} (depth : Nat) (deep : d < depth + r)
    (none : Makes ρ K Any eats d r view' M' Q (g s) (g' s))
    (some : ∀ s r, Makes ρ K Any false d r view' M' Q (g s) (g' s)) :
    Makes ρ K Any eats d r view' M' Q (specifierWords storage depth s >>= g) (specifierWords storage depth s >>= g') := by
  match depth, deep with
  | 0, deep =>
    rw [specifierWords, specifierWords, tooDeep, tooDeep, fail_bind, fail_bind]
    exact built_fail _ fun _ => by omega
  | depth + 1, deep =>
    rw [specifierWords, specifierWords, bind_assoc, bind_assoc]
    refine built_look fun kind => ?_
    have stops : Makes ρ K (· = kind) eats d r view' M' Q (pure s >>= g) (pure s >>= g') := by
      rw [pure_bind, pure_bind]
      exact .mono id (fun _ _ => trivial) id (Nat.le_refl _) none
    have again : ∀ s, Makes ρ K Any false d (8 + r) view' M' Q (specifierWords storage depth s >>= g)
        (specifierWords storage depth s >>= g') := fun s => built_specifierWords depth (by omega) (some s _) some
    split
    · split
      · rw [bind_assoc, bind_assoc]
        exact .eat (built_storageClass _ _ _ _ nofun) fun s => (again s).given
      · rw [bind_assoc, bind_assoc]
        exact .eat (built_storageClass _ _ _ _ nofun) fun s => (again s).given
      · rw [bind_assoc, bind_assoc]
        exact built_pass nofun (again _)
      · rw [bind_assoc, bind_assoc]
        exact built_pass nofun (again _)
      · split
        · rw [bind_assoc, bind_assoc]
          exact built_pass nofun (again _)
        · split
          · rw [fail_bind, fail_bind]
            exact built_fail _ nofun
          · exact stops
    · exact stops

abbrev Telling.typed {ι : Type} (ρ : Telling S) (found : ι × τ) : ι × CType := (found.1, ρ.type found.2)

theorem makes_specifiers (storage : Bool) (depth : Nat) : Makes ρ K Any true depth 1 ρ.typed (fun found => [found.2])
    (·.2.Plain) (specifiers storage depth) (specifiers storage depth) := by
  refine .bind built_here fun loc => ?_
  refine built_specifierWords depth (Nat.lt_succ_self _) (built_failExpected _) fun s r => ?_
  refine built_ite (built_failExpected _) ?_
  cases baseNode? s.words with
  | none => exact .failAt _ loc nofun
  | some node =>
    have parts : (node.map Empty.elim : TypeNode τ).parts ⊆ K.types := by
      cases node <;> first | exact nil_subset _ | contradiction
    have plain : ((node.map Empty.elim : TypeNode τ).unfold ρ.type).Plain := by
      cases node <;> first | exact ⟨rfl, rfl⟩ | contradiction
    have same : (Store.make (node.map Empty.elim) : Reader CType) = pure ((node.map Empty.elim).unfold ρ.type) := by
      cases node <;> first | rfl | contradiction
    simp only [same]
    exact .bind (makes_type (.make parts)) fun n => .pure rfl (subset_append_left _ _) fun known => known.2 ▸ plain

end Makes

/-! ## Running readers on tokens -/

/-- The end of a reader, with positions moved; `view` moves those in what was read. -/
def moveResult {α β : Type} (f : Location → Location) (view : α → β) :
    Except ParseError (α × Tokens) → Except ParseError (β × Tokens)
  | .ok (a, ts) => .ok (view a, ts.move f)
  | .error e => .error (e.move f)

theorem move_next (f : Location → Location) (ts : Tokens) : (ts.move f).next = ts.next.move f := by
  obtain ⟨ahead, stop⟩ := ts
  cases ahead with
  | cons t rest => rfl
  | nil => cases stop <;> rfl

theorem move_advance (f : Location → Location) (ts : Tokens) :
    advance (ts.move f) = moveResult f (Token.move f) (advance ts) := by
  obtain ⟨ahead, stop⟩ := ts
  cases ahead with
  | nil => cases stop <;> rfl
  | cons t rest =>
    cases rest with
    | nil => cases stop <;> rfl
    | cons t' rest => rfl

theorem worded_next {ts : Tokens} (worded : ts.Worded) : ts.next.kind.Worded := by
  intro name kind
  unfold Tokens.next at kind
  split at kind
  · rename_i found
    exact worded _ (by simp [found]) name kind
  · simp at kind
  · simp at kind

theorem worded_advance {ts left : Tokens} {t : Token} (worded : ts.Worded) (run : advance ts = .ok (t, left)) :
    left.Worded := by
  change pass ts = _ at run
  unfold pass at run
  split at run
  · cases run
  · cases run
    exact fun t ht => worded t (mem_cons_of_mem _ ht)
  · cases run
    exact worded

section

variable {α β : Type} {f : Location → Location} {K : Known CType} {N : TokenKind → Prop} {eats : Bool} {d r : Nat}
variable {view : α → β} {M : α → List CType} {P : β → Prop} {m : Reader α} {m' : Reader β} {ts left : Tokens}

/-- Types are made at once. -/
theorem TypeStep.eq_pure {b : β} {types : List CType} (h : TypeStep (.moving f) types view M m b) :
    ∃ a, m = pure a ∧ view a = b := by
  cases h with
  | @make node _ =>
    refine ⟨node.unfold id, rfl, ?_⟩
    cases node <;> rfl
  | makeFunction => exact ⟨_, rfl, congrArg (Signature.mk _ · _) (map_id _).symm⟩
  | decay | isVoid => exact ⟨_, rfl, rfl⟩

/-- What is read has the property, and names among the tokens that are left are words. -/
theorem Makes.holds (h : Makes (.moving f) K N eats d r view M P m m') {a : α} (known : K.fact) (worded : ts.Worded)
    (next : N ts.next.kind) (run : m ts = .ok (a, left)) : left.Worded ∧ P (view a) := by
  induction h generalizing ts left with
  | pure told listed holds =>
    cases run
    exact ⟨worded, told ▸ holds known⟩
  | bind _ _ ihm ihg | eat _ _ ihm ihg =>
    obtain ⟨a, between, first, run⟩ := bind_eq_ok.1 run
    obtain ⟨worded, ha⟩ := ihm known worded next first
    exact ihg a ⟨known, ha⟩ worded trivial run
  | look _ ih => exact ih ts.next next ⟨known, worded_next worded⟩ worded rfl run
  | advance => exact ⟨worded_advance worded run, trivial⟩
  | failAt => cases run
  | types step holds =>
    obtain ⟨a, rfl, rfl⟩ := step.eq_pure
    cases run
    exact ⟨worded, holds known⟩
  | mono fact after _ _ _ ih => exact ih (fact known) worded (after _ next) run

theorem Makes.moves (h : Makes (.moving f) K N eats d r view M P m m') (next : N ts.next.kind) :
    m' (ts.move f) = moveResult f view (m ts) := by
  induction h generalizing ts with
  | pure told =>
    rw [told]
    rfl
  | @bind _ _ _ _ _ _ _ _ _ m m' _ _ _ view' _ _ g g' _ _ ihm ihg
  | @eat _ _ _ _ _ _ _ _ _ m m' _ _ view' _ _ g g' _ _ _ ihm ihg =>
    show (m' (ts.move f) >>= fun p => g' p.1 p.2) = moveResult f view' (m ts >>= fun p => g p.1 p.2)
    rw [ihm next]
    cases m ts with
    | error e => rfl
    | ok result => exact ihg result.1 trivial
  | @look _ _ _ _ _ _ view _ _ g g' _ _ ih =>
    show g' (ts.move f).next (ts.move f) = moveResult f view (g ts.next ts)
    rw [move_next]
    exact ih ts.next next rfl
  | advance => exact move_advance f ts
  | failAt fault loc => rfl
  | types step =>
    obtain ⟨a, rfl, rfl⟩ := step.eq_pure
    rfl
  | mono _ after _ _ _ ih => exact ih (after _ next)

end

end Grammar

end Cof
