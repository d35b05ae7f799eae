/-
  Statements that are written are read back, and every `else` belongs to the nearest `if`.

  Braces are written around blocks only.  So a statement that ends in an `if` without `else` cannot stand between
  `if` and `else`: the `else` would be taken for its own.  `Stmt.endsOpen` follows the end of a statement through
  the bodies of `if`, `else`, `while` and `for`; a `do` loop ends with its own semicolon.  The reader never gives
  an `else` to an `if` whose branch ends that way (`attached_statement`), and what has no such `if` is read back
  as it was (`reads_statement`).
-/
import Cof.Proofs.Peeking
import Cof.Proofs.Positions

namespace Cof

open List

/-! ## Writing -/

/-- A condition in brackets. -/
def conditionTokens (cond : Expr) : List TokenKind := .punct .lParen :: (cond.tokens ++ [.punct .rParen])

def optionTokens : Option Expr → List TokenKind
  | none => []
  | some e => e.tokens

section Writing

variable (spell : List Declaration → List TokenKind)

/-- What a `for` loop opens with, through its semicolon. -/
def initTokens : Option ForInit → List TokenKind
  | none => [.punct .semicolon]
  | some (.expr _ e) => e.tokens ++ [.punct .semicolon]
  | some (.decls _ ds) => spell ds

mutual

/-- The tokens of a statement.  A declaration is written as `spell` says. -/
def Stmt.tokens : Stmt → List TokenKind
  | .expr _ e => e.tokens ++ [.punct .semicolon]
  | .block _ body => .punct .lBrace :: (allTokens body ++ [.punct .rBrace])
  | .ifThen _ cond yes => .keyword .ifWord :: (conditionTokens cond ++ yes.tokens)
  | .ifElse _ cond yes no =>
    .keyword .ifWord :: (conditionTokens cond ++ (yes.tokens ++ .keyword .elseWord :: no.tokens))
  | .whileLoop _ cond body => .keyword .whileWord :: (conditionTokens cond ++ body.tokens)
  | .doWhile _ body cond =>
    .keyword .doWord :: (body.tokens ++ .keyword .whileWord :: (conditionTokens cond ++ [.punct .semicolon]))
  | .forLoop _ init cond step body =>
    .keyword .forWord :: .punct .lParen :: (initTokens spell init ++ (optionTokens cond ++ .punct .semicolon ::
      (optionTokens step ++ .punct .rParen :: body.tokens)))
  | .ret _ value => .keyword .returnWord :: (optionTokens value ++ [.punct .semicolon])
  | .decls _ ds => spell ds
  | .brk _ => [.keyword .breakWord, .punct .semicolon]
  | .cont _ => [.keyword .continueWord, .punct .semicolon]
  | .empty _ => [.punct .semicolon]

def allTokens : List Stmt → List TokenKind
  | [] => []
  | s :: body => s.tokens ++ allTokens body

end

end Writing

/-- It ends in an `if` without `else`. -/
def Stmt.endsOpen : Stmt → Bool
  | .ifThen .. => true
  | .ifElse _ _ _ s | .whileLoop _ _ s | .forLoop _ _ _ _ s => s.endsOpen
  | _ => false

section Attached

variable (E : Expr → Prop) (D : List Declaration → Prop)

def ForInit.MadeOf : ForInit → Prop
  | .expr _ e => E e
  | .decls _ ds => D ds

mutual

/-- No `if` with an `else` has a first branch that ends in an `if` without one.  The expressions and the
declarations have some properties. -/
def Stmt.Attached : Stmt → Prop
  | .expr _ e => E e
  | .block _ body => AllAttached body
  | .ifThen _ cond s | .whileLoop _ cond s | .doWhile _ s cond => E cond ∧ s.Attached
  | .ifElse _ cond yes no => E cond ∧ yes.endsOpen = false ∧ yes.Attached ∧ no.Attached
  | .forLoop _ init cond step s =>
    (∀ i ∈ init, i.MadeOf E D) ∧ (∀ e ∈ cond, E e) ∧ (∀ e ∈ step, E e) ∧ s.Attached
  | .ret _ value => ∀ e ∈ value, E e
  | .decls _ ds => D ds
  | .brk _ | .cont _ | .empty _ => True

def AllAttached : List Stmt → Prop
  | [] => True
  | s :: body => s.Attached ∧ AllAttached body

end

theorem allAttached_append {body more : List Stmt} :
    AllAttached E D (body ++ more) ↔ AllAttached E D body ∧ AllAttached E D more := by
  induction body with
  | nil => exact (iff_of_eq (true_and _)).symm
  | cons s body ih => rw [cons_append, AllAttached, AllAttached, ih, and_assoc]

end Attached

namespace Grammar

/-! ## Parts -/

/-- On their own, the tokens are read as the declarations. -/
structure Declares (kinds : List TokenKind) (ds : List Declaration) : Prop where
  worded : ∀ k ∈ kinds, k.Worded
  reads : ∀ depth, 8 * kinds.length ≤ depth →
    blockDeclaration depth (plainTokens kinds) = .ok (ds.map (·.translate unplaced), plainTokens [])

variable {e : Expr} {input rest : Tokens} {depth : Nat}

theorem run_tokens (h : e.Writable) (depth : Nat) (spells : Spells e.tokens input rest)
    (deep : 8 * e.tokens.length + 3 ≤ depth) (stops : rest.next.kind.continues 0 = false) :
    ∃ e', e'.translate unplaced = e.translate unplaced ∧ expression depth input = .ok (e', rest) := by
  obtain ⟨e', same, run⟩ := (reads_tokens e h).expression depth input rest spells deep stops
  exact ⟨e', same, run⟩

theorem run_condition (h : e.Writable) (word : Keyword) (depth : Nat) (spells : Spells (conditionTokens e) input rest)
    (deep : 8 * (conditionTokens e).length ≤ depth) :
    ∃ e', e'.translate unplaced = e.translate unplaced ∧ condition word depth input = .ok (e', rest) := by
  obtain ⟨loc, raw, mid, rfl, spells⟩ := spells
  obtain ⟨_, inner, loc', raw', _, rfl, rfl, whole⟩ := spells_append.1 spells
  simp only [conditionTokens, length_cons, length_append] at deep
  obtain ⟨e', same, run⟩ := run_tokens h depth inner (by omega) rfl
  refine ⟨e', same, ?_⟩
  rw [condition, run_bind (run_expect inner.whole), run_bind run, run_bind (run_expect whole)]
  rfl

theorem run_expressionStatement (h : e.Writable) (depth : Nat)
    (spells : Spells (e.tokens ++ [.punct .semicolon]) input rest) (deep : 8 * e.tokens.length + 8 ≤ depth) :
    ∃ e', e'.translate unplaced = e.translate unplaced ∧
      expressionStatement depth input = .ok (e', rest) := by
  obtain ⟨_, inner, loc', raw', _, rfl, rfl, whole⟩ := spells_append.1 spells
  obtain ⟨e', same, run⟩ := run_tokens h depth inner (by omega) rfl
  refine ⟨e', same, ?_⟩
  rw [expressionStatement, run_bind run, run_bind (run_expect whole)]
  rfl

theorem run_expressionUnless {value : Option Expr} (h : ∀ e ∈ value, e.Writable) (depth : Nat)
    (spells : Spells (optionTokens value) input rest) (p : Punct) (next : rest.next.kind = .punct p)
    (never : TokenKind.opens (.punct p) = false) (ends : TokenKind.continues 0 (.punct p) = false)
    (deep : 8 * (optionTokens value).length + 3 ≤ depth) :
    ∃ value', value'.map (·.translate unplaced) = value.map (·.translate unplaced) ∧
      expressionUnless p depth input = .ok (value', rest) := by
  cases value with
  | none =>
    obtain ⟨rfl, -⟩ := spells
    refine ⟨none, rfl, ?_⟩
    rw [expressionUnless, run_bind (run_comes_next next)]
    rfl
  | some e =>
    obtain ⟨e', same, run⟩ := run_tokens (h e rfl) depth spells deep (by rw [next]; exact ends)
    have other : input.next.kind ≠ .punct p := ((reads_tokens e (h e rfl)).opens.next spells).ne never
    refine ⟨some e', congrArg some same, ?_⟩
    rw [expressionUnless, run_else (run_comes_other other), run_bind run]
    rfl

variable {spell : List Declaration → List TokenKind}

theorem run_declaration {ds : List Declaration} {kinds : List TokenKind} (h : Declares kinds ds) (depth : Nat)
    (spells : Spells kinds input rest) (deep : 8 * kinds.length ≤ depth) :
    ∃ ds', ds'.map (·.translate unplaced) = ds.map (·.translate unplaced) ∧
      blockDeclaration depth input = .ok (ds', rest) := by
  obtain ⟨whole, tokens, rfl, rfl⟩ := spells.behind
  have alone := h.reads depth deep
  have moved : plainTokens (tokens.map (·.kind)) = (Tokens.mk tokens (.eof .start)).move oneplace :=
    congrArg (Tokens.mk · _) map_map
  rw [moved, (makes_blockDeclaration depth ⟨True, []⟩).moves trivial] at alone
  cases read : blockDeclaration depth ⟨tokens, .eof .start⟩ with
  | error e =>
    rw [read] at alone
    cases alone
  | ok found =>
    obtain ⟨ds', left⟩ := found
    rw [read] at alone
    obtain ⟨same, ended⟩ := Prod.mk.inj (Except.ok.inj alone)
    obtain ⟨t, passed, all, again⟩ := eager_blockDeclaration depth _ ds' left read trivial
    -- Nothing is left, so all tokens were passed.
    have none : left.ahead = [] := map_eq_nil_iff.1 (congrArg Tokens.ahead ended)
    have every : tokens = t :: passed := by
      have every := congrArg Tokens.ahead all
      rwa [Tokens.behind, none, append_nil] at every
    rw [every]
    exact ⟨ds', same, again rest whole⟩

theorem next_declaration {ds : List Declaration} (run : blockDeclaration depth input = .ok (ds, rest)) :
    ∃ w, input.next.kind = .keyword w ∧ (w.startsDeclaration || isUnsupportedSpecifier w) = true := by
  obtain ⟨_, _, run, -⟩ := bind_eq_ok.1 run
  rw [declaration, atDeclaration] at run
  obtain ⟨found, _, looked, run⟩ := bind_eq_ok.1 run
  rw [run_bind run_peekKind] at looked
  cases kind : input.next.kind with
  | keyword w =>
    rw [kind] at looked
    refine ⟨w, rfl, ?_⟩
    cases starts : w.startsDeclaration || isUnsupportedSpecifier w with
    | true => rfl
    | false =>
      change Except.ok (_ || _, _) = _ at looked
      rw [starts] at looked
      cases looked
      cases run
  | _ =>
    rw [kind] at looked
    cases looked
    cases run

theorem run_atDeclaration_word {w : Keyword} (next : input.next.kind = .keyword w)
    (starts : (w.startsDeclaration || isUnsupportedSpecifier w) = true) : atDeclaration input = .ok (true, input) := by
  rw [atDeclaration, run_bind run_peekKind, next]
  exact congrArg (fun found => Except.ok (found, input)) starts

theorem run_forInit {init : Option ForInit} (h : ∀ i ∈ init, i.MadeOf Expr.Writable fun ds => Declares (spell ds) ds)
    (depth : Nat) (spells : Spells (initTokens spell init) input rest) (deep : 8 * (initTokens spell init).length ≤ depth) :
    ∃ init', init'.map (·.translate unplaced) = init.map (·.translate unplaced) ∧
      forInit depth input = .ok (init', rest) := by
  have here : here input = .ok (input.next.loc, input) := rfl
  cases init with
  | none =>
    obtain ⟨loc, raw, _, rfl, rfl, whole⟩ := spells
    refine ⟨none, rfl, ?_⟩
    rw [forInit, run_then (run_accept whole)]
    rfl
  | some init =>
    cases init with
    | expr loc e =>
      have opens := ((reads_tokens e (h _ rfl)).opens.append [.punct .semicolon]).next spells
      obtain ⟨e', same, run⟩ := run_expressionStatement (h _ rfl) depth spells
        (by rwa [initTokens, length_append] at deep)
      refine ⟨some (.expr input.next.loc e'), congrArg (fun e => some (ForInit.expr .start e)) same, ?_⟩
      rw [forInit, run_else (run_accept_other (opens.ne rfl)), run_bind here,
        run_else (run_atDeclaration opens), run_bind run]
      rfl
    | decls loc ds =>
      obtain ⟨ds', same, run⟩ := run_declaration (h _ rfl) depth spells deep
      obtain ⟨w, next, starts⟩ := next_declaration run
      refine ⟨some (.decls input.next.loc ds'), congrArg (fun ds => some (ForInit.decls .start ds)) same, ?_⟩
      rw [forInit, run_else (run_accept_other (by rw [next]; rintro ⟨⟩)), run_bind here,
        run_then (run_atDeclaration_word next starts), run_bind run]
      rfl

/-! ## Statements -/

theorem next_statement {s : Stmt} (h : s.Attached Expr.Writable fun ds => Declares (spell ds) ds)
    (spells : Spells (s.tokens spell) input rest) : 0 < (s.tokens spell).length ∧ input.next.kind ≠ .punct .rBrace ∧
      input.next.kind ≠ .eof ∧ input.next.kind ≠ .keyword .elseWord := by
  cases s with
  | expr loc e =>
    have opens := ((reads_tokens e h).opens.append [.punct .semicolon])
    exact ⟨opens.length_pos, (opens.next spells).ne rfl, (opens.next spells).ne rfl, (opens.next spells).ne rfl⟩
  | decls loc ds =>
    obtain ⟨ds', -, run⟩ := run_declaration h _ spells (Nat.le_refl _)
    obtain ⟨w, next, starts⟩ := next_declaration run
    have long : 0 < (spell ds).length := by
      obtain ⟨_, first, -⟩ := next_declaration (h.reads _ (Nat.le_refl _))
      cases none : spell ds with
      | nil =>
        rw [none] at first
        cases first
      | cons => exact Nat.succ_pos _
    refine ⟨long, ?_⟩
    rw [next]
    refine ⟨by rintro ⟨⟩, by rintro ⟨⟩, ?_⟩
    rintro ⟨⟩
    cases starts
  | block | ifThen | ifElse | whileLoop | doWhile | forLoop | ret | brk | cont | empty =>
    obtain ⟨_, _, _, rfl, -⟩ := spells
    exact ⟨Nat.succ_pos _, by rintro ⟨⟩, by rintro ⟨⟩, by rintro ⟨⟩⟩

attribute [local simp] statement statements Stmt.tokens

theorem statement_other (h : Opens input.next.kind ∨ ∃ w, input.next.kind = .keyword w ∧
      (w.startsDeclaration || isUnsupportedSpecifier w) = true) :
    statement (depth + 1) input = (do
      if ← atDeclaration then return Stmt.decls input.next.loc (← blockDeclaration depth)
      else return Stmt.expr input.next.loc (← expressionStatement depth)) input := by
  rw [statement, run_bind run_peek]
  rcases h with opens | ⟨w, next, starts⟩
  · cases kind : input.next.kind with
    | punct p => cases p <;> first | rfl | exact absurd kind (opens.ne rfl)
    | keyword w => cases w <;> first | rfl | exact absurd kind (opens.ne rfl)
    | _ => rfl
  · rw [next]
    cases w <;> first | rfl | cases starts

theorem statements_other {done : List Stmt} (notBrace : input.next.kind ≠ .punct .rBrace)
    (notEnd : input.next.kind ≠ .eof) :
    statements (depth + 1) done input = (do
      let s ← statement depth
      statements depth (s :: done)) input := by
  rw [statements, run_bind run_peekKind]
  cases kind : input.next.kind with
  | eof => exact absurd kind notEnd
  | punct p => cases p <;> first | rfl | exact absurd kind notBrace
  | _ => rfl

/-- The tokens of a statement are read as the statement, if what follows is no `else` that it would take. -/
def ReadsBack (spell : List Declaration → List TokenKind) (s : Stmt) : Prop :=
  ∀ depth input rest, Spells (s.tokens spell) input rest → 8 * (s.tokens spell).length + 8 ≤ depth →
    (s.endsOpen = true → rest.next.kind ≠ .keyword .elseWord) →
      ∃ s', s'.translate unplaced = s.translate unplaced ∧ statement depth input = .ok (s', rest)

section ReadsBack

variable {loc : Location} {cond : Expr} {yes no body : Stmt}

theorem ReadsBack.expr (h : e.Writable) : ReadsBack spell (.expr loc e) := by
  intro depth input rest spells deep stops
  have opens := ((reads_tokens e h).opens.append [.punct .semicolon]).next spells
  rw [Stmt.tokens, length_append, length_singleton] at deep
  obtain _ | d := depth
  · omega
  obtain ⟨e', same, run⟩ := run_expressionStatement h d spells (by omega)
  refine ⟨.expr input.next.loc e', congrArg (Stmt.expr .start) same, ?_⟩
  rw [statement_other (.inl opens), run_else (run_atDeclaration opens), run_bind run]
  rfl

theorem ReadsBack.decls {ds : List Declaration} (h : Declares (spell ds) ds) : ReadsBack spell (.decls loc ds) := by
  intro depth input rest spells deep stops
  obtain _ | d := depth
  · omega
  obtain ⟨ds', same, run⟩ := run_declaration h d spells (by rw [Stmt.tokens] at deep; omega)
  obtain ⟨w, next, starts⟩ := next_declaration run
  refine ⟨.decls input.next.loc ds', congrArg (Stmt.decls .start) same, ?_⟩
  rw [statement_other (.inr ⟨w, next, starts⟩), run_then (run_atDeclaration_word next starts), run_bind run]
  rfl

theorem ReadsBack.block {body : List Stmt} (h : ∀ depth done input rest, Spells (allTokens spell body) input rest →
      8 * (allTokens spell body).length + 9 ≤ depth → rest.next.kind = .punct .rBrace →
        ∃ body', Stmt.translateAll unplaced body' = Stmt.translateAll unplaced body ∧
          statements depth done input = .ok (done.reverse ++ body', rest)) : ReadsBack spell (.block loc body) := by
  rintro depth _ rest ⟨loc', raw, mid, rfl, spells⟩ deep -
  obtain ⟨_, inner, _, _, after, rfl, rfl, whole⟩ := spells_append.1 spells
  simp only [Stmt.tokens, length_cons, length_append] at deep
  obtain ⟨d, rfl⟩ := Nat.exists_eq_add_of_le' (show 2 ≤ depth by omega)
  obtain ⟨body', same, run⟩ := h d [] _ _ inner (by omega) rfl
  refine ⟨.block loc' body', congrArg (Stmt.block .start) same, ?_⟩
  have read : Grammar.block (d + 1) (.cons ⟨.punct .lBrace, loc', raw⟩ mid) = .ok (body', after) := by
    rw [Grammar.block, run_bind (run_expect inner.whole), run_bind run, run_bind (run_expect whole)]
    rfl
  rw [statement, run_bind run_peek_cons]
  exact run_bind read

theorem ReadsBack.ifThen (hc : cond.Writable) (h : ReadsBack spell yes) : ReadsBack spell (.ifThen loc cond yes) := by
  rintro depth _ rest ⟨loc', raw, mid, rfl, spells⟩ deep stops
  obtain ⟨_, first, second⟩ := spells_append.1 spells
  simp only [Stmt.tokens, length_cons, length_append] at deep
  obtain _ | d := depth
  · omega
  obtain ⟨cond', same, run⟩ := run_condition hc .ifWord d first (by omega)
  obtain ⟨yes', same', run'⟩ := h d _ rest second (by omega) fun _ => stops rfl
  refine ⟨.ifThen loc' cond' yes', congrArg₂ (Stmt.ifThen .start) same same', ?_⟩
  rw [statement, run_bind run_peek_cons]
  show (advance >>= _) _ = _
  rw [run_bind (run_advance spells.whole), run_bind run, run_bind run', run_else (run_accept_other (stops rfl))]
  rfl

/-- The first branch may not take the `else`. -/
theorem ReadsBack.ifElse (hc : cond.Writable) (closed : yes.endsOpen = false) (h : ReadsBack spell yes)
    (h' : ReadsBack spell no) : ReadsBack spell (.ifElse loc cond yes no) := by
  rintro depth _ rest ⟨loc', raw, mid, rfl, spells⟩ deep stops
  obtain ⟨_, first, spells'⟩ := spells_append.1 spells
  obtain ⟨_, second, _, _, _, rfl, third⟩ := spells_append.1 spells'
  simp only [Stmt.tokens, length_cons, length_append] at deep
  obtain _ | d := depth
  · omega
  obtain ⟨cond', same, run⟩ := run_condition hc .ifWord d first (by omega)
  obtain ⟨yes', same', run'⟩ := h d _ _ second (by omega) fun opened =>
    absurd (closed.symm.trans opened) Bool.false_ne_true
  obtain ⟨no', same'', run''⟩ := h' d _ rest third (by omega) stops
  refine ⟨.ifElse loc' cond' yes' no', ?_, ?_⟩
  · show Stmt.ifElse .start _ _ _ = Stmt.ifElse .start _ _ _
    rw [same, same', same'']
  · rw [statement, run_bind run_peek_cons]
    show (advance >>= _) _ = _
    rw [run_bind (run_advance spells.whole), run_bind run, run_bind run', run_then (run_accept third.whole), run_bind run'']
    rfl

theorem ReadsBack.whileLoop (hc : cond.Writable) (h : ReadsBack spell body) :
    ReadsBack spell (.whileLoop loc cond body) := by
  rintro depth _ rest ⟨loc', raw, mid, rfl, spells⟩ deep stops
  obtain ⟨_, first, second⟩ := spells_append.1 spells
  simp only [Stmt.tokens, length_cons, length_append] at deep
  obtain _ | d := depth
  · omega
  obtain ⟨cond', same, run⟩ := run_condition hc .whileWord d first (by omega)
  obtain ⟨body', same', run'⟩ := h d _ rest second (by omega) stops
  refine ⟨.whileLoop loc' cond' body', congrArg₂ (Stmt.whileLoop .start) same same', ?_⟩
  rw [statement, run_bind run_peek_cons]
  show (advance >>= _) _ = _
  rw [run_bind (run_advance spells.whole), run_bind run, run_bind run']
  rfl

theorem ReadsBack.doWhile (hc : cond.Writable) (h : ReadsBack spell body) :
    ReadsBack spell (.doWhile loc body cond) := by
  rintro depth _ rest ⟨loc', raw, mid, rfl, spells⟩ deep -
  obtain ⟨_, first, _, _, _, rfl, spells'⟩ := spells_append.1 spells
  obtain ⟨_, second, _, _, _, rfl, rfl, whole⟩ := spells_append.1 spells'
  simp only [Stmt.tokens, length_cons, length_append] at deep
  obtain _ | d := depth
  · omega
  obtain ⟨body', same', run'⟩ := h d _ _ first (by omega) fun _ => by rintro ⟨⟩
  obtain ⟨cond', same, run⟩ := run_condition hc .whileWord d second (by omega)
  refine ⟨.doWhile loc' body' cond', congrArg₂ (Stmt.doWhile .start) same' same, ?_⟩
  rw [statement, run_bind run_peek_cons]
  show (advance >>= _) _ = _
  rw [run_bind (run_advance spells.whole), run_bind run', run_then (run_accept second.whole),
    run_bind run, run_bind (run_expect whole)]
  rfl

theorem ReadsBack.forLoop {init : Option ForInit} {cond step : Option Expr}
    (hi : ∀ i ∈ init, i.MadeOf Expr.Writable fun ds => Declares (spell ds) ds) (hc : ∀ e ∈ cond, e.Writable)
    (hs : ∀ e ∈ step, e.Writable) (h : ReadsBack spell body) :
    ReadsBack spell (.forLoop loc init cond step body) := by
  rintro depth _ rest ⟨loc', raw, _, rfl, _, _, mid, rfl, spells⟩ deep stops
  obtain ⟨_, first, spells'⟩ := spells_append.1 spells
  obtain ⟨_, second, _, _, _, rfl, spells'⟩ := spells_append.1 spells'
  obtain ⟨_, third, _, _, _, rfl, fourth⟩ := spells_append.1 spells'
  simp only [Stmt.tokens, length_cons, length_append] at deep
  obtain _ | d := depth
  · omega
  obtain ⟨init', sameInit, runInit⟩ := run_forInit hi d first (by omega)
  obtain ⟨cond', sameCond, runCond⟩ := run_expressionUnless hc d second .semicolon rfl rfl rfl (by omega)
  obtain ⟨step', sameStep, runStep⟩ := run_expressionUnless hs d third .rParen rfl rfl rfl (by omega)
  obtain ⟨body', same, run⟩ := h d _ rest fourth (by omega) stops
  refine ⟨.forLoop loc' init' cond' step' body', ?_, ?_⟩
  · show Stmt.forLoop .start _ _ _ _ = Stmt.forLoop .start _ _ _ _
    rw [sameInit, sameCond, sameStep, same]
  · rw [statement, run_bind run_peek_cons]
    show (advance >>= _) _ = _
    rw [run_bind (run_advance (Tokens.whole_cons _ _)), run_bind (run_expect first.whole), run_bind runInit,
      run_bind runCond, run_bind (run_expect third.whole), run_bind runStep, run_bind (run_expect fourth.whole),
      run_bind run]
    rfl

theorem ReadsBack.ret {value : Option Expr} (h : ∀ e ∈ value, e.Writable) : ReadsBack spell (.ret loc value) := by
  rintro depth _ rest ⟨loc', raw, mid, rfl, spells⟩ deep -
  obtain ⟨_, inner, _, _, _, rfl, rfl, whole⟩ := spells_append.1 spells
  simp only [Stmt.tokens, length_cons, length_append] at deep
  obtain _ | d := depth
  · omega
  obtain ⟨value', same, run⟩ := run_expressionUnless h d inner .semicolon rfl rfl rfl (by omega)
  refine ⟨.ret loc' value', congrArg (Stmt.ret .start) same, ?_⟩
  rw [statement, run_bind run_peek_cons]
  show (advance >>= _) _ = _
  rw [run_bind (run_advance spells.whole), run_bind run, run_bind (run_expect whole)]
  rfl

theorem ReadsBack.leave (h : body = .brk loc ∨ body = .cont loc) : ReadsBack spell body := by
  rcases h with rfl | rfl <;>
  · rintro depth _ rest ⟨loc', raw, _, rfl, _, _, _, rfl, rfl, whole⟩ deep -
    obtain _ | d := depth
    · omega
    first | refine ⟨.brk loc', rfl, ?_⟩ | refine ⟨.cont loc', rfl, ?_⟩
    rw [statement, run_bind run_peek_cons]
    show (advance >>= _) _ = _
    rw [run_bind (run_advance (Tokens.whole_cons _ _)), run_bind (run_expect whole)]
    rfl

theorem ReadsBack.empty : ReadsBack spell (.empty loc) := by
  rintro depth _ rest ⟨loc', raw, _, rfl, rfl, whole⟩ deep -
  obtain _ | d := depth
  · omega
  refine ⟨.empty loc', rfl, ?_⟩
  rw [statement, run_bind run_peek_cons]
  show (advance >>= _) _ = _
  rw [run_bind (run_advance whole)]
  rfl

end ReadsBack

mutual

theorem reads_statement (s : Stmt) (h : s.Attached Expr.Writable fun ds => Declares (spell ds) ds) :
    ReadsBack spell s :=
  match s, h with
  | .expr .., h => .expr h
  | .decls .., h => .decls h
  | .block _ body, h => .block (reads_statements body h)
  | .ifThen _ _ yes, h => .ifThen h.1 (reads_statement yes h.2)
  | .ifElse _ _ yes no, h => .ifElse h.1 h.2.1 (reads_statement yes h.2.2.1) (reads_statement no h.2.2.2)
  | .whileLoop _ _ body, h => .whileLoop h.1 (reads_statement body h.2)
  | .doWhile _ body _, h => .doWhile h.1 (reads_statement body h.2)
  | .forLoop _ _ _ _ body, h => .forLoop h.1 h.2.1 h.2.2.1 (reads_statement body h.2.2.2)
  | .ret .., h => .ret h
  | .brk _, _ => .leave (.inl rfl)
  | .cont _, _ => .leave (.inr rfl)
  | .empty _, _ => .empty

theorem reads_statements (body : List Stmt) (h : AllAttached Expr.Writable (fun ds => Declares (spell ds) ds) body)
    (depth : Nat) (done : List Stmt) (input rest : Tokens) (spells : Spells (allTokens spell body) input rest)
    (deep : 8 * (allTokens spell body).length + 9 ≤ depth) (closes : rest.next.kind = .punct .rBrace) :
    ∃ body', Stmt.translateAll unplaced body' = Stmt.translateAll unplaced body ∧
      statements depth done input = .ok (done.reverse ++ body', rest) := by
  obtain _ | d := depth
  · omega
  cases body with
  | nil =>
    obtain ⟨rfl, -⟩ := spells
    refine ⟨[], rfl, ?_⟩
    rw [statements, run_bind run_peekKind, closes, append_nil]
    rfl
  | cons s body =>
    obtain ⟨mid, first, second⟩ := spells_append.1 spells
    obtain ⟨long, notBrace, notEnd, -⟩ := next_statement h.1 first
    rw [allTokens, length_append] at deep
    have noElse : mid.next.kind ≠ .keyword .elseWord := by
      cases body with
      | nil =>
        rw [second.1, closes]
        rintro ⟨⟩
      | cons s₁ body =>
        obtain ⟨_, first', -⟩ := spells_append.1 second
        exact (next_statement h.2.1 first').2.2.2
    obtain ⟨s', same, run⟩ := reads_statement s h.1 d input mid first (by omega) fun _ => noElse
    obtain ⟨body', same', run'⟩ := reads_statements body h.2 d (s' :: done) mid rest second (by omega) closes
    refine ⟨s' :: body', ?_, ?_⟩
    · rw [Stmt.translateAll, Stmt.translateAll, same, same']
    · rw [statements_other notBrace notEnd, run_bind run, run', reverse_cons, append_assoc]
      rfl

end

/-! ## What is read -/

section Leaves

variable {α β : Type}

/-- What holds of what a reader gives and of the token that it leaves next. -/
def Leaves (Q : α → TokenKind → Prop) (m : Reader α) : Prop :=
  ∀ ts a left, m ts = .ok (a, left) → Q a left.next.kind

variable {P : α → TokenKind → Prop} {Q : β → TokenKind → Prop} {m : Reader α} {g : α → Reader β}

theorem Leaves.bind (h : Leaves P m) (more : ∀ a k, P a k → Leaves Q (g a)) : Leaves Q (m >>= g) := by
  intro ts b left run
  obtain ⟨a, mid, first, second⟩ := bind_eq_ok.1 run
  exact more a _ (h ts a mid first) mid b left second

theorem Leaves.skip (h : ∀ a, Leaves Q (g a)) : Leaves Q (m >>= g) :=
  .bind (fun _ _ _ _ => trivial) fun a _ (_ : True) => h a

theorem Leaves.last {f : α → β} (h : Leaves P m) (post : ∀ a k, P a k → Q (f a) k) :
    Leaves Q (m >>= fun a => pure (f a)) := by
  intro ts b left run
  obtain ⟨a, mid, first, second⟩ := bind_eq_ok.1 run
  cases second
  exact post a _ (h ts a _ first)

theorem Leaves.pure {b : β} (h : ∀ k, Q b k) : Leaves Q (Pure.pure b : Reader β) := by
  rintro ts _ left ⟨⟩
  exact h _

theorem Leaves.failExpected {wanted : Wanted} : Leaves Q (failExpected wanted : Reader β) := by
  rintro ts _ left ⟨⟩

theorem Leaves.fail {fault : Fault} : Leaves Q (fail fault : Reader β) := by
  rintro ts _ left ⟨⟩

end Leaves

/-- Its `if`s are attached, and the next token is no `else` that it would take. -/
def Nearest (s : Stmt) (next : TokenKind) : Prop :=
  s.Attached (fun _ => True) (fun _ => True) ∧ (s.endsOpen = true → next ≠ .keyword .elseWord)

/-- A branch and what follows it: an `else` is taken wherever one comes. -/
theorem leaves_branches {loc : Location} {cond : Expr} (h : Leaves Nearest (statement depth)) :
    Leaves Nearest (do
      let yes ← statement depth
      if ← accept (.keyword .elseWord) then return .ifElse loc cond yes (← statement depth)
      else return .ifThen loc cond yes) := by
  intro ts s left run
  obtain ⟨yes, mid, first, run⟩ := bind_eq_ok.1 run
  obtain ⟨attached, stops⟩ := h ts yes mid first
  by_cases next : mid.next.kind = .keyword .elseWord
  · obtain ⟨found, after, accepted, run⟩ := bind_eq_ok.1 run
    rw [accept, run_then (run_comes_next next)] at accepted
    obtain ⟨_, _, -, same⟩ := bind_eq_ok.1 accepted
    cases same
    have closed : yes.endsOpen = false := Bool.eq_false_iff.2 fun opened => stops opened next
    exact (h.last fun no k hn => ⟨⟨trivial, closed, attached, hn.1⟩, hn.2⟩) _ _ _ run
  · rw [run_else (run_accept_other next)] at run
    cases run
    exact ⟨⟨trivial, attached⟩, fun _ => next⟩

mutual

theorem leaves_statement (depth : Nat) : Leaves Nearest (statement depth) := by
  match depth with
  | 0 => exact .fail
  | depth + 1 =>
    have plain : ∀ {s : Stmt}, s.Attached (fun _ => True) (fun _ => True) → s.endsOpen = false → ∀ k, Nearest s k :=
      fun attached closed _ => ⟨attached, fun opened => absurd (closed.symm.trans opened) Bool.false_ne_true⟩
    refine .skip fun t => ?_
    obtain ⟨kind, loc, raw⟩ := t
    have other : Leaves Nearest (atDeclaration >>= fun found =>
        if found = true then blockDeclaration depth >>= fun ds => pure (.decls loc ds)
        else expressionStatement depth >>= fun e => pure (.expr loc e)) := by
      refine .skip fun found => ?_
      cases found with
      | true => exact .skip fun ds => .pure (plain trivial rfl)
      | false => exact .skip fun e => .pure (plain trivial rfl)
    cases kind with
    | punct p =>
      cases p with
      | lBrace => exact (leaves_block depth).last fun body _ attached => plain (s := .block loc body) attached rfl _
      | semicolon => exact .skip fun _ => .pure (plain trivial rfl)
      | _ => exact other
    | keyword word =>
      cases word with
      | ifWord => exact .skip fun _ => .skip fun cond => leaves_branches (leaves_statement depth)
      | whileWord =>
        exact .skip fun _ => .skip fun cond => (leaves_statement depth).last fun body _ h => ⟨⟨trivial, h.1⟩, h.2⟩
      | doWord =>
        refine .skip fun _ => .bind (leaves_statement depth) fun body _ h => .skip fun found => ?_
        cases found with
        | true => exact .skip fun cond => .skip fun _ => .pure (plain ⟨trivial, h.1⟩ rfl)
        | false => exact .failExpected
      | forWord =>
        refine .skip fun _ => .skip fun _ => .skip fun init => .skip fun cond => .skip fun _ => .skip fun step => ?_
        refine .skip fun _ => (leaves_statement depth).last fun body _ h => ⟨⟨?_, ?_, ?_, h.1⟩, h.2⟩
        · intro i _
          cases i <;> trivial
        · exact fun _ _ => trivial
        · exact fun _ _ => trivial
      | returnWord => exact .skip fun _ => .skip fun value => .skip fun _ => .pure (plain (fun _ _ => trivial) rfl)
      | breakWord | continueWord => exact .skip fun _ => .skip fun _ => .pure (plain trivial rfl)
      | switch | caseWord | default | goto => exact .fail
      | _ => exact other
    | _ => exact other

theorem leaves_block (depth : Nat) :
    Leaves (fun body _ => AllAttached (fun _ => True) (fun _ => True) body) (block depth) := by
  match depth with
  | 0 => exact .fail
  | depth + 1 =>
    refine .skip fun _ => .bind (leaves_statements depth [] trivial) fun body _ attached => ?_
    exact .skip fun _ => .pure fun _ => attached

theorem leaves_statements (depth : Nat) (done : List Stmt)
    (h : AllAttached (fun _ => True) (fun _ => True) done.reverse) :
    Leaves (fun body _ => AllAttached (fun _ => True) (fun _ => True) body) (statements depth done) := by
  match depth with
  | 0 => exact .fail
  | depth + 1 =>
    refine .skip fun kind => ?_
    have more : Leaves (fun body _ => AllAttached (fun _ => True) (fun _ => True) body)
        (statement depth >>= fun s => statements depth (s :: done)) := by
      refine .bind (leaves_statement depth) fun s _ attached => leaves_statements depth (s :: done) ?_
      rw [reverse_cons]
      exact (allAttached_append _ _).2 ⟨h, attached.1, trivial⟩
    cases kind with
    | eof => exact .pure fun _ => h
    | punct p =>
      cases p with
      | rBrace => exact .pure fun _ => h
      | _ => exact more
    | _ => exact more

end

end Grammar

open Grammar

/-- Reading inverts writing, with every `else` at the nearest `if`.  The tokens of a statement in which no branch takes
the `else` of another `if` are read as the same tree up to positions, and nothing more is read than these tokens, if no
`else` follows that the statement would take.  Every tree that is read is such a statement. -/
theorem statement_tokens (spell : List Declaration → List TokenKind) :
    (∀ s : Stmt, s.Attached Expr.Writable (fun ds => Declares (spell ds) ds) → ∀ tokens : List Token,
      tokens.map (·.kind) = s.tokens spell → ∀ rest : Tokens, rest.Whole →
      (s.endsOpen = true → rest.next.kind ≠ .keyword .elseWord) → ∀ depth, enough tokens.length ≤ depth →
        ∃ s', statement depth ⟨tokens ++ rest.ahead, rest.stop⟩ = .ok (s', rest) ∧
          s'.translate unplaced = s.translate unplaced) ∧
    ∀ depth ts s left, statement depth ts = .ok (s, left) →
      s.Attached (fun _ => True) (fun _ => True) ∧ (s.endsOpen = true → left.next.kind ≠ .keyword .elseWord) := by
  refine ⟨fun s attached tokens spelled rest whole stops depth deep => ?_, fun depth => leaves_statement depth⟩
  have spells := spells_kinds tokens whole
  have long : tokens.length = (s.tokens spell).length := by rw [← spelled, List.length_map]
  rw [spelled] at spells
  rw [enough] at deep
  obtain ⟨s', same, run⟩ := reads_statement s attached depth _ rest spells (by omega) stops
  exact ⟨s', run, same⟩

/-- `{ int x; if (x) if (x); else; }`. -/
def nested : Stmt :=
  let x := .ident .start (ascii "x")
  .block .start [.decls .start [.var ⟨ascii "x", .int, none, .plain, .start⟩],
    .ifThen .start x (.ifElse .start x (.empty .start) (.empty .start))]

theorem statement_tokens_nested :
    let spell := fun _ => [.keyword .int, .ident (ascii "x"), .punct .semicolon]
    let tokens := (nested.tokens spell).map (⟨·, .start, []⟩)
    ∃ s', statement 160 ⟨tokens, .eof .start⟩ = .ok (s', plainTokens []) ∧
      s'.translate unplaced = nested.translate unplaced := by
  intro spell tokens
  have declares : Declares (spell []) [.var ⟨ascii "x", .int, none, .plain, .start⟩] := by
    refine ⟨?_, fun depth deep => ?_⟩
    · simp only [spell, List.forall_mem_cons]
      refine ⟨nofun, ?_, nofun, List.forall_mem_nil _⟩
      rintro _ ⟨⟩
      exact ⟨nofun, List.all_eq_true.1 (by decide)⟩
    · obtain ⟨d, rfl⟩ := Nat.exists_eq_add_of_le' deep
      rfl
  exact (statement_tokens spell).1 nested ⟨declares, ⟨trivial, trivial, rfl, trivial, trivial⟩, trivial⟩ tokens rfl
    (plainTokens []) (fun _ => ⟨_, rfl⟩) nofun 160 (by decide)

end Cof
