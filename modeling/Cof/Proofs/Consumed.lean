/-
  Reading a program reads all of its tokens.

  A reader passes tokens from the front and nothing else, so what it leaves is an end of what it was given;
  and the only lexical error that it can raise is the one that stops the tokens (`Ends`, by induction on how
  readers are built).  The reader of whole programs comes back only where the next token is the end of the
  source.  No token ahead of it is one, so by then all are passed, and a lexical error behind them would
  have been raised.
-/
import Cof.Proofs.Located

namespace Cof

open List

/-! ## What readers leave -/

namespace Grammar

/-- How a reader may end on some tokens: one that eats leaves fewer. -/
inductive Ends {α : Type} (eats : Bool) (d r : Nat) (ts : Tokens) : Except ParseError (α × Tokens) → Prop where
  | ok (stop : left.stop = ts.stop) (ahead : left.ahead <:+ ts.ahead) (guarded : ts.Guarded → left.Guarded)
      (fewer : left.ahead.length + eats.toNat ≤ ts.ahead.length) : Ends eats d r ts (.ok (a, left))
  | lex (stop : ts.stop = .error e) : Ends eats d r ts (.error (.lex e))
  | form (deep : fault = .tooDeep → d < r + 8 * ts.ahead.length) : Ends eats d r ts (.error (.form fault loc))

variable {α : Type} {eats b : Bool} {d r d' r' : Nat} {ts left : Tokens} {depth : Nat} {done : List TopLevel}
variable {p : Program}

/-- What one reader leaves is what the next is given. -/
theorem Ends.mono {result : Except ParseError (α × Tokens)} (h : Ends b d' r' left result)
    (stop : left.stop = ts.stop) (ahead : left.ahead <:+ ts.ahead) (guarded : ts.Guarded → left.Guarded)
    (fewer : left.ahead.length + eats.toNat ≤ ts.ahead.length + b.toNat)
    (deep : d + r' + 8 * left.ahead.length ≤ d' + r + 8 * ts.ahead.length) : Ends eats d r ts result := by
  cases h with
  | ok stop' ahead' guarded' fewer' =>
    exact .ok (stop'.trans stop) (ahead'.trans ahead) (fun whole => guarded' (guarded whole)) (by omega)
  | lex stop' => exact .lex (stop.symm.trans stop')
  | form deep' =>
    refine .form fun cause => ?_
    have short := deep' cause
    omega

theorem ends_advance (real : eats = true → ts.ahead ≠ []) : Ends eats d r ts (advance ts) := by
  obtain ⟨ahead, stop⟩ := ts
  cases ahead with
  | nil =>
    cases eats with
    | false => exact .ok rfl (suffix_refl _) id (Nat.le_refl _)
    | true => exact absurd rfl (real rfl)
  | cons t rest =>
    have fewer : rest.length + eats.toNat ≤ (t :: rest).length := Nat.add_le_add_left (Bool.toNat_le eats) _
    cases rest with
    | cons u rest => exact .ok rfl (suffix_cons t _) (fun _ _ _ => cons_ne_nil u rest) fewer
    | nil =>
      -- No token is left, so nothing may be left that stops them but the end of the source.
      cases stop with
      | error e => exact .lex rfl
      | eof loc => exact .ok rfl (suffix_cons t _) (fun _ => nofun) fewer

theorem Makes.ends {β : Type} {K : Known CType} {N : TokenKind → Prop} {view : α → β} {M : α → List CType} {Q : β → Prop}
    {m : Reader α} {m' : Reader β} (h : Makes (.moving id) K N eats d r view M Q m m') (ts : Tokens)
    (next : N ts.next.kind) : Ends eats d r ts (m ts) := by
  induction h generalizing ts with
  | pure => exact .ok rfl (suffix_refl _) id (Nat.le_refl _)
  | types step =>
    obtain ⟨_, rfl, -⟩ := step.eq_pure
    exact .ok rfl (suffix_refl _) id (Nat.le_refl _)
  | look _ ih => exact ih ts.next next ts rfl
  | advance real =>
    refine ends_advance fun eats none => real eats _ next ?_
    obtain ⟨ahead, stop⟩ := ts
    subst none
    cases stop <;> rfl
  | failAt fault loc deep => exact .form fun cause => Nat.lt_add_right _ (deep cause)
  | @mono _ _ _ _ eats eats' _ _ _ _ _ _ _ _ _ _ _ _ _ after calm deep _ ih =>
    have fewer : eats.toNat ≤ eats'.toNat := Bool.toNat_le_toNat (Bool.le_iff_imp.2 calm)
    exact (ih ts (after _ next)).mono rfl (suffix_refl _) id (by omega) (by omega)
  | @bind _ _ _ _ _ _ _ _ _ m _ eats _ _ _ _ _ g _ _ _ ihm ihg
  | @eat _ _ _ _ _ _ _ _ _ m _ _ _ _ _ _ g _ eats _ _ ihm ihg =>
    show Ends _ _ _ ts (m ts >>= fun result => g result.1 result.2)
    have ends := ihm ts next
    have one := Bool.toNat_le eats
    have none : false.toNat = 0 := rfl
    generalize run : m ts = result at ends
    cases ends with
    | @ok a left stop ahead guarded fewer =>
      simp only [Bool.toNat_false, Bool.toNat_true] at fewer
      exact (ihg a left trivial).mono stop ahead guarded (by omega) (by omega)
    | lex stop => exact .lex stop
    | form deep => exact .form deep

theorem topLevels_next (h : topLevels depth done ts = .ok (p, left)) : left.next.kind = .eof := by
  induction depth generalizing done ts with
  | zero => cases h
  | succ depth ih =>
    -- One turn: come back, or read one more piece and go on with what it leaves.
    change (if decide (ts.next.kind = .eof) = true then (pure done.reverse : Reader Program)
      else topLevel depth >>= fun more => topLevels depth (more.reverse ++ done)) ts = _ at h
    split at h
    · rename_i last
      cases h
      exact of_decide_eq_true last
    · change (topLevel depth ts >>= fun result => topLevels depth (result.1.reverse ++ done) result.2) = _ at h
      cases read : topLevel depth ts with
      | error e =>
        rw [read] at h
        cases h
      | ok result =>
        rw [read] at h
        exact ih h

theorem topLevels_left (guarded : ts.Guarded) (noEnd : ∀ t ∈ ts.ahead, t.kind ≠ .eof)
    (h : topLevels depth [] ts = .ok (p, left)) : ∃ loc, ts.stop = .eof loc ∧ left = ⟨[], .eof loc⟩ := by
  have last := topLevels_next h
  have ends := (makes_program depth).ends ts trivial
  rw [h] at ends
  cases ends with
  | ok stop ahead guards =>
    obtain ⟨tokens, stop'⟩ := left
    cases tokens with
    | cons t rest => exact absurd last (noEnd t (ahead.subset mem_cons_self))
    | nil =>
      -- The end of the source is also what is seen in place of an error, so this case needs the guard.
      cases stop' with
      | error e => exact absurd rfl (guards guarded e rfl)
      | eof loc => exact ⟨loc, stop.symm, rfl⟩

end Grammar

/-! ## Earlier and later positions -/

namespace Location

/-- Positions are ordered by line, and on a line by column. -/
instance : LE Location where
  le a b := a.line < b.line ∨ a.line = b.line ∧ a.column ≤ b.column

instance (a b : Location) : Decidable (a ≤ b) :=
  inferInstanceAs (Decidable (a.line < b.line ∨ a.line = b.line ∧ a.column ≤ b.column))

theorem le_refl (loc : Location) : loc ≤ loc := .inr ⟨rfl, Nat.le_refl _⟩

theorem le_trans {a b c : Location} (ab : a ≤ b) (bc : b ≤ c) : a ≤ c := by
  change _ ∨ _ at ab bc ⊢
  omega

theorem le_step (loc : Location) (b : UInt8) : loc ≤ loc.step b := by
  unfold step
  split
  · exact .inl (Nat.lt_succ_self _)
  · exact .inr ⟨rfl, Nat.le_succ _⟩

theorem le_after (loc : Location) (text : Bytes) : loc ≤ loc.after text := by
  induction text generalizing loc with
  | nil => exact le_refl loc
  | cons b text ih => exact le_trans (le_step loc b) (ih _)

theorem after_le_append (loc : Location) (before more : Bytes) : loc.after before ≤ loc.after (before ++ more) := by
  rw [after_append]
  exact le_after _ more

end Location

variable {source before : Bytes} {ts : List Token} {stop : Stop}

theorem Lexes.le_stop (h : Lexes source before ts stop) :
    .after .start before ≤ stop.loc ∧ ∀ t ∈ ts, t.loc ≤ stop.loc := by
  induction h with
  | eof whole =>
    refine ⟨?_, forall_mem_nil _⟩
    subst whole
    exact Location.after_le_append _ _ _
  | error =>
    refine ⟨?_, forall_mem_nil _⟩
    rw [append_assoc]
    exact Location.after_le_append _ _ _
  | token _ _ _ _ ih =>
    obtain ⟨behind, later⟩ := ih
    have here := Location.le_trans (Location.after_le_append _ _ _) behind
    exact ⟨Location.le_trans (Location.after_le_append _ _ _) here, forall_mem_cons.2 ⟨here, later⟩⟩

theorem Lexes.kind_ne (h : Lexes source before ts stop) : ∀ t ∈ ts, t.kind ≠ .eof := by
  induction h with
  | eof => exact forall_mem_nil _
  | error => exact forall_mem_nil _
  | token _ _ spelled _ ih => exact forall_mem_cons.2 ⟨spelled.kind_ne, ih⟩

/-! ## Programs -/

theorem Tokens.read_of_program {ts : Tokens} {p : Program}
    (noEnd : ∀ t ∈ ts.ahead, t.kind ≠ .eof) (h : ts.program = .ok p) : ∃ loc, ts.stop = .eof loc ∧
      Grammar.topLevels (Grammar.enough ts.ahead.length) [] ts = .ok (p, ⟨[], .eof loc⟩) := by
  rcases ts.program_cases with ⟨e, _, failed⟩ | ⟨guarded, made⟩
  · rw [h] at failed
    cases failed
  · rw [made] at h
    cases read : Grammar.topLevels (Grammar.enough ts.ahead.length) [] ts with
    | error e =>
      rw [read] at h
      cases h
    | ok result =>
      rw [read] at h
      obtain ⟨found, left⟩ := result
      obtain ⟨loc, stop, rfl⟩ := Grammar.topLevels_left guarded noEnd read
      obtain rfl : found = p := Except.ok.inj h
      exact ⟨loc, stop, rfl⟩

theorem Tokens.stop_of_program {ts : Tokens} {e : LexError}
    (h : ts.program = .error (.lex e)) : ts.stop = .error e := by
  rcases ts.program_cases with ⟨e', rfl, failed⟩ | ⟨guarded, made⟩
  · rw [h] at failed
    cases failed
    rfl
  · rw [made] at h
    have ends := (Grammar.makes_program (Grammar.enough ts.ahead.length)).ends ts trivial
    generalize Grammar.topLevels (Grammar.enough ts.ahead.length) [] ts = result at ends h
    cases ends with
    | ok => cases h
    | form => cases h
    | lex stop =>
      cases h
      exact stop

theorem Program.form_le_stop {fault : Grammar.Fault} {loc : Location}
    (h : Program.parse source = .error (.form fault loc)) : loc ≤ (Tokens.ofSource source).stop.loc := by
  have failed : compile source = .error (.form fault loc) := by
    unfold compile
    rw [h]
    rfl
  rcases mem_append.1 (compile_places failed rfl) with ahead | stop
  · obtain ⟨t, mem, rfl⟩ := mem_map.1 ahead
    exact (Tokens.lexes source).le_stop.2 t mem
  · rw [mem_singleton.1 stop]
    exact Location.le_refl _

/-- A program that is read is read from all of its tokens, a lexical error of reading is that of the tokens,
and an error of form is found no later than a lexical error. -/
theorem Program.parse_agrees_tokenize (source : Bytes) :
    (∀ p, Program.parse source = .ok p → ∃ tokens loc, tokenize source = .ok (tokens ++ [⟨.eof, loc, []⟩]) ∧
      Grammar.topLevels (Grammar.enough tokens.length) [] ⟨tokens, .eof loc⟩ = .ok (p, ⟨[], .eof loc⟩)) ∧
    (∀ e, Program.parse source = .error (.lex e) → tokenize source = .error e) ∧
    ∀ e fault loc, tokenize source = .error e → Program.parse source = .error (.form fault loc) → loc ≤ e.loc := by
  refine ⟨fun p parsed => ?_, fun e failed => ?_, fun e fault loc unread failed => ?_⟩
  · rw [Program.parse_eq] at parsed
    obtain ⟨loc, stop, read⟩ := Tokens.read_of_program (Tokens.lexes source).kind_ne parsed
    obtain ⟨tokens, tokens_eq⟩ : ∃ tokens, Tokens.ofSource source = ⟨tokens, .eof loc⟩ := ⟨_, by rw [← stop]⟩
    rw [tokens_eq] at read
    refine ⟨tokens, loc, ?_, read⟩
    unfold tokenize
    rw [tokens_eq]
  · rw [Program.parse_eq] at failed
    exact tokenize_eq_error.2 ⟨_, by rw [← Tokens.stop_of_program failed]⟩
  · obtain ⟨tokens, tokens_eq⟩ := tokenize_eq_error.1 unread
    have before := Program.form_le_stop failed
    rwa [tokens_eq] at before

theorem error_of_map {ε α β : Type} {x : Except ε α} {f : α → β} {e : ε} (h : x.map f = .error e) : x = .error e := by
  cases x with
  | error e' => exact congrArg _ (Except.error.inj h)
  | ok a => cases h

/-- A program, a lexical error behind the first token of one, and an error of form in front of a lexical
error. -/
theorem Program.parse_agrees_tokenize_marks :
    (∃ p tokens loc, Program.parse (ascii "int x;") = .ok p ∧
      tokenize (ascii "int x;") = .ok (tokens ++ [⟨.eof, loc, []⟩]) ∧
      Grammar.topLevels (Grammar.enough tokens.length) [] ⟨tokens, .eof loc⟩ = .ok (p, ⟨[], .eof loc⟩)) ∧
    (∃ e, Program.parse (ascii "int @") = .error (.lex e) ∧ tokenize (ascii "int @") = .error e) ∧
    ∃ e fault loc, tokenize (ascii ") @") = .error e ∧ Program.parse (ascii ") @") = .error (.form fault loc) ∧
      loc ≤ e.loc := by
  refine ⟨?_, ?_, ?_⟩
  · have computed : (Program.parse (ascii "int x;")).toOption.any (fun _ => true) = true := by decide +kernel
    obtain ⟨p, parsed, _⟩ := ok_of_any computed
    obtain ⟨tokens, loc, read⟩ := (parse_agrees_tokenize (ascii "int x;")).1 p parsed
    exact ⟨p, tokens, loc, parsed, read⟩
  · have failed : Program.parse (ascii "int @") = .error (.lex ⟨.unexpected 0x40, ⟨1, 5⟩⟩) :=
      error_of_map (f := fun _ => ()) (by decide +kernel)
    exact ⟨_, failed, (parse_agrees_tokenize (ascii "int @")).2.1 _ failed⟩
  · have unread : tokenize (ascii ") @") = .error ⟨.unexpected 0x40, ⟨1, 3⟩⟩ := by decide +kernel
    have failed : Program.parse (ascii ") @") = .error (.form (.expected .declaration (.punct .rParen)) ⟨1, 1⟩) :=
      error_of_map (f := fun _ => ()) (by decide +kernel)
    exact ⟨_, _, _, unread, failed, (parse_agrees_tokenize (ascii ") @")).2.2 _ _ _ unread failed⟩

/-! ## Reading a program comes to an end

Readers call each other with less and less depth, and a reader that is left without any gives up.  That never
happens to the reader of a program.  Where a statement, a declaration, an expression or the name of a type is read,
fewer tokens are left, and so they are where a loop goes round once more.  Between two tokens that are passed the
calls are nested at most eight deep: the depth that is needed is bounded by eight for each token. -/

namespace Grammar

variable {α σ : Type}

/-- Wherever it succeeds, fewer tokens are left. -/
def Eats (m : Reader α) : Prop :=
  ∀ ts a left, ts.Worded → m ts = .ok (a, left) → left.ahead.length < ts.ahead.length

theorem Makes.eats {β : Type} {K : Known CType} {d r : Nat} {view : α → β} {M : α → List CType} {Q : β → Prop}
    {m : Reader α} {m' : Reader β} (h : Makes (.moving id) K Any true d r view M Q m m') : Eats m := by
  intro ts a left _ run
  have ends := h.ends ts trivial
  rw [run] at ends
  cases ends with
  | ok _ _ _ fewer => exact fewer

/-! ### Loops -/

/-- A loop does at each depth what `turn` does: it goes on with `again`, or it ends with `stop`.  One more turn, that
is one that would fail in place of ending, leaves fewer tokens. -/
structure Loops (loop : Nat → σ → Reader α)
    (turn : {γ : Type} → (again : σ → Reader γ) → (stop : α → Reader γ) → Nat → σ → Reader γ) : Prop where
  turns : ∀ depth s, loop (depth + 1) s = turn (loop depth) pure depth s
  eats : ∀ depth s wanted, Eats (turn pure (fun _ => failExpected wanted) depth s)

theorem Loops.of {loop : Nat → σ → Reader α} {turn : {γ : Type} → (σ → Reader γ) → (α → Reader γ) → Nat → σ → Reader γ}
    {r : Nat} {view : σ → σ} (turns : ∀ depth s, loop (depth + 1) s = turn (loop depth) pure depth s)
    (types : σ → List CType) (built : ∀ depth s wanted, Built (.moving id) ⟨True, types s⟩ true depth r view types
      (turn pure (fun _ => failExpected wanted) depth s) (turn pure (fun _ => failExpected wanted) depth (view s))) :
    Loops loop turn := ⟨turns, fun depth s wanted => (built depth s wanted).eats⟩

theorem loops_statements : Loops statements statementTurn :=
  .of (r := 6) (fun _ _ => rfl) (List.flatMap Stmt.mentions) fun depth _ wanted => makes_statementTurn
    (makes_statement depth _).any (fun _ => built_pure rfl (List.Subset.refl _)) (built_failExpected wanted)

theorem loops_parameterList : Loops parameterList parameterTurn :=
  .of (fun _ _ => rfl) Parameters.types fun depth _ wanted => makes_parameterTurn (T := fun _ => True)
    ⟨trivial, fun _ _ _ _ _ => trivial, fun _ _ _ => trivial⟩ ⟨List.Subset.refl _, fun _ => trivial⟩
    (built_parameter depth) (fun _ _ more => built_pure rfl more.listed) fun _ _ _ => built_failExpected wanted

theorem loops_arrayLengths : Loops arrayLengths lengthTurn :=
  .of (r := 0) (fun _ _ => rfl) (fun _ => []) fun depth _ wanted => built_lengthTurn
    (fun _ => (built_conditional depth _).any) (fun _ _ => built_plain) (built_failExpected wanted)

theorem loops_suffixes : Loops suffixes suffixTurn :=
  .of (r := 0) (fun _ _ => rfl) Expr.mentions fun depth _ wanted => built_suffixTurn (List.Subset.refl _)
    (fun _ => (built_arguments depth _).any) (fun _ => (built_expression depth _).any) (fun _ _ => built_pure rfl)
    fun _ => built_failExpected wanted

/-! ### Programs -/

theorem topLevels_deep_enough (ts : Tokens) (depth : Nat) (deep : 8 * (ts.ahead.length + 1) ≤ depth) (loc : Location) :
    topLevels depth [] ts ≠ .error (.form .tooDeep loc) := by
  intro failed
  have ends := (makes_program depth).ends ts trivial
  rw [failed] at ends
  cases ends with
  | form short =>
    have bound := short rfl
    omega

/-- Readers pass tokens wherever they succeed, and loops wherever they go round.  A depth of eight for each token,
with the end of the source as one of them, is never used up, and a program's reader is given more. -/
theorem parse_progresses :
    (∀ depth, Eats (statement depth) ∧ Eats (declaration depth) ∧ Eats (expression depth) ∧ Eats (unary depth) ∧
      Eats (typeName depth)) ∧
    Loops statements statementTurn ∧ Loops parameterList parameterTurn ∧ Loops arrayLengths lengthTurn ∧
    Loops suffixes suffixTurn ∧
    ∀ source loc, Program.parse source ≠ .error (.form .tooDeep loc) ∧
      ∀ depth, 8 * ((Tokens.ofSource source).ahead.length + 1) ≤ depth →
        topLevels depth [] (Tokens.ofSource source) ≠ .error (.form .tooDeep loc) := by
  refine ⟨fun depth => ⟨(makes_statement depth ⟨True, []⟩).eats, (makes_declaration depth ⟨True, []⟩).eats,
    (built_expression depth ⟨True, []⟩).eats, (built_unary depth ⟨True, []⟩).eats,
    (built_typeName depth ⟨True, []⟩).eats⟩, loops_statements, loops_parameterList, loops_arrayLengths,
    loops_suffixes, fun source loc => ?_⟩
  have enough := fun depth deep => topLevels_deep_enough (Tokens.ofSource source) depth deep loc
  refine ⟨fun failed => ?_, enough⟩
  rw [Program.parse_eq] at failed
  rcases (Tokens.ofSource source).program_cases with ⟨e, _, lexical⟩ | ⟨_, made⟩
  · rw [failed] at lexical
    cases lexical
  · rw [made] at failed
    refine enough _ ?_ (error_of_map failed)
    unfold Grammar.enough
    omega

/-- An expression is read from the front of a statement, whose tokens are too few for a program. -/
theorem parse_progresses_index : ∃ e left, expression 48 (Tokens.ofSource (ascii "a[0];")) = .ok (e, left) ∧
    left.ahead.length < (Tokens.ofSource (ascii "a[0];")).ahead.length ∧
    topLevels 48 [] (Tokens.ofSource (ascii "a[0];")) ≠ .error (.form .tooDeep .start) := by
  have computed : (expression 48 (Tokens.ofSource (ascii "a[0];"))).toOption.any (fun _ => true) = true := by
    decide +kernel
  obtain ⟨⟨e, left⟩, read, -⟩ := ok_of_any computed
  have progress := parse_progresses
  refine ⟨e, left, read, (progress.1 48).2.2.1 _ e left (Tokens.ofSource_worded _) read, ?_⟩
  exact (progress.2.2.2.2.2 _ .start).2 48 (by decide +kernel)

end Grammar

end Cof
