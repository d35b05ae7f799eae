/-
  What is written is read back.

  `Reads level kinds e` says that wherever the grammar looks for an expression of a level or a looser
  one, tokens of these kinds are read as `e` (up to positions), if what follows can not go on with it.
  It is closed downwards in the level by the rules of the grammar: an operand is a binary expression, a
  binary expression is a conditional one, and so on.  From there
-/
import Cof.Grammar.Program
import Cof.Proofs.Rendered
import Mathlib.Logic.Basic

namespace Cof

open List

/-! ## Tokens in front of others -/

namespace Tokens

def cons (t : Token) (ts : Tokens) : Tokens := ⟨t :: ts.ahead, ts.stop⟩

def Whole (ts : Tokens) : Prop := ts.ahead = [] → ∃ loc, ts.stop = .eof loc

@[simp] theorem next_cons (t : Token) (ts : Tokens) : (cons t ts).next = t := rfl

theorem whole_cons (t : Token) (ts : Tokens) : (cons t ts).Whole := nofun

end Tokens

namespace Grammar

open TokenKind (continues_mono)

/-- The input consists of tokens of these kinds and then the rest. -/
def Spells : List TokenKind → Tokens → Tokens → Prop
  | [], input, rest => input = rest ∧ rest.Whole
  | k :: ks, input, rest => ∃ loc raw mid, input = .cons ⟨k, loc, raw⟩ mid ∧ Spells ks mid rest

variable {kinds : List TokenKind} {input rest : Tokens} {args : List Expr} {type : CType} {depth : Nat}

theorem Spells.whole (h : Spells kinds input rest) : input.Whole := by
  cases kinds with
  | nil => exact h.1 ▸ h.2
  | cons k ks =>
    obtain ⟨loc, raw, mid, rfl, -⟩ := h
    exact Tokens.whole_cons _ mid

theorem spells_append {more : List TokenKind} :
    Spells (kinds ++ more) input rest ↔ ∃ mid, Spells kinds input mid ∧ Spells more mid rest := by
  induction kinds generalizing input with
  | nil =>
    constructor
    · intro h
      exact ⟨input, ⟨rfl, h.whole⟩, h⟩
    · rintro ⟨mid, ⟨rfl, -⟩, h⟩
      exact h
  | cons k ks ih =>
    constructor
    · rintro ⟨loc, raw, ts, rfl, h⟩
      obtain ⟨mid, first, second⟩ := ih.1 h
      exact ⟨mid, ⟨loc, raw, ts, rfl, first⟩, second⟩
    · rintro ⟨mid, ⟨loc, raw, ts, rfl, first⟩, second⟩
      exact ⟨loc, raw, ts, rfl, ih.2 ⟨mid, first, second⟩⟩

theorem spells_kinds (tokens : List Token) (whole : rest.Whole) :
    Spells (tokens.map (·.kind)) ⟨tokens ++ rest.ahead, rest.stop⟩ rest := by
  induction tokens with
  | nil => exact ⟨rfl, whole⟩
  | cons t ts ih => exact ⟨t.loc, t.raw, ⟨ts ++ rest.ahead, rest.stop⟩, rfl, ih⟩

/-! ## Runs of readers -/

section Runs

variable {α β : Type} {loc : Location} {raw : Bytes} {ts : Tokens}

theorem run_bind {m : Reader α} {f : α → Reader β} {ts' : Tokens} {a : α} (h : m ts = .ok (a, ts')) :
    (m >>= f) ts = f a ts' := by
  show (m ts >>= fun p => f p.1 p.2) = _
  rw [h]
  rfl

theorem run_then {m : Reader Bool} {yes no : Reader β} {ts' : Tokens} (h : m ts = .ok (true, ts')) :
    (do if ← m then yes else no) ts = yes ts' := run_bind h

theorem run_else {m : Reader Bool} {yes no : Reader β} {ts' : Tokens} (h : m ts = .ok (false, ts')) :
    (do if ← m then yes else no) ts = no ts' := run_bind h

theorem run_peek : peek ts = .ok (ts.next, ts) := rfl

variable {t : Token} {kind : TokenKind} {place : String}

theorem run_peek_cons : peek (.cons t ts) = .ok (t, .cons t ts) := rfl

theorem run_peekKind : peekKind ts = .ok (ts.next.kind, ts) := rfl

theorem run_advance (whole : ts.Whole) : advance (.cons t ts) = .ok (t, ts) := by
  obtain ⟨ahead, stop⟩ := ts
  cases ahead with
  | nil =>
    obtain ⟨loc, rfl⟩ := whole rfl
    rfl
  | cons _ _ => rfl

theorem run_comes : comes kind (.cons ⟨kind, loc, raw⟩ ts) = .ok (true, .cons ⟨kind, loc, raw⟩ ts) := by
  show Except.ok (decide (kind = kind), _) = _
  rw [decide_eq_true rfl]

theorem run_comes_other (other : ts.next.kind ≠ kind) : comes kind ts = .ok (false, ts) := by
  show Except.ok (decide (ts.next.kind = kind), ts) = _
  rw [decide_eq_false other]

theorem run_accept (whole : ts.Whole) : accept kind (.cons ⟨kind, loc, raw⟩ ts) = .ok (true, ts) := by
  rw [accept, run_then run_comes, run_bind (run_advance whole)]
  rfl

theorem run_accept_other (other : ts.next.kind ≠ kind) : accept kind ts = .ok (false, ts) := by
  rw [accept, run_else (run_comes_other other)]
  rfl

theorem run_accept_cons_other {k : TokenKind} (other : k ≠ kind) :
    accept kind (.cons ⟨k, loc, raw⟩ ts) = .ok (false, .cons ⟨k, loc, raw⟩ ts) :=
  run_accept_other other

theorem run_expect {p : Punct} (whole : ts.Whole) : expect p place (.cons ⟨.punct p, loc, raw⟩ ts) = .ok ((), ts) := by
  rw [expect, run_then (run_accept whole)]
  rfl

theorem run_expectName {name : Name} (whole : ts.Whole) :
    expectName place (.cons ⟨.ident name, loc, raw⟩ ts) = .ok (name, ts) := by
  show (advance >>= fun _ => pure name) _ = _
  rw [run_bind (run_advance whole)]
  rfl

end Runs

/-! ## What can come first and what can follow -/

/-- A token that an expression can start with: no closing bracket, and no word of a type name. -/
def Opens (k : TokenKind) : Prop := k.opens = true

theorem Opens.ne {k k' : TokenKind} (h : Opens k) (other : k'.opens = false) : k ≠ k' := by
  rintro rfl
  rw [Opens, other] at h
  cases h

theorem run_atDeclaration {ts : Tokens} (h : Opens ts.next.kind) : atDeclaration ts = .ok (false, ts) := by
  rw [atDeclaration, run_bind run_peekKind]
  cases k : ts.next.kind with
  | keyword w =>
    rw [k] at h
    obtain rfl := of_decide_eq_true h
    rfl
  | _ => rfl

theorem run_atTypeName {ts : Tokens} (h : Opens ts.next.kind) : atTypeName ts = .ok (false, ts) := by
  rw [atTypeName, run_bind run_peekKind]
  cases k : ts.next.kind with
  | keyword w =>
    have sizeof : Opens (.keyword w) := k ▸ h
    obtain rfl := of_decide_eq_true sizeof
    exact run_atDeclaration h
  | _ => exact run_atDeclaration h

def OpensAll (kinds : List TokenKind) : Prop := ∃ k ks, kinds = k :: ks ∧ Opens k

theorem OpensAll.append (h : OpensAll kinds) (more : List TokenKind) : OpensAll (kinds ++ more) := by
  obtain ⟨k, ks, rfl, opens⟩ := h
  exact ⟨k, ks ++ more, rfl, opens⟩

theorem OpensAll.length_pos (h : OpensAll kinds) : 0 < kinds.length := by
  obtain ⟨k, ks, rfl, -⟩ := h
  exact Nat.succ_pos _

theorem OpensAll.next {kinds : List TokenKind} {input rest : Tokens} (h : OpensAll kinds)
    (spells : Spells kinds input rest) : Opens input.next.kind := by
  obtain ⟨k, ks, rfl, opens⟩ := h
  obtain ⟨loc, raw, mid, rfl, -⟩ := spells
  exact opens

section Following

variable {n depth least : Nat} {e : Expr} {ts : Tokens}

variable {k : TokenKind} {input : Tokens}

theorem lt_of_binaryOp? {op : BinOp} {s : Nat} (h : k.continues n = false)
    (found : binaryOp? k = some (op, s)) : s < n := by
  cases k with
  | punct p =>
    cases p <;> cases found <;> exact Nat.lt_of_not_le (of_decide_eq_false h)
  | _ => cases found

theorem run_suffixes_stop (h : ts.next.kind.continues n = false) : suffixes (depth + 1) e ts = .ok (e, ts) := by
  rw [suffixes, run_bind run_peek]
  revert h
  cases ts.next.kind with
  | punct p => cases p <;> intro h <;> first | rfl | cases h
  | _ => intro _; rfl

theorem run_binaryRest_stop (h : ∀ op s, binaryOp? ts.next.kind = some (op, s) → s < least) :
    binaryRest (depth + 1) least e ts = .ok (e, ts) := by
  rw [binaryRest, run_bind run_peekKind]
  cases found : binaryOp? ts.next.kind with
  | none => rfl
  | some op =>
    show (if op.2 < least then pure e else _ : Reader Expr) ts = _
    rw [if_pos (h op.1 op.2 found)]
    rfl

theorem assignOp?_eq_none (h : k.continues 0 = false) : assignOp? k = none := by
  cases k with
  | punct p => cases p <;> first | rfl | cases h
  | _ => rfl

theorem ne_string (h : k.continues n = false) (s : Bytes) : k ≠ .string s := by
  rintro rfl
  cases h

theorem run_expression (run : conditional depth input = .ok (e, ts))
    (h : ts.next.kind.continues 0 = false) : expression (depth + 1) input = .ok (e, ts) := by
  rw [expression, run_bind run, run_bind run_peekKind, assignOp?_eq_none h]
  rfl

theorem run_conditional (run : binary depth loosest input = .ok (e, ts))
    (h : ts.next.kind.continues 1 = false) : conditional (depth + 1) input = .ok (e, ts) := by
  have other : ts.next.kind ≠ .punct .question := by
    intro k
    rw [k] at h
    cases h
  rw [conditional, run_bind run, run_else (run_comes_other other)]
  rfl

end Following

/-! ## Reading at a level -/

def Same (e' e : Expr) : Prop := e'.unlocated = e.unlocated

section Levels

variable (kinds : List TokenKind) (e : Expr)

/-- A reader reads these kinds as `e`, where nothing follows that goes on at the level.  It needs a depth
of eight for each token and some more. -/
def ReadsBy (m : Nat → Reader Expr) (more level : Nat) : Prop :=
  ∀ depth input rest, Spells kinds input rest → 8 * kinds.length + more ≤ depth →
    rest.next.kind.continues level = false → ∃ e', Same e' e ∧ m depth input = .ok (e', rest)

/-- Read as operands joined by operators of the level or above.  Looser operators may follow, so what is
said is with which left operand reading goes on. -/
def ReadsBinary (level : Nat) : Prop :=
  ∀ least depth input rest, least < level → Spells kinds input rest → 8 * kinds.length + 1 ≤ depth →
    rest.next.kind.continues level = false →
      ∃ depth' e', depth ≤ depth' + kinds.length ∧ Same e' e ∧
        binary depth least input = binaryRest depth' least e' rest

/-- Read an operand, by itself or under a `sizeof` that stands at a position. -/
def operand : Option Location → Nat → Reader Expr
  | none, depth => unary depth
  | some loc, depth => sizeof depth loc

def overOperand : Option Location → Expr → Expr
  | none, e => e
  | some loc, e => .sizeofExpr loc e

/-- Read as an operand that operators may follow.  Under `sizeof` it is taken with them. -/
def ReadsPrimary : Prop :=
  ∀ outer depth input rest, Spells kinds input rest → 8 * kinds.length ≤ depth →
    (∀ s, rest.next.kind ≠ .string s) →
      ∃ depth' e', depth ≤ depth' + kinds.length + 1 ∧ Same e' e ∧
        ∀ r out, suffixes depth' e' rest = .ok (r, out) → operand outer depth input = .ok (overOperand outer r, out)

/-- Read as what is of a level or of any looser one. -/
structure Reads (level : Nat) : Prop where
  opens : OpensAll kinds
  expression : ReadsBy kinds e expression 3 0
  conditional : 1 ≤ level → ReadsBy kinds e conditional 2 1
  binary : ∀ n, 2 ≤ n → n ≤ 12 → n ≤ level → ReadsBinary kinds e n
  unary : 12 ≤ level → ReadsBy kinds e unary 0 12
  primary : 13 ≤ level → ReadsPrimary kinds e

end Levels

section Chain

variable {kinds : List TokenKind} {e : Expr} {m n : Nat}

theorem Reads.mono (h : Reads kinds e n) (le : m ≤ n) : Reads kinds e m where
  opens := h.opens
  expression := h.expression
  conditional := fun l => h.conditional (by omega)
  binary := fun n' low high l => h.binary n' low high (by omega)
  unary := fun l => h.unary (by omega)
  primary := fun l => h.primary (by omega)

theorem reads_of_expression (opens : OpensAll kinds) (h : ReadsBy kinds e expression 3 0) : Reads kinds e 0 := by
  refine ⟨opens, h, ?_, ?_, ?_, ?_⟩ <;> intros <;> omega

theorem reads_of_conditional (opens : OpensAll kinds) (h : ReadsBy kinds e conditional 2 1) : Reads kinds e 1 := by
  have asExpression : ReadsBy kinds e expression 3 0 := by
    intro depth input rest spells deep stops
    obtain _ | d := depth
    · omega
    obtain ⟨e', same, run⟩ := h d input rest spells (by omega) (continues_mono (Nat.zero_le 1) stops)
    exact ⟨e', same, run_expression run stops⟩
  refine ⟨opens, asExpression, fun _ => h, ?_, ?_, ?_⟩ <;> intros <;> omega

theorem reads_of_binary (opens : OpensAll kinds) (low : 2 ≤ n) (high : n < 12) (h : ReadsBinary kinds e n) :
    Reads kinds e n := by
  have asBinary : ∀ m, m ≤ n → ReadsBinary kinds e m := by
    intro m le least depth input rest lt spells deep stops
    exact h least depth input rest (by omega) spells deep (continues_mono le stops)
  have asConditional : ReadsBy kinds e conditional 2 1 := by
    intro depth input rest spells deep stops
    obtain _ | d := depth
    · omega
    obtain ⟨d', e', deep', same, run⟩ :=
      h loosest d input rest (show 1 < n by omega) spells (by omega) (continues_mono (by omega) stops)
    obtain ⟨d'', rfl⟩ := Nat.exists_eq_add_of_le' (show 1 ≤ d' by omega)
    have stop : binaryRest (d'' + 1) loosest e' rest = .ok (e', rest) :=
      run_binaryRest_stop fun _ _ => lt_of_binaryOp? stops
    exact ⟨e', same, run_conditional (run.trans stop) stops⟩
  have loose := reads_of_conditional opens asConditional
  refine ⟨opens, loose.expression, fun _ => asConditional, fun m _ _ le => asBinary m le, ?_, ?_⟩ <;> intros <;> omega

theorem reads_of_unary (opens : OpensAll kinds) (h : ReadsBy kinds e unary 0 12) : Reads kinds e 12 := by
  have asBinary : ∀ m, m ≤ 12 → ReadsBinary kinds e m := by
    intro m le least depth input rest lt spells deep stops
    obtain _ | d := depth
    · omega
    obtain ⟨e', same, run⟩ := h d input rest spells (by omega) (continues_mono le stops)
    refine ⟨d, e', ?_, same, ?_⟩
    · have := opens.length_pos
      omega
    · rw [binary, run_bind run]
  have loose := reads_of_binary opens (by omega) (by omega) (asBinary 2 (by omega))
  exact ⟨opens, loose.expression, fun _ => loose.conditional (by omega), fun m _ le _ => asBinary m le,
    fun _ => h, fun l => absurd l (by omega)⟩

theorem ReadsPrimary.alone (h : ReadsPrimary kinds e) (opens : OpensAll kinds) (outer : Option Location)
    {depth : Nat} {input rest : Tokens} (spells : Spells kinds input rest) (deep : 8 * kinds.length ≤ depth)
    (stops : rest.next.kind.continues n = false) :
    ∃ e', Same e' e ∧ operand outer depth input = .ok (overOperand outer e', rest) := by
  obtain ⟨d, e', deep', same, run⟩ := h outer depth input rest spells deep (ne_string stops)
  have := opens.length_pos
  obtain _ | d := d
  · omega
  exact ⟨e', same, run e' rest (run_suffixes_stop stops)⟩

theorem reads_of_primary (opens : OpensAll kinds) (h : ReadsPrimary kinds e) : Reads kinds e 13 := by
  have asUnary : ReadsBy kinds e unary 0 12 := fun depth input rest spells deep stops =>
    h.alone opens none spells deep stops
  have loose := reads_of_unary opens asUnary
  exact ⟨opens, loose.expression, fun _ => loose.conditional (by omega),
    fun m low high _ => loose.binary m low high (by omega), fun _ => asUnary, fun _ => h⟩

end Chain

/-! ## Operands -/

section Operands

variable {kinds : List TokenKind} {e : Expr}

variable {depth : Nat} {loc : Location} {k : TokenKind} {p : Punct}

theorem run_unary_lParen {raw : Bytes} {ts : Tokens} (whole : ts.Whole) :
    unary (depth + 1) (.cons ⟨.punct .lParen, loc, raw⟩ ts) = (do
      if ← atTypeName then
        let type ← typeName depth
        expect .rParen "after cast type"
        return .cast loc type (← unary depth)
      else
        let inner ← expression depth
        expect .rParen "after expression"
        suffixes depth inner : Reader Expr) ts := by
  have noSizeof : accept (.keyword .sizeof) (.cons ⟨.punct .lParen, loc, raw⟩ ts) =
      .ok (false, .cons ⟨.punct .lParen, loc, raw⟩ ts) := run_accept_other nofun
  rw [unary, run_bind run_peek_cons]
  show (accept (.keyword .sizeof) >>= _) _ = _
  rw [run_else noSizeof, run_then (run_accept whole)]

theorem readsPrimary_parenthesized (opens : OpensAll kinds) (h : ReadsBy kinds e expression 3 0) :
    ReadsPrimary (.punct .lParen :: (kinds ++ [.punct .rParen])) e := by
  rintro outer depth _ _ ⟨loc, raw, mid, rfl, spells⟩ deep -
  obtain ⟨_, first, loc', raw', rest, rfl, rfl, whole⟩ := spells_append.1 spells
  simp only [length_cons, length_append, length_nil] at deep
  obtain _ | d := depth
  · omega
  obtain ⟨e', same, run⟩ := h d mid _ first (by omega) rfl
  refine ⟨d, e', by simp only [length_cons]; omega, same, fun r out behind => ?_⟩
  have noType : atTypeName mid = .ok (false, mid) := run_atTypeName (opens.next first)
  cases outer with
  | none =>
    show unary (d + 1) _ = _
    rw [run_unary_lParen first.whole, run_else noType, run_bind run,
      run_bind (run_expect whole)]
    exact behind
  | some loc =>
    show sizeof (d + 1) loc _ = _
    rw [sizeof, run_then (run_accept first.whole), run_else noType,
      run_bind run, run_bind (run_expect whole), run_bind behind]
    rfl

theorem run_sizeof {input rest : Tokens}
    (other : input.next.kind ≠ .punct .lParen) (run : unary depth input = .ok (e, rest)) :
    sizeof (depth + 1) loc input = .ok (.sizeofExpr loc e, rest) := by
  rw [sizeof, run_else (run_accept_other other), run_bind run]
  rfl

theorem readsPrimary_single (front : frontOp? (τ := CType) k = none) (word : ∀ w, k ≠ .keyword w) (mark : ∀ p, k ≠ .punct p)
    (h : ∀ depth loc raw rest, Tokens.Whole rest → (∀ s, rest.next.kind ≠ .string s) → 2 ≤ depth →
      ∃ e', Same e' e ∧ primary depth (.cons ⟨k, loc, raw⟩ rest) = .ok (e', rest)) : ReadsPrimary [k] e := by
  rintro outer depth _ _ ⟨loc, raw, rest, rfl, rfl, whole⟩ deep stops
  have deep : 8 ≤ depth := deep
  have reads : ∀ d, 2 ≤ d → ∃ e', Same e' e ∧ ∀ r out, suffixes d e' rest = .ok (r, out) →
      unary (d + 1) (.cons ⟨k, loc, raw⟩ rest) = .ok (r, out) := by
    intro d deep
    obtain ⟨e', same, run⟩ := h d loc raw rest whole stops deep
    refine ⟨e', same, fun r out behind => ?_⟩
    rw [unary, run_bind run_peek_cons, front]
    show (accept (.keyword .sizeof) >>= _) _ = _
    rw [run_else (run_accept_cons_other (word _)),
      run_else (run_accept_cons_other (mark _)), run_bind run]
    exact behind
  cases outer with
  | none =>
    obtain _ | d := depth
    · omega
    obtain ⟨e', same, run⟩ := reads d (by omega)
    exact ⟨d, e', by simp only [length_singleton]; omega, same, run⟩
  | some loc =>
    obtain ⟨d, rfl⟩ := Nat.exists_eq_add_of_le' (show 2 ≤ depth by omega)
    obtain ⟨e', same, run⟩ := reads d (by omega)
    refine ⟨d, e', by simp only [length_singleton]; omega, same, fun r out behind => ?_⟩
    exact run_sizeof (mark _) (run r out behind)

theorem readsPrimary_literal (make : Location → Expr) (front : frontOp? (τ := CType) k = none)
    (word : ∀ w, k ≠ .keyword w) (mark : ∀ p, k ≠ .punct p) (same : ∀ loc, Same (make loc) e)
    (h : ∀ depth loc raw rest,
      primary depth (.cons ⟨k, loc, raw⟩ rest) = passing (make loc) (.cons ⟨k, loc, raw⟩ rest)) :
    ReadsPrimary [k] e := by
  refine readsPrimary_single front word mark fun depth loc raw rest whole _ _ => ⟨make loc, same loc, ?_⟩
  rw [h, passing, run_bind (run_advance whole)]
  rfl

theorem readsPrimary_int (loc : Location) (value : UInt64) : ReadsPrimary [.int value] (.int loc value) :=
  readsPrimary_literal (.int · value) rfl nofun nofun (fun _ => rfl) fun _ _ _ _ => rfl

theorem readsPrimary_float (loc : Location) (value : Binary64) : ReadsPrimary [.float value] (.float loc value) :=
  readsPrimary_literal (.float · value) rfl nofun nofun (fun _ => rfl) fun _ _ _ _ => rfl

theorem readsPrimary_char (loc : Location) (value : UInt8) : ReadsPrimary [.char value] (.char loc value) :=
  readsPrimary_literal (.char · value) rfl nofun nofun (fun _ => rfl) fun _ _ _ _ => rfl

theorem readsPrimary_ident (loc : Location) (name : Name) : ReadsPrimary [.ident name] (.ident loc name) :=
  readsPrimary_literal (.ident · name) rfl nofun nofun (fun _ => rfl) fun _ _ _ _ => rfl

theorem run_stringParts (values : List Bytes) (spells : Spells (values.map .string) input rest)
    (stops : ∀ s, rest.next.kind ≠ .string s) {depth : Nat} (deep : values.length < depth) (done : List Bytes) :
    stringParts depth done input = .ok (done.reverse.flatten ++ values.flatten, rest) := by
  induction values generalizing input depth done with
  | nil =>
    obtain ⟨rfl, -⟩ := spells
    obtain _ | d := depth
    · cases deep
    rw [stringParts, run_bind run_peekKind]
    cases k : input.next.kind with
    | string s => exact absurd k (stops s)
    | _ => simp only [flatten_nil, append_nil]; rfl
  | cons value values ih =>
    obtain ⟨loc, raw, mid, rfl, spells⟩ := spells
    obtain _ | d := depth
    · cases deep
    show (advance >>= fun _ => stringParts d (value :: done)) _ = _
    rw [run_bind (run_advance spells.whole), ih spells (Nat.lt_of_succ_lt_succ deep)]
    simp

theorem run_primary_strings (values : List Bytes) {value raw : Bytes} {loc : Location} {mid : Tokens}
    (spells : Spells (values.map .string) mid rest) (stops : ∀ s, rest.next.kind ≠ .string s)
    {depth : Nat} (deep : values.length + 1 < depth) :
    primary depth (.cons ⟨.string value, loc, raw⟩ mid) = .ok (.string loc (value :: values).flatten, rest) := by
  show (stringParts depth [] >>= fun s => pure (Expr.string loc s)) _ = _
  rw [run_bind (run_stringParts (value :: values) ⟨loc, raw, mid, rfl, spells⟩ stops deep [])]
  rfl

theorem readsPrimary_string (loc : Location) (value : Bytes) : ReadsPrimary [.string value] (.string loc value) := by
  refine readsPrimary_single rfl nofun nofun fun depth loc raw rest whole stops deep =>
    ⟨.string loc value, rfl, ?_⟩
  rw [run_primary_strings [] ⟨rfl, whole⟩ stops deep, flatten_singleton]

theorem ReadsPrimary.behind {more : List TokenKind} {whole : Expr} (h : ReadsPrimary kinds e)
    (step : ∀ depth e' input rest, Same e' e → Spells (.punct p :: more) input rest →
      8 * more.length + 6 ≤ depth → ∃ e'', Same e'' whole ∧ suffixes (depth + 1) e' input = suffixes depth e'' rest) :
    ReadsPrimary (kinds ++ .punct p :: more) whole := by
  intro outer depth input rest spells deep _
  obtain ⟨mid, first, second⟩ := spells_append.1 spells
  simp only [length_append, length_cons] at deep ⊢
  have noString : ∀ s, mid.next.kind ≠ .string s := by
    obtain ⟨loc, raw, _, rfl, -⟩ := second
    nofun
  obtain ⟨d, e', deep', same, run⟩ := h outer depth input mid first (by omega) noString
  obtain _ | d := d
  · omega
  obtain ⟨e'', same', goesOn⟩ := step d e' mid rest same second (by omega)
  refine ⟨d, e'', by omega, same', fun r out behind => run r out ?_⟩
  rw [goesOn]
  exact behind

theorem readsPrimary_step (loc : Location) (step : Step) (h : ReadsPrimary kinds e) :
    ReadsPrimary (kinds ++ [.punct step.mark]) (.step loc step .post e) := by
  refine h.behind ?_
  rintro depth e' _ _ same ⟨loc, raw, rest, rfl, rfl, whole⟩ _
  refine ⟨.step loc step .post e', congrArg (Expr.step .start step .post) same, ?_⟩
  rw [suffixes, run_bind run_peek_cons]
  cases step <;>
  · show (advance >>= _) _ = _
    rw [run_bind (run_advance whole)]

theorem readsPrimary_member (loc : Location) (arrow : Bool) (name : Name) (h : ReadsPrimary kinds e) :
    ReadsPrimary (kinds ++ [.punct (if arrow then .arrow else .dot), .ident name]) (.member loc e arrow name) := by
  refine h.behind ?_
  rintro depth e' _ _ same ⟨loc, raw, _, rfl, loc', raw', rest, rfl, rfl, whole⟩ _
  refine ⟨.member loc e' arrow name, congrArg (Expr.member .start · arrow name) same, ?_⟩
  rw [suffixes, run_bind run_peek_cons]
  cases arrow <;>
  · show (advance >>= _) _ = _
    rw [run_bind (run_advance (Tokens.whole_cons _ rest)), run_bind (run_expectName whole)]

theorem readsPrimary_index {inner : List TokenKind} {index : Expr} (loc : Location)
    (h : ReadsPrimary kinds e) (hi : ReadsBy inner index expression 3 0) :
    ReadsPrimary (kinds ++ .punct .lBracket :: (inner ++ [.punct .rBracket])) (.index loc e index) := by
  refine h.behind ?_
  rintro depth e' _ _ same ⟨loc, raw, mid, rfl, spells⟩ deep
  obtain ⟨_, first, loc', raw', rest, rfl, rfl, whole⟩ := spells_append.1 spells
  simp only [length_append, length_singleton] at deep
  obtain ⟨i, same', run⟩ := hi depth mid _ first (by omega) rfl
  refine ⟨.index loc e' i, congrArg₂ (Expr.index .start) same same', ?_⟩
  rw [suffixes, run_bind run_peek_cons]
  show (advance >>= _) _ = _
  rw [run_bind (run_advance first.whole), run_bind run, run_bind (run_expect whole)]

theorem readsBy_front {make : Location → Expr → Expr} {whole : Expr}
    (front : frontOp? (.punct p) = some make) (same : ∀ loc e', Same e' e → Same (make loc e') whole)
    (h : ReadsBy kinds e unary 0 12) : ReadsBy (.punct p :: kinds) whole unary 0 12 := by
  rintro depth _ rest ⟨loc, raw, mid, rfl, spells⟩ deep stops
  simp only [length_cons] at deep
  obtain _ | d := depth
  · omega
  obtain ⟨e', same', run⟩ := h d mid rest spells (by omega) stops
  refine ⟨make loc e', same loc e' same', ?_⟩
  rw [unary, run_bind run_peek_cons, front]
  show (advance >>= _) _ = _
  rw [run_bind (run_advance spells.whole), run_bind run]
  rfl

theorem readsBy_unary (loc : Location) (op : UnOp) (h : ReadsBy kinds e unary 0 12) :
    ReadsBy (.punct op.mark :: kinds) (.unary loc op e) unary 0 12 := by
  have front : frontOp? (.punct op.mark) = some fun loc (e : Expr) => .unary loc op e := by cases op <;> rfl
  exact readsBy_front front (fun _ _ => congrArg (Expr.unary .start op)) h

theorem readsBy_preStep (loc : Location) (step : Step) (h : ReadsBy kinds e unary 0 12) :
    ReadsBy (.punct step.mark :: kinds) (.step loc step .pre e) unary 0 12 := by
  have front : frontOp? (.punct step.mark) = some fun loc (e : Expr) => .step loc step .pre e := by
    cases step <;> rfl
  exact readsBy_front front (fun _ _ => congrArg (Expr.step .start step .pre)) h

end Operands

/-! ## Operators between operands -/

section Between

variable {first second third : List TokenKind} {left right cond yes no : Expr}

theorem binaryOp?_mark (op : BinOp) : binaryOp? (.punct op.mark) = some (op, op.level - 1) := by
  cases op <;> rfl

theorem continues_mark (op : BinOp) : TokenKind.continues op.level (.punct op.mark) = false := by
  cases op <;> rfl

theorem two_le_level (op : BinOp) : 2 ≤ op.level ∧ op.level < 12 := by
  cases op <;> decide

theorem readsBinary_binary (loc : Location) (op : BinOp) (hl : ReadsBinary first left op.level)
    (hr : ReadsBinary second right (op.level + 1)) :
    ReadsBinary (first ++ .punct op.mark :: second) (.binary loc op left right) op.level := by
  intro least depth input rest lt spells deep stops
  obtain ⟨_, spells, loc, raw, mid, rfl, spells'⟩ := spells_append.1 spells
  simp only [length_append, length_cons] at deep ⊢
  obtain ⟨d, l, deep', same, run⟩ := hl least depth input _ lt spells (by omega) (continues_mark op)
  obtain _ | d := d
  · omega
  -- The right operand takes all operators that are tighter, and only those.
  obtain ⟨d', r, deep'', same', run'⟩ :=
    hr op.level d mid rest (by omega) spells' (by omega) (continues_mono (by omega) stops)
  obtain ⟨d', rfl⟩ := Nat.exists_eq_add_of_le' (show 1 ≤ d' by omega)
  rw [run_binaryRest_stop fun _ _ => lt_of_binaryOp? stops] at run'
  refine ⟨d, .binary loc op l r, by omega, congrArg₂ (Expr.binary .start op) same same', ?_⟩
  rw [run, binaryRest, run_bind run_peekKind, Tokens.next_cons, binaryOp?_mark]
  show (if op.level - 1 < least then _ else _ : Reader Expr) _ = _
  rw [if_neg (by omega), run_bind (run_advance spells'.whole)]
  rw [show op.level - 1 + 1 = op.level by omega, run_bind run']

theorem readsBy_conditional (loc : Location) (hc : ReadsBinary first cond 2)
    (hy : ReadsBy second yes expression 3 0) (hn : ReadsBy third no conditional 2 1) :
    ReadsBy (first ++ .punct .question :: (second ++ .punct .colon :: third))
      (.conditional loc cond yes no) conditional 2 1 := by
  intro depth input rest spells deep stops
  obtain ⟨_, spells, loc, raw, mid, rfl, spells'⟩ := spells_append.1 spells
  obtain ⟨_, spells', loc', raw', mid', rfl, spells''⟩ := spells_append.1 spells'
  simp only [length_append, length_cons] at deep
  obtain _ | d := depth
  · omega
  obtain ⟨d', c, deep', sameCond, run⟩ := hc loosest d input _ (by decide) spells (by omega) rfl
  obtain ⟨d', rfl⟩ := Nat.exists_eq_add_of_le' (show 1 ≤ d' by omega)
  obtain ⟨y, sameYes, runYes⟩ := hy d mid _ spells' (by omega) rfl
  obtain ⟨n, sameNo, runNo⟩ := hn d mid' rest spells'' (by omega) stops
  refine ⟨.conditional loc c y n, ?_, ?_⟩
  · show Expr.conditional .start c.unlocated y.unlocated n.unlocated = _
    rw [sameCond, sameYes, sameNo]
    rfl
  · have stop : binaryRest (d' + 1) loosest c (.cons ⟨.punct .question, loc, raw⟩ mid) =
        .ok (c, .cons ⟨.punct .question, loc, raw⟩ mid) := run_binaryRest_stop nofun
    rw [conditional, run_bind run, run_then run_comes, run_bind (run_advance spells'.whole),
      run_bind runYes, run_bind (run_expect spells''.whole), run_bind runNo]
    rfl

variable {op : Option BinOp}

theorem assignOp?_assignMark (h : ∀ o ∈ op, o.assignMark?.isSome) :
    assignOp? (.punct (assignMark op)) = some op ∧ (TokenKind.punct (assignMark op)).continues 1 = false := by
  cases op with
  | none => exact ⟨rfl, rfl⟩
  | some o =>
    have marked := h o rfl
    cases o <;> first | exact ⟨rfl, rfl⟩ | cases marked

theorem readsBy_assign (loc : Location) (h : ∀ o ∈ op, o.assignMark?.isSome)
    (hl : ReadsBy first left conditional 2 1) (hr : ReadsBy second right expression 3 0) :
    ReadsBy (first ++ .punct (assignMark op) :: second) (.assign loc left op right) expression 3 0 := by
  intro depth input rest spells deep stops
  obtain ⟨_, spells, loc, raw, mid, rfl, spells'⟩ := spells_append.1 spells
  obtain ⟨found, free⟩ := assignOp?_assignMark h
  simp only [length_append, length_cons] at deep
  obtain _ | d := depth
  · omega
  obtain ⟨l, same, run⟩ := hl d input _ spells (by omega) free
  obtain ⟨r, same', run'⟩ := hr d mid rest spells' (by omega) stops
  refine ⟨.assign loc l op r, congrArg₂ (Expr.assign .start · op ·) same same', ?_⟩
  rw [expression, run_bind run, run_bind run_peekKind, Tokens.next_cons, found]
  show (advance >>= _) _ = _
  rw [run_bind (run_advance spells'.whole), run_bind run']
  rfl

end Between

/-! ## Arguments -/

@[simp] theorem place_zero (e : Expr) (kinds : List TokenKind) : e.place 0 kinds = kinds := if_neg (Nat.not_lt_zero _)

theorem run_argumentList (args : List Expr) (nonempty : args ≠ []) (h : ∀ arg ∈ args, Reads arg.tokens arg 0) :
    ∀ depth done input rest, Spells (argTokens args ++ [.punct .rParen]) input rest →
      8 * (argTokens args).length + 5 ≤ depth → ∃ args', unlocatedAll args' = unlocatedAll args ∧
        argumentList depth done input = .ok (done.reverse ++ args', rest) := by
  induction args with
  | nil => exact absurd rfl nonempty
  | cons arg args ih =>
    intro depth done input rest spells deep
    obtain _ | d := depth
    · omega
    have first := (h arg mem_cons_self).expression
    cases args with
    | nil =>
      rw [argTokens, place_zero] at spells deep
      obtain ⟨_, spells', loc, raw, rest, rfl, rfl, whole⟩ := spells_append.1 spells
      obtain ⟨arg', same, run⟩ := first d input _ spells' (by omega) rfl
      have noComma : accept (.punct .comma) (.cons ⟨.punct .rParen, loc, raw⟩ rest) =
          .ok (false, .cons ⟨.punct .rParen, loc, raw⟩ rest) := run_accept_other nofun
      refine ⟨[arg'], congrArg (· :: []) same, ?_⟩
      rw [argumentList, run_bind run, run_else noComma,
        run_bind (run_expect whole), reverse_cons]
      rfl
    | cons next args =>
      rw [argTokens, place_zero] at spells deep
      rw [append_assoc] at spells
      obtain ⟨_, spells, loc, raw, mid, rfl, spells'⟩ := spells_append.1 spells
      simp only [length_append, length_cons] at deep
      obtain ⟨arg', same, run⟩ := first d input _ spells (by omega) rfl
      obtain ⟨args', same', run'⟩ := ih (cons_ne_nil _ _) (fun a ha => h a (mem_cons_of_mem _ ha))
        d (arg' :: done) mid rest spells' (by omega)
      refine ⟨arg' :: args', congrArg₂ List.cons same same', ?_⟩
      rw [argumentList, run_bind run, run_then (run_accept spells'.whole), run',
        reverse_cons, append_assoc]
      rfl

theorem opensAll_argTokens (nonempty : args ≠ [])
    (h : ∀ arg ∈ args, Reads arg.tokens arg 0) : OpensAll (argTokens args) := by
  match args, nonempty with
  | [arg], _ =>
    exact (h arg mem_cons_self).opens
  | arg :: next :: args, _ =>
    exact (h arg mem_cons_self).opens.append _

theorem readsPrimary_call {e : Expr} (loc : Location)
    (h : ReadsPrimary kinds e) (ha : ∀ arg ∈ args, Reads arg.tokens arg 0) :
    ReadsPrimary (kinds ++ .punct .lParen :: (argTokens args ++ [.punct .rParen])) (.call loc e args) := by
  refine h.behind ?_
  rintro depth e' _ rest same ⟨loc, raw, mid, rfl, spells⟩ deep
  simp only [length_append, length_singleton] at deep
  obtain _ | d := depth
  · omega
  have reads : ∃ args', unlocatedAll args' = unlocatedAll args ∧ arguments (d + 1) mid = .ok (args', rest) := by
    by_cases empty : args = []
    · subst empty
      obtain ⟨loc', raw', _, rfl, rfl, whole⟩ := spells
      refine ⟨[], rfl, ?_⟩
      rw [arguments, run_then (run_accept whole)]
      rfl
    · obtain ⟨args', same, run⟩ := run_argumentList args empty ha d [] mid rest spells (by omega)
      refine ⟨args', same, ?_⟩
      have opens : Opens mid.next.kind := ((opensAll_argTokens empty ha).append _).next spells
      rw [arguments, run_else (run_accept_other (opens.ne rfl)), run]
      rfl
  obtain ⟨args', same', run⟩ := reads
  refine ⟨.call loc e' args', congrArg₂ (Expr.call .start) same same', ?_⟩
  rw [suffixes, run_bind run_peek_cons]
  show (advance >>= _) _ = _
  rw [run_bind (run_advance spells.whole), run_bind run]

/-! ## Type names -/

theorem named_words (h : type.Starred) (other : ∀ t, type ≠ .pointer t) :
    (∃ w ws, type.words = w :: ws) ∧ (∀ w ∈ type.words, typeWords.contains w) ∧
      baseType? type.words.reverse = some type := by
  cases type with
  | void => exact ⟨⟨_, _, rfl⟩, by decide, by decide⟩
  | integral w s => cases w <;> cases s <;> exact ⟨⟨_, _, rfl⟩, by decide, by decide⟩
  | floating w => cases w <;> exact ⟨⟨_, _, rfl⟩, by decide, by decide⟩
  | pointer t => exact absurd rfl (other t)
  | array _ _ => cases h
  | function _ _ _ => cases h

theorem run_specifierWords {ws : List Keyword} (h : ∀ w ∈ ws, typeWords.contains w) :
    ∀ depth s input rest, Spells (ws.map .keyword) input rest → ws.length < depth →
      (∀ w, rest.next.kind ≠ .keyword w) →
        specifierWords false depth s input = .ok ({ s with words := ws.reverse ++ s.words }, rest) := by
  induction ws with
  | nil =>
    rintro depth s rest _ ⟨rfl, -⟩ deep stops
    obtain ⟨d, rfl⟩ := Nat.exists_eq_add_of_le' (show 1 ≤ depth from deep)
    rw [specifierWords, run_bind run_peekKind]
    cases k : rest.next.kind with
    | keyword w => exact absurd k (stops w)
    | _ => rfl
  | cons w ws ih =>
    rintro depth s _ rest ⟨loc, raw, mid, rfl, spells⟩ deep stops
    simp only [length_cons] at deep
    obtain _ | d := depth
    · omega
    have more := ih (fun v hv => h v (mem_cons_of_mem _ hv)) d { s with words := w :: s.words } mid
      rest spells (by omega) stops
    have typeWord := h w mem_cons_self
    have taken : specifierWords false (d + 1) s (.cons ⟨.keyword w, loc, raw⟩ mid) =
        (advance >>= fun _ => specifierWords false d { s with words := w :: s.words })
          (.cons ⟨.keyword w, loc, raw⟩ mid) := by
      cases w <;> first | rfl | cases typeWord
    rw [taken, run_bind (run_advance spells.whole), more]
    simp only [reverse_cons, append_assoc, singleton_append]

theorem run_specifiers (h : type.Starred) (other : ∀ t, type ≠ .pointer t)
    (spells : Spells (type.words.map .keyword) input rest)
    (deep : type.words.length < depth) (stops : ∀ w, rest.next.kind ≠ .keyword w) :
    specifiers false depth input = .ok ((.plain, type), rest) := by
  obtain ⟨⟨w, ws, words⟩, typeWord, named⟩ := named_words h other
  have here : here input = .ok (input.next.loc, input) := rfl
  have run := run_specifierWords typeWord depth {} input rest spells deep stops
  have some : ¬ (type.words.reverse ++ []).isEmpty = true := by simp [words]
  rw [specifiers_eq, run_bind here, run_bind run]
  rw [if_neg some, append_nil, named]
  rfl

/-- Words and stars.  More stars may follow, so what is said is how reading goes on. -/
theorem run_starred (type : CType) (h : type.Starred) : ∀ depth input rest,
    Spells type.starredTokens input rest → type.starredTokens.length < depth →
      (∀ w, rest.next.kind ≠ .keyword w) → ∃ base mid depth',
        specifiers false depth input = .ok ((.plain, base), mid) ∧
          depth ≤ depth' + type.starredTokens.length ∧ stars depth base mid = stars depth' type rest := by
  intro depth input rest spells deep stops
  match type, h with
  | .pointer t, h =>
    rw [CType.starredTokens] at spells deep ⊢
    obtain ⟨_, inner, loc, raw, _, rfl, rfl, whole⟩ := spells_append.1 spells
    simp only [length_append, length_singleton] at deep ⊢
    obtain ⟨base, mid, d, run, deep', goesOn⟩ := run_starred t h depth input _ inner (by omega) nofun
    obtain _ | d := d
    · omega
    refine ⟨base, mid, d, run, by omega, ?_⟩
    rw [goesOn, stars, run_then (run_accept whole)]
    rfl
  | .void, h | .integral _ _, h | .floating _, h =>
    have deep : ((CType.words _).map TokenKind.keyword).length < depth := deep
    rw [length_map] at deep
    exact ⟨_, rest, depth, run_specifiers h nofun spells deep stops, Nat.le_add_right _ _, rfl⟩

theorem opensAll_int (n : UInt64) : OpensAll [.int n] := ⟨_, _, rfl, rfl⟩

theorem run_arrayLengths (sizes : List ArraySize) (small : ∀ n, .fixed n ∈ sizes → n.toNat < 2 ^ 63) :
    ∀ depth done input rest, Spells (sizes.flatMap ArraySize.tokens) input rest →
      8 * (sizes.flatMap ArraySize.tokens).length < depth → rest.next.kind ≠ .punct .lBracket →
        arrayLengths depth done input = .ok (done.reverse ++ sizes, rest) := by
  induction sizes with
  | nil =>
    rintro depth done rest _ ⟨rfl, -⟩ deep stops
    obtain _ | d := depth
    · omega
    rw [arrayLengths, run_else (run_accept_other stops), append_nil]
    rfl
  | cons size sizes ih =>
    intro depth done input rest spells deep stops
    rw [flatMap_cons] at spells deep
    obtain _ | d := depth
    · omega
    have more := ih fun n hn => small n (mem_cons_of_mem _ hn)
    cases size with
    | unsized =>
      obtain ⟨loc, raw, _, rfl, loc', raw', mid, rfl, spells⟩ := spells
      have deep : 8 * (2 + (sizes.flatMap ArraySize.tokens).length) < d + 1 := by
        rwa [length_append] at deep
      rw [arrayLengths, run_then (run_accept (Tokens.whole_cons _ _)),
        run_then (run_accept spells.whole), more d _ mid rest spells (by omega) stops,
        reverse_cons, append_assoc]
      rfl
    | fixed n =>
      obtain ⟨loc, raw, _, rfl, loc', raw', _, rfl, loc'', raw'', mid, rfl, spells⟩ := spells
      have deep : 8 * (3 + (sizes.flatMap ArraySize.tokens).length) < d + 1 := by
        rwa [length_append] at deep
      have opens : OpensAll [.int n] := opensAll_int n
      -- The length is an expression, if only a literal.
      have reads := (reads_of_primary opens (readsPrimary_int loc n)).conditional (by omega)
      obtain ⟨e, same, run⟩ := reads d _ (.cons ⟨.punct .rBracket, loc'', raw''⟩ mid)
        ⟨loc', raw', _, rfl, rfl, Tokens.whole_cons _ mid⟩ (by simp only [length_singleton]; omega) rfl
      obtain ⟨loc, rfl⟩ : ∃ loc, e = .int loc n := by
        cases e <;> cases same
        exact ⟨_, rfl⟩
      have noBracket : ∀ ts, accept (.punct .rBracket) (.cons ⟨.int n, loc', raw'⟩ ts) =
          .ok (false, .cons ⟨.int n, loc', raw'⟩ ts) := by
        refine fun _ => run_accept_other fun same => ?_
        cases same
      have length : lengthOf (.int loc n : Expr) (Tokens.cons ⟨.punct .rBracket, loc'', raw''⟩ mid) =
          .ok (.fixed n, .cons ⟨.punct .rBracket, loc'', raw''⟩ mid) := by
        rw [lengthOf, if_pos (small n mem_cons_self)]
        rfl
      rw [arrayLengths, run_then (run_accept (Tokens.whole_cons _ _)),
        run_else (noBracket _), run_bind run, run_bind length,
        run_bind (run_expect spells.whole), more d _ mid rest spells (by omega) stops, reverse_cons,
        append_assoc]
      rfl

theorem arrayOf_lengths (type : CType) : arrayOf type.innermost type.lengths = type := by
  match type with
  | .array element size => exact congrArg (CType.array · size) (arrayOf_lengths element)
  | .void | .integral _ _ | .floating _ | .pointer _ | .function _ _ _ => rfl

theorem run_typeName (h : type.Nameable) {loc : Location} {raw : Bytes}
    (spells : Spells type.tokens input (.cons ⟨.punct .rParen, loc, raw⟩ rest))
    (deep : 8 * type.tokens.length + 2 ≤ depth) :
    typeName depth input = .ok (type, .cons ⟨.punct .rParen, loc, raw⟩ rest) := by
  obtain ⟨mid, first, second⟩ := spells_append.1 spells
  rw [CType.tokens, length_append] at deep
  obtain _ | d := depth
  · omega
  have next : mid.next.kind = .punct .rParen ∨ mid.next.kind = .punct .lBracket := by
    cases sizes : type.lengths with
    | nil =>
      rw [sizes] at second
      obtain ⟨rfl, -⟩ := second
      exact .inl rfl
    | cons size sizes' =>
      rw [sizes] at second
      cases size <;>
      · obtain ⟨loc, raw, _, rfl, -⟩ := second
        exact .inr rfl
  obtain ⟨base, mid', d', run, deep', goesOn⟩ :=
    run_starred type.innermost h.1 d input mid first (by omega) (by rcases next with k | k <;> rw [k] <;> nofun)
  obtain ⟨d', rfl⟩ := Nat.exists_eq_add_of_le' (show 1 ≤ d' by omega)
  have noStar : accept (.punct .star) mid = .ok (false, mid) :=
    run_accept_other (by rcases next with k | k <;> rw [k] <;> nofun)
  have starred : stars d base mid' = .ok (type.innermost, mid) := by
    rw [goesOn, stars, run_else noStar]
    rfl
  have sizes := run_arrayLengths type.lengths h.2 d [] mid _ second (by omega) nofun
  rw [typeName, run_bind run]
  show (stars d base >>= _) _ = _
  rw [run_bind starred, run_bind sizes, reverse_nil, nil_append, makeArray_eq, arrayOf_lengths]
  rfl

theorem opens_starredTokens (type : CType) (h : type.Starred) :
    ∃ w ks, type.starredTokens = .keyword w :: ks ∧ typeWords.contains w := by
  match type, h with
  | .pointer t, h =>
    obtain ⟨w, ks, tokens, typeWord⟩ := opens_starredTokens t h
    refine ⟨w, ks ++ [.punct .star], ?_, typeWord⟩
    rw [CType.starredTokens, tokens, cons_append]
  | .void, h | .integral _ _, h | .floating _, h =>
    obtain ⟨⟨w, ws, words⟩, typeWord, -⟩ := named_words h nofun
    refine ⟨w, ws.map .keyword, congrArg (List.map TokenKind.keyword) words, typeWord w ?_⟩
    rw [words]
    exact mem_cons_self ..

theorem run_atTypeName_true (h : type.Nameable)
    (spells : Spells type.tokens input rest) : atTypeName input = .ok (true, input) := by
  obtain ⟨w, ks, tokens, typeWord⟩ := opens_starredTokens type.innermost h.1
  rw [CType.tokens, tokens] at spells
  obtain ⟨loc, raw, mid, rfl, -⟩ := spells
  cases w <;> first | rfl | cases typeWord

/-! ## Casts and `sizeof` -/

section Casts

variable {kinds : List TokenKind} {e : Expr} {type : CType}

theorem readsBy_cast (loc : Location) (ht : type.Nameable) (h : ReadsBy kinds e unary 0 12) :
    ReadsBy (.punct .lParen :: (type.tokens ++ .punct .rParen :: kinds)) (.cast loc type e) unary 0 12 := by
  rintro depth _ rest ⟨loc, raw, mid, rfl, spells⟩ deep stops
  obtain ⟨_, spells, loc', raw', mid', rfl, spells'⟩ := spells_append.1 spells
  simp only [length_append, length_cons] at deep
  obtain _ | d := depth
  · omega
  obtain ⟨e', same, run⟩ := h d mid' rest spells' (by omega) stops
  refine ⟨.cast loc type e', congrArg (Expr.cast .start type) same, ?_⟩
  rw [run_unary_lParen spells.whole, run_then (run_atTypeName_true ht spells),
    run_bind (run_typeName ht spells (by omega)), run_bind (run_expect spells'.whole), run_bind run]
  rfl

/-- What stands under a `sizeof` is read as its operand. -/
def ReadsSizeof (kinds : List TokenKind) (e : Expr) : Prop :=
  ∀ depth loc input rest, Spells kinds input rest → 8 * kinds.length + 1 ≤ depth →
    rest.next.kind.continues 12 = false → ∃ e', Same e' e ∧ sizeof depth loc input = .ok (.sizeofExpr loc e', rest)

theorem readsSizeof_of_primary (opens : OpensAll kinds) (h : ReadsPrimary kinds e) : ReadsSizeof kinds e :=
  fun _ loc _ _ spells deep stops => h.alone opens (some loc) spells (by omega) stops

theorem readsSizeof_of_unary {k : TokenKind} (other : k ≠ .punct .lParen)
    (h : ReadsBy (k :: kinds) e unary 0 12) : ReadsSizeof (k :: kinds) e := by
  intro depth loc input rest spells deep stops
  obtain _ | d := depth
  · omega
  obtain ⟨e', same, run⟩ := h d input rest spells (by omega) stops
  obtain ⟨_, _, mid, rfl, -⟩ := spells
  exact ⟨e', same, run_sizeof other run⟩

theorem run_unary_sizeof {depth : Nat} {loc : Location} {raw : Bytes} {ts : Tokens} (whole : ts.Whole) :
    unary (depth + 1) (.cons ⟨.keyword .sizeof, loc, raw⟩ ts) = sizeof depth loc ts := by
  rw [unary, run_bind run_peek_cons]
  show (accept (.keyword .sizeof) >>= _) _ = _
  rw [run_then (run_accept whole)]

theorem readsBy_sizeofExpr (loc : Location) (h : ReadsSizeof kinds e) :
    ReadsBy (.keyword .sizeof :: kinds) (.sizeofExpr loc e) unary 0 12 := by
  rintro depth _ rest ⟨loc, raw, mid, rfl, spells⟩ deep stops
  simp only [length_cons] at deep
  obtain _ | d := depth
  · omega
  obtain ⟨e', same, run⟩ := h d loc mid rest spells (by omega) stops
  refine ⟨.sizeofExpr loc e', congrArg (Expr.sizeofExpr .start) same, ?_⟩
  rw [run_unary_sizeof spells.whole, run]

theorem readsBy_sizeofType (loc : Location) (ht : type.Nameable) :
    ReadsBy (.keyword .sizeof :: .punct .lParen :: (type.tokens ++ [.punct .rParen]))
      (.sizeofType loc type) unary 0 12 := by
  rintro depth _ _ ⟨loc, raw, _, rfl, loc', raw', mid, rfl, spells⟩ deep -
  obtain ⟨_, spells', loc'', raw'', rest, rfl, rfl, whole⟩ := spells_append.1 spells
  simp only [length_append, length_cons] at deep
  obtain ⟨d, rfl⟩ := Nat.exists_eq_add_of_le' (show 2 ≤ depth by omega)
  refine ⟨.sizeofType loc type, rfl, ?_⟩
  rw [run_unary_sizeof (Tokens.whole_cons _ mid), sizeof, run_then (run_accept spells.whole),
    run_then (run_atTypeName_true ht spells'), run_bind (run_typeName ht spells' (by omega)),
    run_bind (run_expect whole)]
  rfl

end Casts

/-! ## All expressions -/

section Placed

variable {e : Expr}

theorem opensAll_lParen (ks : List TokenKind) : OpensAll (.punct .lParen :: ks) := ⟨_, _, rfl, rfl⟩

theorem Reads.placed (h : Reads e.tokens e e.level) (n : Nat) (le : n ≤ 13) : Reads (e.place n e.tokens) e n := by
  by_cases low : e.level < n
  · rw [Expr.place, if_pos low]
    have inside := readsPrimary_parenthesized h.opens h.expression
    exact (reads_of_primary (opensAll_lParen _) inside).mono le
  · rw [Expr.place, if_neg low]
    exact h.mono (Nat.le_of_not_lt low)

/-- Without parentheses stand those that do not start with one, and those that operators may follow. -/
theorem Reads.placedSizeof (h : Reads e.tokens e e.level) : ReadsSizeof (e.placeSizeof e.tokens) e := by
  have inside := readsSizeof_of_primary (opensAll_lParen _) (readsPrimary_parenthesized h.opens h.expression)
  have primary : e.level = 13 → ReadsSizeof e.tokens e := fun level =>
    readsSizeof_of_primary h.opens (h.primary (by omega))
  have unary : e.level = 12 → ReadsBy e.tokens e Grammar.unary 0 12 := fun level => h.unary (by omega)
  cases e with
  | cast loc type operand => exact inside
  | assign loc target op value => exact inside
  | conditional loc cond yes no => exact inside
  | binary loc op left right =>
    have low : (Expr.binary loc op left right).level < 12 := (two_le_level op).2
    show ReadsSizeof (Expr.place 12 _ _) _
    rw [Expr.place, if_pos low]
    exact inside
  | unary loc op operand => exact readsSizeof_of_unary (by cases op <;> nofun) (unary rfl)
  | step loc step fixity operand =>
    cases fixity with
    | pre => exact readsSizeof_of_unary (by cases step <;> nofun) (unary rfl)
    | post => exact primary rfl
  | sizeofType loc type => exact readsSizeof_of_unary nofun (unary rfl)
  | sizeofExpr loc operand => exact readsSizeof_of_unary nofun (unary rfl)
  | int _ _ | float _ _ | char _ _ | string _ _ | ident _ _ => exact primary rfl
  | call _ _ _ | index _ _ _ | member _ _ _ _ => exact primary rfl

end Placed

mutual

theorem reads_tokens (e : Expr) (h : e.Writable) : Reads e.tokens e e.level := by
  match e, h with
  | .int loc value, _ => exact reads_of_primary ⟨_, _, rfl, rfl⟩ (readsPrimary_int loc value)
  | .float loc value, _ => exact reads_of_primary ⟨_, _, rfl, rfl⟩ (readsPrimary_float loc value)
  | .char loc value, _ => exact reads_of_primary ⟨_, _, rfl, rfl⟩ (readsPrimary_char loc value)
  | .string loc value, _ => exact reads_of_primary ⟨_, _, rfl, rfl⟩ (readsPrimary_string loc value)
  | .ident loc name, _ => exact reads_of_primary ⟨_, _, rfl, rfl⟩ (readsPrimary_ident loc name)
  | .binary loc op left right, ⟨hl, hr⟩ =>
    obtain ⟨low, high⟩ := two_le_level op
    have l := (reads_tokens left hl).placed op.level (by omega)
    have r := (reads_tokens right hr).placed (op.level + 1) (by omega)
    exact reads_of_binary (l.opens.append _) low high (readsBinary_binary loc op
      (l.binary _ low (by omega) (Nat.le_refl _)) (r.binary _ (by omega) (by omega) (Nat.le_refl _)))
  | .unary loc op operand, h =>
    have o := (reads_tokens operand h).placed 12 (by omega)
    have opens : Opens (.punct op.mark) := by cases op <;> rfl
    exact reads_of_unary ⟨_, _, rfl, opens⟩ (readsBy_unary loc op (o.unary (Nat.le_refl _)))
  | .step loc step .pre operand, h =>
    have o := (reads_tokens operand h).placed 12 (by omega)
    have opens : Opens (.punct step.mark) := by cases step <;> rfl
    exact reads_of_unary ⟨_, _, rfl, opens⟩ (readsBy_preStep loc step (o.unary (Nat.le_refl _)))
  | .step loc step .post operand, h =>
    have o := (reads_tokens operand h).placed 13 (by omega)
    exact reads_of_primary (o.opens.append _) (readsPrimary_step loc step (o.primary (Nat.le_refl _)))
  | .assign loc target op value, ⟨ht, marked, hv⟩ =>
    have t := (reads_tokens target ht).placed 1 (by omega)
    have v := (reads_tokens value hv).placed 0 (by omega)
    exact reads_of_expression (t.opens.append _)
      (readsBy_assign loc marked (t.conditional (Nat.le_refl _)) v.expression)
  | .call loc callee args, ⟨hc, ha⟩ =>
    have c := (reads_tokens callee hc).placed 13 (by omega)
    exact reads_of_primary (c.opens.append _) (readsPrimary_call loc (c.primary (Nat.le_refl _)) (reads_args args ha))
  | .index loc base index, ⟨hb, hi⟩ =>
    have b := (reads_tokens base hb).placed 13 (by omega)
    have i := (reads_tokens index hi).placed 0 (by omega)
    exact reads_of_primary (b.opens.append _) (readsPrimary_index loc (b.primary (Nat.le_refl _)) i.expression)
  | .member loc object arrow name, h =>
    have o := (reads_tokens object h).placed 13 (by omega)
    exact reads_of_primary (o.opens.append _) (readsPrimary_member loc arrow name (o.primary (Nat.le_refl _)))
  | .conditional loc cond yes no, ⟨hc, hy, hn⟩ =>
    have c := (reads_tokens cond hc).placed 2 (by omega)
    have y := (reads_tokens yes hy).placed 0 (by omega)
    have n := (reads_tokens no hn).placed 1 (by omega)
    exact reads_of_conditional (c.opens.append _) (readsBy_conditional loc
      (c.binary 2 (by omega) (by omega) (Nat.le_refl _)) y.expression (n.conditional (Nat.le_refl _)))
  | .cast loc type operand, ⟨ht, h⟩ =>
    have o := (reads_tokens operand h).placed 12 (by omega)
    exact reads_of_unary (opensAll_lParen _) (readsBy_cast loc ht (o.unary (Nat.le_refl _)))
  | .sizeofType loc type, h =>
    have opens : Opens (.keyword .sizeof) := rfl
    exact reads_of_unary ⟨_, _, rfl, opens⟩ (readsBy_sizeofType loc h)
  | .sizeofExpr loc operand, h =>
    have opens : Opens (.keyword .sizeof) := rfl
    exact reads_of_unary ⟨_, _, rfl, opens⟩ (readsBy_sizeofExpr loc (reads_tokens operand h).placedSizeof)

theorem reads_args (args : List Expr) (h : AllWritable args) : ∀ arg ∈ args, Reads arg.tokens arg 0 := by
  match args, h with
  | [], _ => nofun
  | arg :: args, ⟨first, others⟩ =>
    have one := (reads_tokens arg first).mono (Nat.zero_le _)
    intro a ha
    rcases mem_cons.1 ha with rfl | ha
    · exact one
    · exact reads_args args others a ha

end

end Grammar

/-- Reading inverts writing: the tokens of an expression, followed by anything that can not go on with an
expression, are read as the same tree up to positions, and nothing more is read than these tokens. -/
theorem expression_tokens (e : Expr) (writable : e.Writable) (tokens : List Token)
    (spelled : tokens.map (·.kind) = e.tokens) (rest : Tokens) (whole : rest.Whole)
    (stops : rest.next.kind.continues 0 = false) (depth : Nat)
    (deep : Grammar.enough tokens.length ≤ depth) :
    ∃ e', Grammar.expression depth ⟨tokens ++ rest.ahead, rest.stop⟩ = .ok (e', rest) ∧ e'.unlocated = e.unlocated := by
  have spells := Grammar.spells_kinds tokens whole
  have long : tokens.length = e.tokens.length := by rw [← spelled, List.length_map]
  rw [spelled] at spells
  rw [Grammar.enough] at deep
  obtain ⟨e', same, run⟩ := (Grammar.reads_tokens e writable).expression depth _ rest spells (by omega) stops
  exact ⟨e', run, same⟩

def difference : Expr :=
  .assign ⟨1, 3⟩ (.ident ⟨1, 1⟩ (ascii "a")) (some .sub) (.conditional ⟨1, 18⟩
    (.binary ⟨1, 8⟩ .sub (.ident ⟨1, 6⟩ (ascii "b"))
      (.binary ⟨1, 13⟩ .sub (.ident ⟨1, 11⟩ (ascii "c")) (.int ⟨1, 15⟩ 1)))
    (.index ⟨1, 27⟩ (.call ⟨1, 21⟩ (.ident ⟨1, 20⟩ (ascii "f"))
      [.ident ⟨1, 22⟩ (ascii "x"), .ident ⟨1, 25⟩ (ascii "y")]) (.int ⟨1, 28⟩ 2))
    (.sizeofExpr ⟨1, 33⟩ (.cast ⟨1, 41⟩ (.array (.pointer .char) (.fixed 3)) (.ident ⟨1, 52⟩ (ascii "p")))))

theorem expression_tokens_difference :
    difference.tokens = [.ident (ascii "a"), .punct .minusEq, .ident (ascii "b"), .punct .minus,
      .punct .lParen, .ident (ascii "c"), .punct .minus, .int 1, .punct .rParen, .punct .question,
      .ident (ascii "f"), .punct .lParen, .ident (ascii "x"), .punct .comma, .ident (ascii "y"),
      .punct .rParen, .punct .lBracket, .int 2, .punct .rBracket, .punct .colon, .keyword .sizeof,
      .punct .lParen, .punct .lParen, .keyword .char, .punct .star, .punct .lBracket, .int 3,
      .punct .rBracket, .punct .rParen, .ident (ascii "p"), .punct .rParen] ∧
    ∃ e', Grammar.expression 264
        ⟨difference.tokens.map (⟨·, .start, []⟩) ++ [⟨.punct .semicolon, .start, []⟩], .eof .start⟩ =
          .ok (e', ⟨[⟨.punct .semicolon, .start, []⟩], .eof .start⟩) ∧
      e'.unlocated = difference.unlocated := by
  refine ⟨by decide, expression_tokens difference ?_ _ ?_ ⟨[⟨.punct .semicolon, .start, []⟩], .eof .start⟩
    nofun rfl _ (by decide)⟩
  · have small : ∀ n, .fixed n ∈ [ArraySize.fixed 3] → n.toNat < 2 ^ 63 := by
      intro n hn
      cases List.mem_singleton.1 hn
      decide
    exact ⟨trivial, fun _ same => by cases same; rfl, ⟨trivial, trivial, trivial⟩,
      ⟨⟨trivial, trivial, trivial, trivial⟩, trivial⟩, ⟨⟨trivial, small⟩, trivial⟩⟩
  · decide

end Cof
