/-
  How far readers look.

  A reader looks at the tokens that it passes and at the next one.  One that ends with a token it has to pass, as a
  declaration ends with its semicolon, does not look at what follows: where the same tokens stand in front of
  something else, it reads the same (`Eager`).
-/
import Cof.Proofs.ProgramReaders
import Cof.Proofs.Reread

namespace Cof

open List

def Tokens.behind (passed : List Token) (ts : Tokens) : Tokens := ⟨passed ++ ts.ahead, ts.stop⟩

namespace Grammar

def plainTokens (kinds : List TokenKind) : Tokens := ⟨kinds.map (⟨·, .start, []⟩), .eof .start⟩

theorem run_comes_next {kind : TokenKind} {ts : Tokens} (next : ts.next.kind = kind) :
    comes kind ts = .ok (true, ts) := by
  show Except.ok (decide (ts.next.kind = kind), ts) = _
  rw [decide_eq_true next]

theorem advance_cons {t t' : Token} {rest : List Token} {stop : Stop} {left : Tokens}
    (run : advance ⟨t :: rest, stop⟩ = .ok (t', left)) : t' = t ∧ left = ⟨rest, stop⟩ := by
  cases rest with
  | cons =>
    cases run
    exact ⟨rfl, rfl⟩
  | nil =>
    cases stop with
    | eof =>
      cases run
      exact ⟨rfl, rfl⟩
    | error => cases run

theorem Spells.behind {kinds : List TokenKind} {input rest : Tokens} (h : Spells kinds input rest) :
    rest.Whole ∧ ∃ tokens, kinds = tokens.map (·.kind) ∧ input = rest.behind tokens := by
  induction kinds generalizing input with
  | nil => exact ⟨h.2, [], rfl, h.1⟩
  | cons k ks ih =>
    obtain ⟨loc, raw, mid, rfl, h⟩ := h
    obtain ⟨whole, tokens, rfl, rfl⟩ := ih h
    exact ⟨whole, ⟨k, loc, raw⟩ :: tokens, rfl, rfl⟩

/-- A reader that has come to one of these can not tell it from the other. -/
structure Alike (ts' ts : Tokens) : Prop where
  next : ts'.next = ts.next
  whole : ts'.Whole
  ended : ts.ahead = [] → ts'.ahead = []

variable {α α' β : Type} {f : Location → Location} {K : Known CType} {view : α → α'} {M : α → List CType}
variable {P : α' → Prop} {Q : β → Prop} {N : TokenKind → Prop}
variable {eats : Bool} {d r : Nat} {m : Reader α} {m' : Reader α'} {g : α → Reader β} {ts left : Tokens} {a : α}

theorem Alike.behind {ts' : Tokens} (h : Alike ts' ts) (passed : List Token) :
    Alike (ts'.behind passed) (ts.behind passed) := by
  cases passed with
  | nil => exact h
  | cons t passed =>
    exact ⟨rfl, fun none => absurd none (cons_ne_nil t _), fun none => absurd none (cons_ne_nil t _)⟩

theorem Makes.looks (h : Makes (.moving f) K N eats d r view M P m m') (next : N ts.next.kind)
    (run : m ts = .ok (a, left)) :
    ∃ passed, ts = left.behind passed ∧ ∀ left', Alike left' left → m (left'.behind passed) = .ok (a, left') := by
  induction h generalizing ts left with
  | pure =>
    cases run
    exact ⟨[], rfl, fun _ _ => rfl⟩
  | bind _ _ ihm ihg | eat _ _ ihm ihg =>
    obtain ⟨a, mid, run, run'⟩ := bind_eq_ok.1 run
    obtain ⟨passed, rfl, again⟩ := ihm next run
    obtain ⟨passed', rfl, again'⟩ := ihg a trivial run'
    refine ⟨passed ++ passed', congrArg (Tokens.mk · _) (append_assoc ..).symm, fun left' alike => ?_⟩
    have split : left'.behind (passed ++ passed') = (left'.behind passed').behind passed :=
      congrArg (Tokens.mk · _) (append_assoc ..)
    rw [split, run_bind (again _ (alike.behind passed')), again' left' alike]
  | @look _ _ _ _ _ _ _ _ _ g _ _ _ ih =>
    obtain ⟨passed, rfl, again⟩ := ih ts.next next rfl run
    refine ⟨passed, rfl, fun left' alike => ?_⟩
    show g (left'.behind passed).next _ = _
    rw [(alike.behind passed).next, again left' alike]
  | advance =>
    obtain ⟨ahead, stop⟩ := ts
    cases ahead with
    | nil =>
      cases run
      refine ⟨[], rfl, fun left' alike => ?_⟩
      obtain ⟨ahead, stop'⟩ := left'
      obtain rfl := alike.ended rfl
      exact congrArg (fun t => Except.ok (t, _)) alike.next
    | cons t rest =>
      obtain ⟨rfl, rfl⟩ := advance_cons run
      exact ⟨[_], rfl, fun left' alike => run_advance alike.whole⟩
  | failAt => cases run
  | types step =>
    obtain ⟨_, rfl, -⟩ := step.eq_pure
    cases run
    exact ⟨[], rfl, fun _ _ => rfl⟩
  | mono _ after _ _ _ ih => exact ih (after _ next) run

/-- Whatever it reads with this property, it reads without a look at what follows. -/
def Eager (Q : β → Prop) (m : Reader β) : Prop :=
  ∀ ts b left, m ts = .ok (b, left) → Q b → ∃ t passed, ts = left.behind (t :: passed) ∧
    ∀ left', left'.Whole → m (left'.behind (t :: passed)) = .ok (b, left')

theorem Eager.bind (h : Makes (.moving id) K Any eats d r view M P m m') (more : ∀ a, Eager Q (g a)) :
    Eager Q (m >>= g) := by
  intro ts b left run hb
  obtain ⟨a, mid, first, second⟩ := bind_eq_ok.1 run
  obtain ⟨passed, rfl, again⟩ := h.looks trivial first
  obtain ⟨t, later, rfl, again'⟩ := more a mid b left second hb
  have split : ∀ ts : Tokens, (ts.behind (t :: later)).behind passed = ts.behind (passed ++ t :: later) :=
    fun ts => congrArg (Tokens.mk · _) (append_assoc ..).symm
  obtain ⟨t', passed', same⟩ :=
    exists_cons_of_ne_nil (append_ne_nil_of_right_ne_nil passed (cons_ne_nil t later))
  rw [same] at split
  refine ⟨t', passed', split left, fun left' whole => ?_⟩
  have alike : Alike (left'.behind (t :: later)) (left.behind (t :: later)) :=
    ⟨rfl, fun none => absurd none (cons_ne_nil t _), fun none => absurd none (cons_ne_nil t _)⟩
  rw [← split, run_bind (again _ alike), again' left' whole]

theorem Eager.ite {c : Prop} [Decidable c] {m n : Reader β} (hm : Eager Q m) (hn : Eager Q n) :
    Eager Q (if c then m else n) := by
  split
  · exact hm
  · exact hn

theorem Eager.failAt {fault : Fault} {loc : Location} : Eager Q (failAt fault loc : Reader β) := by
  rintro ts b left ⟨⟩

theorem Eager.fail {fault : Fault} : Eager Q (fail fault : Reader β) := by
  rintro ts b left ⟨⟩

theorem Eager.expect {p : Punct} {place : String} {b : β} :
    Eager Q (expect p place >>= fun _ => pure b) := by
  intro ts b' left run _
  by_cases next : ts.next.kind = .punct p
  · obtain ⟨_, _, run, same⟩ := bind_eq_ok.1 run
    cases same
    obtain ⟨_, _, accepted, run⟩ := bind_eq_ok.1 run
    rw [accept, run_then (run_comes_next next)] at accepted
    obtain ⟨_, _, passes, same⟩ := bind_eq_ok.1 accepted
    cases same
    cases run
    obtain ⟨ahead, stop⟩ := ts
    cases ahead with
    | nil => cases stop <;> cases next
    | cons t rest =>
      obtain ⟨kind, loc, raw⟩ := t
      obtain rfl : kind = .punct p := next
      obtain ⟨-, rfl⟩ := advance_cons passes
      exact ⟨⟨.punct p, loc, raw⟩, [], rfl, fun left' whole => run_bind (run_expect whole)⟩
  · obtain ⟨_, mid, run, -⟩ := bind_eq_ok.1 run
    rw [Grammar.expect, run_else (run_accept_other next)] at run
    cases run

theorem Eager.seq {m : Reader α} (h : ∀ K, Repeats (.moving id) K Any false 0 0 m m) (more : ∀ a, Eager Q (g a)) :
    Eager Q (m >>= g) := .bind (h ⟨True, []⟩) more

theorem eager_declarators (base : CType) (linkage : Linkage) (depth : Nat) (done : List Declaration) :
    Eager (∃ ds, · = .complete ds) (declarators linkage base depth done) := by
  induction depth generalizing done with
  | zero => exact .fail
  | succ depth ih =>
    rw [declarators]
    refine .bind (makes_declarator (K := ⟨False, [base]⟩) depth mem_cons_self False.elim) fun found => ?_
    cases found with
    | function loc name signature names =>
      refine .seq (fun _ => built_comes _) fun _ => .ite ?_ (.seq (fun _ => built_comes _) fun _ => .ite .fail ?_)
      · rintro ts _ left ⟨⟩ ⟨ds, ⟨⟩⟩
      · exact .seq (fun _ => built_accept _) fun _ => .ite (ih _) .expect
    | object loc name type =>
      refine .ite .failAt (.bind (built_initializer (K := ⟨True, []⟩) depth) fun init => ?_)
      exact .seq (fun _ => built_accept _) fun _ => .ite (ih _) .expect

theorem eager_blockDeclaration (depth : Nat) : Eager (fun _ => True) (blockDeclaration depth) := by
  intro ts ds left run _
  have eager : Eager (∃ ds, · = .complete ds) (declaration depth) := by
    refine .seq (fun _ => built_atDeclaration) fun _ => .ite ?_ ?_
    · exact .bind (makes_specifiers (K := ⟨True, []⟩) true depth) fun given => eager_declarators given.2 given.1 depth []
    · rintro ts _ left ⟨⟩
  obtain ⟨found, mid, first, second⟩ := bind_eq_ok.1 run
  cases found with
  | bodyAhead => cases second
  | complete ds =>
    cases second
    obtain ⟨t, passed, same, again⟩ := eager ts _ _ first ⟨ds, rfl⟩
    exact ⟨t, passed, same, fun left' whole => run_bind (again left' whole)⟩

end Grammar

end Cof
