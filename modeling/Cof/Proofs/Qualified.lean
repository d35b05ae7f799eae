/-
  Type names, and parameters without a name.

  Both are specifiers, stars and lengths in brackets.  Behind a star a parameter may have qualifiers, which are
  passed.  A type name may not: it ends in front of them.  So the two are read alike just if no star has a
  qualifier behind it.
-/
import Cof.Proofs.Consumed
import Cof.Proofs.Peeking
import Cof.Proofs.StorageClasses

namespace Cof.Grammar

open List

/-- A star or a qualifier. -/
def isMark : TokenKind → Bool
  | .punct .star | .keyword .const | .keyword .volatile => true
  | _ => false

/-- A pointer for each star. -/
def pointersOver (type : CType) : List TokenKind → CType
  | [] => type
  | k :: marks => pointersOver (if k = .punct .star then .pointer type else type) marks

variable {marks : List TokenKind} {input mid rest : Tokens} {type : CType} {depth : Nat}

theorem isMark_cases {k : TokenKind} (h : isMark k = true) :
    k = .punct .star ∨ k = .keyword .const ∨ k = .keyword .volatile := by
  unfold isMark at h
  split at h <;> simp_all

theorem run_qualifiers_stop {ts : Tokens} (const : ts.next.kind ≠ .keyword .const)
    (volatile : ts.next.kind ≠ .keyword .volatile) : qualifiers (depth + 1) ts = .ok ((), ts) := by
  rw [qualifiers, run_bind run_peekKind]
  cases kind : ts.next.kind with
  | keyword w => cases w <;> first | rfl | exact absurd kind ‹_›
  | _ => rfl

theorem run_qualifiers (spells : Spells marks input rest) (marked : ∀ k ∈ marks, isMark k = true)
    (stops : isMark rest.next.kind = false) (deep : marks.length < depth) :
    ∃ mid stars, qualifiers depth input = .ok ((), mid) ∧ Spells stars mid rest ∧ stars <:+ marks ∧
      (∀ k, stars.head? = some k → k = .punct .star) ∧ pointersOver type stars = pointersOver type marks := by
  induction marks generalizing input depth with
  | nil =>
    obtain ⟨rfl, whole⟩ := spells
    obtain ⟨d, rfl⟩ := Nat.exists_eq_add_of_le' (show 1 ≤ depth from deep)
    have stop : qualifiers (d + 1) input = .ok ((), input) := by
      refine run_qualifiers_stop ?_ ?_ <;>
      · intro kind
        rw [kind] at stops
        cases stops
    exact ⟨input, [], stop, ⟨rfl, whole⟩, suffix_refl _, nofun, rfl⟩
  | cons k marks ih =>
    obtain ⟨loc, raw, after, rfl, spells⟩ := spells
    obtain ⟨first, others⟩ := forall_mem_cons.1 marked
    rw [length_cons] at deep
    obtain _ | d := depth
    · omega
    by_cases star : k = .punct .star
    · subst star
      exact ⟨_, .punct .star :: marks, run_qualifiers_stop nofun nofun, ⟨loc, raw, after, rfl, spells⟩,
        suffix_refl _, by simp, rfl⟩
    · obtain ⟨mid, stars, run, spells', suffix, head, same⟩ := @ih _ d spells others (by omega)
      refine ⟨mid, stars, ?_, spells', suffix.trans (suffix_cons _ _), head, ?_⟩
      · have passed : (advance >>= fun _ => qualifiers d) (.cons ⟨k, loc, raw⟩ after) = .ok ((), mid) := by
          rw [run_bind (run_advance spells.whole), run]
        rw [qualifiers, run_bind run_peekKind]
        rcases (isMark_cases first).resolve_left star with rfl | rfl <;> exact passed
      · rw [same, pointersOver, if_neg star]

theorem run_pointers (spells : Spells marks input rest) (marked : ∀ k ∈ marks, isMark k = true)
    (head : ∀ k, marks.head? = some k → k = .punct .star)
    (stops : isMark rest.next.kind = false) (deep : marks.length < depth) :
    pointers depth type input = .ok (pointersOver type marks, rest) := by
  induction depth generalizing marks input type with
  | zero => cases deep
  | succ depth ih =>
    cases marks with
    | nil =>
      obtain ⟨rfl, -⟩ := spells
      have other : input.next.kind ≠ .punct .star := by
        intro star
        rw [star] at stops
        cases stops
      rw [pointers, run_else (run_accept_other other)]
      rfl
    | cons k marks =>
      obtain rfl := head k rfl
      obtain ⟨loc, raw, after, rfl, spells⟩ := spells
      obtain ⟨-, others⟩ := forall_mem_cons.1 marked
      rw [length_cons] at deep
      obtain ⟨mid, stars, run, spells', suffix, head', same⟩ :=
        @run_qualifiers _ _ _ (.pointer type) depth spells others stops (by omega)
      have fewer := suffix.length_le
      rw [pointers, run_then (run_accept spells.whole), pointer_bind, run_bind run,
        ih spells' (fun k hk => others k (suffix.subset hk)) head' (by omega), same, pointersOver, if_pos rfl]

theorem run_stars (spells : Spells marks input rest) (deep : marks.length < depth)
    (stops : rest.next.kind ≠ .punct .star) : ∃ passed more mid, marks = passed ++ more ∧
      (∀ k ∈ passed, k = .punct .star) ∧ (∀ k, more.head? = some k → k ≠ .punct .star) ∧
      stars depth type input = .ok (pointersOver type passed, mid) ∧ Spells more mid rest := by
  induction depth generalizing marks input type with
  | zero => cases deep
  | succ depth ih =>
    cases marks with
    | nil =>
      obtain ⟨rfl, whole⟩ := spells
      refine ⟨[], [], input, rfl, forall_mem_nil _, nofun, ?_, ⟨rfl, whole⟩⟩
      rw [stars, run_else (run_accept_other stops)]
      rfl
    | cons k marks =>
      obtain ⟨loc, raw, after, rfl, spells⟩ := spells
      rw [length_cons] at deep
      by_cases star : k = .punct .star
      · subst star
        obtain ⟨passed, more, mid, rfl, all, head, run, spells'⟩ := @ih _ _ (.pointer type) spells (by omega)
        refine ⟨.punct .star :: passed, more, mid, rfl, forall_mem_cons.2 ⟨rfl, all⟩, head, ?_, spells'⟩
        rw [stars, run_then (run_accept spells.whole), pointer_bind, run, pointersOver, if_pos rfl]
      · refine ⟨[], k :: marks, _, rfl, forall_mem_nil _, by simp [star], ?_, loc, raw, after, rfl, spells⟩
        rw [stars, run_else (run_accept_cons_other star)]
        rfl

/-- Lengths in brackets, and the type of the array. -/
def lengthsOver (depth : Nat) (type : CType) : Reader CType := arrayOf type <$> arrayLengths depth []

theorem bind_makeArray : arrayLengths depth [] >>= makeArray type = lengthsOver depth type := by
  rw [lengthsOver, map_eq_pure_bind]
  exact bind_congr fun lengths => makeArray_eq type lengths

theorem typeName_eq {linkage : Linkage} {base : CType} {ts after : Tokens}
    (specified : specifiers false depth ts = .ok ((linkage, base), mid))
    (starred : stars depth base mid = .ok (type, after)) : typeName (depth + 1) ts = lengthsOver depth type after := by
  rw [typeName, run_bind specified, ← bind_makeArray]
  exact run_bind starred

theorem parameter_eq {linkage : Linkage} {base : CType} {ts : Tokens}
    (specified : specifiers false depth ts = .ok ((linkage, base), mid))
    (pointed : pointers depth base mid = .ok (type, rest)) (unnamed : ∀ name, rest.next.kind ≠ .ident name)
    (noList : rest.next.kind ≠ .punct .lParen) :
    ((·.2) <$> parameter depth) ts = lengthsOver depth type rest := by
  have noName : name? rest = .ok (none, rest) := by
    rw [name?, run_bind run_peekKind]
    cases kind : rest.next.kind with
    | ident name => exact absurd kind (unnamed name)
    | _ => rfl
  have read : parameter depth ts = ((fun lengths => (none, arrayOf type lengths)) <$> arrayLengths depth []) rest := by
    rw [parameter, run_bind specified]
    refine (run_bind pointed).trans ?_
    rw [run_bind noName, run_else (run_comes_other noList)]
    simp only [makeArray_eq, pure_bind]
    rfl
  show (parameter depth ts).map (fun read => (read.1.2, read.2)) =
    (arrayLengths depth [] rest).map fun read => (arrayOf type read.1, read.2)
  rw [read]
  show ((arrayLengths depth [] rest).map _).map _ = _
  cases arrayLengths depth [] rest <;> rfl

/-- A type name and a parameter without a name are read alike, if and only if no qualifier stands behind a star.  If
their specifiers can not be read, they fail alike. -/
theorem typeName_agrees_iff (depth : Nat) (ts : Tokens) :
    (∀ e, specifiers false depth ts = .error e → typeName (depth + 1) ts = ((·.2) <$> parameter depth) ts) ∧
    ∀ linkage base mid marks rest, specifiers false depth ts = .ok ((linkage, base), mid) → Spells marks mid rest →
      (∀ k ∈ marks, isMark k = true) → isMark rest.next.kind = false → (∀ name, rest.next.kind ≠ .ident name) →
      rest.next.kind ≠ .punct .lParen → rest.Worded → marks.length < depth →
        (typeName (depth + 1) ts = ((·.2) <$> parameter depth) ts ↔ ∀ k ∈ marks, k = .punct .star) := by
  refine ⟨fun e failed => ?_, ?_⟩
  · show (specifiers false depth ts >>= _) = ((specifiers false depth ts >>= _) >>= _)
    rw [failed]
    rfl
  intro linkage base mid marks rest specified spells marked stops unnamed noList _ deep
  have head : ∀ k, marks.head? = some k → k = .punct .star := by
    obtain ⟨_, _, _, noWord⟩ := specifiers_linkage specified
    intro k first
    obtain ⟨marks, rfl⟩ := List.head?_eq_some_iff.1 first
    obtain ⟨_, _, _, rfl, _⟩ := spells
    rcases isMark_cases (marked k List.mem_cons_self) with rfl | rfl | rfl
    · rfl
    · exact absurd (noWord .const rfl) (by decide)
    · exact absurd (noWord .volatile rfl) (by decide)
  have noStar : rest.next.kind ≠ .punct .star := by
    intro star
    rw [star] at stops
    cases stops
  have pointed := @run_pointers _ _ _ base _ spells marked head stops deep
  obtain ⟨passed, more, after, rfl, all, other, starred, spells'⟩ := @run_stars _ _ _ base _ spells deep noStar
  rw [parameter_eq specified pointed unnamed noList, typeName_eq specified starred]
  constructor
  · intro same
    cases more with
    | nil => rwa [List.append_nil]
    | cons k more =>
      -- A type name ends in front of the qualifier, and a parameter behind it.
      have mark := marked k (List.mem_append_right _ List.mem_cons_self)
      obtain _ | d := depth
      · omega
      obtain ⟨-, tokens, kinds, rfl⟩ := spells'.behind
      obtain ⟨t, later, rfl, rfl, -⟩ := List.map_eq_cons_iff.1 kinds.symm
      have noBracket : (rest.behind (t :: later)).next.kind ≠ .punct .lBracket := by
        intro kind
        rw [show t.kind = _ from kind] at mark
        cases mark
      have ends : arrayLengths (d + 1) [] (rest.behind (t :: later)) = .ok ([], rest.behind (t :: later)) := by
        rw [arrayLengths, run_else (run_accept_other noBracket)]
        rfl
      have shrinks := (built_arrayLengths (d + 1) [] ⟨True, []⟩).ends rest trivial
      change (arrayLengths _ _ _).map _ = (arrayLengths _ _ _).map _ at same
      rw [ends] at same
      generalize arrayLengths (d + 1) [] rest = result at same shrinks
      cases shrinks with
      | ok _ ahead =>
        have left := congrArg (·.2.ahead.length) (Except.ok.inj same)
        have short := ahead.length_le
        simp only [Tokens.behind, List.length_append, List.length_cons] at left
        omega
      | lex | form => cases same
  · intro stars
    have none : more = [] := by
      cases more with
      | nil => rfl
      | cons k more => exact absurd (stars k (List.mem_append_right _ List.mem_cons_self)) (other k rfl)
    subst none
    obtain ⟨rfl, -⟩ := spells'
    rw [List.append_nil]

/-- `char const **[3])` is read alike. -/
theorem typeName_agrees_iff_starred :
    let sizes := [.punct .lBracket, .int 3, .punct .rBracket, .punct .rParen]
    let ts := plainTokens ([.keyword .char, .keyword .const, .punct .star, .punct .star] ++ sizes)
    typeName 40 ts = ((·.2) <$> parameter 39) ts := by
  intro sizes ts
  have specified : specifiers false 39 ts =
      .ok ((.plain, .char), plainTokens ([.punct .star, .punct .star] ++ sizes)) := rfl
  have spells : Spells [.punct .star, .punct .star] (plainTokens ([.punct .star, .punct .star] ++ sizes))
      (plainTokens sizes) :=
    ⟨_, _, _, rfl, _, _, _, rfl, rfl, nofun⟩
  refine ((typeName_agrees_iff 39 ts).2 _ _ _ _ _ specified spells (by decide) rfl nofun nofun ?_ (by decide)).2 (by decide)
  simp [sizes, plainTokens, Tokens.Worded, TokenKind.Worded]

/-- `int *const` is a parameter, but a type name ends behind the star. -/
theorem typeName_stops_at_qualifier :
    let ts := plainTokens [.keyword .int, .punct .star, .keyword .const]
    typeName 20 ts = .ok (.pointer .int, plainTokens [.keyword .const]) ∧
      parameter 19 ts = .ok ((none, .pointer .int), plainTokens []) :=
  ⟨rfl, rfl⟩

end Cof.Grammar
