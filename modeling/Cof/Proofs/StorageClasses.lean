/-
  The storage class of a declaration.

  The specifiers of a declaration are a run of words, and it never holds both `static` and `extern`: of everything
  that is declared it is told which of the two was written (`declaration_linkage`).
-/
import Cof.Proofs.ProgramReaders
import Cof.Proofs.Runs

namespace Cof

open List

def Declaration.linkage {τ φ : Type} : Declaration τ φ → Linkage
  | var v => v.linkage
  | proto f => f.linkage

namespace Grammar

variable {ts ts' : Tokens}
variable {kind : TokenKind} {k : Keyword} {given : Linkage} {s s' : Specifiers} {depth : Nat} {declared : Declared}

theorem peekKind_eq_ok (h : peekKind ts = .ok (kind, ts')) : ts.next.kind = kind ∧ ts' = ts := by
  cases h
  exact ⟨rfl, rfl⟩

theorem advance_keyword {t : Token} (next : ts.next.kind = .keyword k) (h : advance ts = .ok (t, ts')) :
    ts.ahead.map (·.kind) = .keyword k :: ts'.ahead.map (·.kind) := by
  obtain ⟨ahead, stop⟩ := ts
  change pass _ = _ at h
  unfold pass at h
  split at h
  · cases h
  · cases h
    rename_i same
    cases same
    exact congrArg (· :: _) next
  · rename_i same
    cases same
    cases stop <;> cases next

/-- The storage class after some more words. -/
structure Specified (before after : Linkage) (words : List Keyword) : Prop where
  each : ∀ k ∈ words, k.startsDeclaration = true
  static : after = .static ↔ before = .static ∨ .static ∈ words
  external : after = .external ↔ before = .external ∨ .external ∈ words

theorem Specified.none (linkage : Linkage) : Specified linkage linkage [] := ⟨forall_mem_nil _, by simp, by simp⟩

theorem Specified.cons {before between after : Linkage} {k : Keyword} {words : List Keyword}
    (first : Specified before between [k]) (more : Specified between after words) :
    Specified before after (k :: words) := by
  refine ⟨forall_mem_cons.2 ⟨first.each k (mem_singleton_self k), more.each⟩, ?_, ?_⟩
  · rw [more.static, first.static, mem_singleton, mem_cons, or_assoc]
  · rw [more.external, first.external, mem_singleton, mem_cons, or_assoc]

theorem Specified.other {linkage : Linkage} {k : Keyword} (starts : k.startsDeclaration = true)
    (notStatic : k ≠ .static) (notExternal : k ≠ .external) : Specified linkage linkage [k] := by
  refine ⟨forall_mem_singleton.2 starts, ?_, ?_⟩
  · rw [mem_singleton, or_iff_left (Ne.symm notStatic)]
  · rw [mem_singleton, or_iff_left (Ne.symm notExternal)]

theorem Specified.storage {before after : Linkage}
    (word : k = .static ∧ given = .static ∨ k = .external ∧ given = .external)
    (joined : before.join? given = some after) : Specified before after [k] := by
  rcases word with ⟨rfl, rfl⟩ | ⟨rfl, rfl⟩ <;> cases before <;> cases joined <;>
    exact ⟨forall_mem_singleton.2 rfl, by decide, by decide⟩

theorem storageClass_specified {allowed : Bool}
    (word : k = .static ∧ given = .static ∨ k = .external ∧ given = .external)
    (next : ts.next.kind = .keyword k) (h : storageClass allowed k given s ts = .ok (s', ts')) :
    Specified s.linkage s'.linkage [k] ∧ ts.ahead.map (·.kind) = .keyword k :: ts'.ahead.map (·.kind) := by
  unfold storageClass at h
  split at h
  · cases h
  · cases joined : s.linkage.join? given with
    | none =>
      rw [joined] at h
      cases h
    | some linkage =>
      rw [joined] at h
      obtain ⟨t, between, passed, h⟩ := bind_eq_ok.1 h
      cases h
      exact ⟨.storage word joined, advance_keyword next passed⟩

theorem startsDeclaration_of_mem_typeWords (h : typeWords.contains k = true) :
    k.startsDeclaration = true ∧ k ≠ .static ∧ k ≠ .external := by
  cases k <;> revert h <;> decide

theorem not_startsDeclaration (notType : ¬ typeWords.contains k = true)
    (notStatic : k ≠ .static) (notExternal : k ≠ .external) (notConst : k ≠ .const)
    (notVolatile : k ≠ .volatile) : k.startsDeclaration = false := by
  cases k <;> first | rfl | contradiction

/-- All specifiers in front of the tokens are read, and what they say of the storage class is kept. -/
def ReadsSpecifiers (linkage linkage' : Linkage) (ts ts' : Tokens) : Prop :=
  ∃ words, Specified linkage linkage' words ∧
    ts.ahead.map (·.kind) = words.map .keyword ++ ts'.ahead.map (·.kind) ∧
    ∀ k, ts'.next.kind = .keyword k → k.startsDeclaration = false

theorem ReadsSpecifiers.cons {linkage linkage₁ linkage' : Linkage} {between : Tokens}
    (first : Specified linkage linkage₁ [k])
    (ahead : ts.ahead.map (·.kind) = .keyword k :: between.ahead.map (·.kind))
    (rest : ReadsSpecifiers linkage₁ linkage' between ts') : ReadsSpecifiers linkage linkage' ts ts' := by
  obtain ⟨words, more, ahead', stops⟩ := rest
  refine ⟨k :: words, first.cons more, ?_, stops⟩
  rw [ahead, ahead', map_cons, cons_append]

theorem specifierWords_reads {storage : Bool} (h : specifierWords storage depth s ts = .ok (s', ts')) :
    ReadsSpecifiers s.linkage s'.linkage ts ts' := by
  induction depth generalizing s ts with
  | zero => cases h
  | succ depth ih =>
    obtain ⟨kind, same, peeked, step⟩ := bind_eq_ok.1 h
    obtain ⟨next, rfl⟩ := peekKind_eq_ok peeked
    split at step
    · rename_i k
      split at step
      · obtain ⟨s₁, between, taken, rest⟩ := bind_eq_ok.1 step
        obtain ⟨first, ahead⟩ := storageClass_specified (.inl ⟨rfl, rfl⟩) next taken
        exact .cons first ahead (ih rest)
      · obtain ⟨s₁, between, taken, rest⟩ := bind_eq_ok.1 step
        obtain ⟨first, ahead⟩ := storageClass_specified (.inr ⟨rfl, rfl⟩) next taken
        exact .cons first ahead (ih rest)
      · obtain ⟨t, between, passed, rest⟩ := bind_eq_ok.1 step
        exact .cons (.other (k := .const) rfl nofun nofun) (advance_keyword next passed) (ih rest)
      · obtain ⟨t, between, passed, rest⟩ := bind_eq_ok.1 step
        exact .cons (.other (k := .volatile) rfl nofun nofun) (advance_keyword next passed) (ih rest)
      · rename_i notStatic notExternal notConst notVolatile
        split at step
        · rename_i isType
          obtain ⟨t, between, passed, rest⟩ := bind_eq_ok.1 step
          obtain ⟨starts, notStatic, notExternal⟩ := startsDeclaration_of_mem_typeWords isType
          have first : Specified s.linkage ({ s with words := k :: s.words } : Specifiers).linkage [k] :=
            .other starts notStatic notExternal
          exact .cons first (advance_keyword next passed) (ih rest)
        · rename_i notType
          split at step
          · cases step
          · cases step
            refine ⟨[], .none _, rfl, fun k' next' => ?_⟩
            obtain rfl : k = k' := TokenKind.keyword.inj (next.symm.trans next')
            exact not_startsDeclaration notType notStatic notExternal notConst notVolatile
    · rename_i notWord
      cases step
      exact ⟨[], .none _, rfl, fun k next' => absurd (next.symm.trans next') (notWord k)⟩

def Declared.declarations {τ φ : Type} : Declared τ φ → List (Declaration τ φ)
  | complete ds => ds
  | bodyAhead earlier f => earlier ++ [.proto f]

theorem declarators_linkage {linkage : Linkage} {base : CType} {done : List Declaration}
    (given : ∀ d ∈ done, d.linkage = linkage)
    (h : declarators linkage base depth done ts = .ok (declared, ts')) :
    ∀ d ∈ declared.declarations, d.linkage = linkage := by
  induction depth generalizing done ts with
  | zero => cases h
  | succ depth ih =>
    have go : ∀ {d : Declaration} {between : Tokens}, d.linkage = linkage → (do
        if ← accept (.punct .comma) then declarators linkage base depth (d :: done)
        else
          expect .semicolon "after declaration"
          return .complete (d :: done).reverse) between = .ok (declared, ts') →
        ∀ d ∈ declared.declarations, d.linkage = linkage := by
      intro d between hd h
      have more : ∀ x ∈ d :: done, x.linkage = linkage := forall_mem_cons.2 ⟨hd, given⟩
      obtain ⟨comma, _, _, h⟩ := bind_eq_ok.1 h
      split at h
      · exact ih more h
      · obtain ⟨_, _, _, h⟩ := bind_eq_ok.1 h
        cases h
        exact fun x hx => more x (mem_reverse.1 hx)
    obtain ⟨found, between, _, step⟩ := bind_eq_ok.1 h
    cases found with
    | function loc name signature names =>
      obtain ⟨body, _, _, step⟩ := bind_eq_ok.1 step
      split at step
      · cases step
        intro d hd
        rcases mem_append.1 hd with hd | hd
        · exact given d (mem_reverse.1 hd)
        · rw [mem_singleton.1 hd]
          rfl
      · obtain ⟨initialized, _, _, step⟩ := bind_eq_ok.1 step
        split at step
        · cases step
        · exact go rfl step
    | object loc name type =>
      simp only [isVoid_bind] at step
      by_cases void : type.isVoid = true
      · rw [if_pos void] at step
        cases step
      · rw [if_neg void] at step
        obtain ⟨init, _, _, step⟩ := bind_eq_ok.1 step
        exact go rfl step

/-- A declaration starts with a run of specifiers in which at most one storage class occurs, and that is
the storage class of everything it declares. -/
def SaysLinkage {τ φ : Type} (ts : Tokens) (ds : List (Declaration τ φ)) : Prop :=
  ∃ (words : List Keyword) (rest : List TokenKind), ts.ahead.map (·.kind) = words.map .keyword ++ rest ∧
    (∀ k ∈ words, k.startsDeclaration = true) ∧
    (∀ k, rest.head? = some (.keyword k) → k.startsDeclaration = false) ∧
    ¬ (.static ∈ words ∧ .external ∈ words) ∧
    ∀ d ∈ ds, (d.linkage = .static ↔ .static ∈ words) ∧ (d.linkage = .external ↔ .external ∈ words)

theorem next_of_head? {ts : Tokens} (h : (ts.ahead.map (·.kind)).head? = some kind) : ts.next.kind = kind := by
  obtain ⟨ahead, stop⟩ := ts
  cases ahead with
  | nil => cases h
  | cons t rest => exact Option.some.inj h

theorem atDeclaration_keeps {starts : Bool} (h : atDeclaration ts = .ok (starts, ts')) : ts' = ts := by
  obtain ⟨kind, same, peeked, told⟩ := bind_eq_ok.1 h
  obtain ⟨_, rfl⟩ := peekKind_eq_ok peeked
  split at told <;> cases told <;> rfl

theorem specifiers_linkage {storage : Bool} {found : Linkage × CType}
    (h : specifiers storage depth ts = .ok (found, ts')) : ReadsSpecifiers .plain found.1 ts ts' := by
  rw [specifiers_eq] at h
  obtain ⟨loc, same, looked, rest⟩ := bind_eq_ok.1 h
  cases looked
  obtain ⟨s, after, read, rest⟩ := bind_eq_ok.1 rest
  split at rest
  · cases rest
  · cases base : baseType? s.words with
    | none =>
      rw [base] at rest
      cases rest
    | some type =>
      rw [base] at rest
      cases rest
      exact specifierWords_reads read

theorem declaration_linkage
    (h : declaration depth ts = .ok (declared, ts')) : SaysLinkage ts declared.declarations := by
  obtain ⟨starts, same, looked, rest⟩ := bind_eq_ok.1 h
  obtain rfl := atDeclaration_keeps looked
  split at rest
  · obtain ⟨found, between, read, declares⟩ := bind_eq_ok.1 rest
    obtain ⟨words, specified, ahead, stops⟩ := specifiers_linkage read
    have linked := declarators_linkage (forall_mem_nil _) declares
    have static : found.1 = .static ↔ .static ∈ words := by
      rw [specified.static, or_iff_right nofun]
    have external : found.1 = .external ↔ .external ∈ words := by
      rw [specified.external, or_iff_right nofun]
    refine ⟨words, _, ahead, specified.each, ?_, ?_, ?_⟩
    · intro k first
      exact stops k (next_of_head? first)
    · rintro ⟨hs, he⟩
      cases (static.2 hs).symm.trans (external.2 he)
    · intro d hd
      rw [linked d hd]
      exact ⟨static, external⟩
  · cases rest

end Grammar

end Cof
