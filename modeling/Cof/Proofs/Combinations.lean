/-
  Which words name a type, and in which order they may come: in any.

  The table `namedTypes` lists the combinations of words.  `baseType?` counts, so it cannot tell a list of words
  from a permutation of it (`baseType?_perm`), and it lets no word occur more often than the table does.  What
  is left is finitely many multisets, one for each choice of counts (`choices`).
-/
import Cof.Proofs.Reread
import Cof.Proofs.StorageClasses

namespace Cof.Grammar

open List

/-! ## Words -/

def signWords : List (List Keyword × Bool) := [([], true), ([.signed], true), ([.unsigned], false)]

/-- The combinations of words that name a type.  The order within one does not count. -/
def namedTypes : List (List Keyword × CType) :=
  [([.void], .void), ([.float], .float), ([.double], .double), ([.long, .double], .double),
    ([.signed], .int), ([.unsigned], .integral .w32 false)] ++
  signWords.flatMap fun (sign, signed) =>
    [(.char :: sign, .integral .w8 signed), (.int :: sign, .integral .w32 signed),
      (.short :: sign, .integral .w16 signed), (.short :: .int :: sign, .integral .w16 signed),
      (.long :: sign, .integral .w64 signed), (.long :: .int :: sign, .integral .w64 signed),
      (.long :: .long :: sign, .integral .w64 signed), (.long :: .long :: .int :: sign, .integral .w64 signed)]

variable {words words' : List Keyword} {type : CType}

theorem baseType?_perm (h : words.Perm words') : baseType? words = baseType? words' := by
  unfold baseType? baseNode? nodeOf?
  simp only [h.count_eq, h.length_eq]

/-- Lists of words, each of which occurs no more often than it may, in the order of `kinds`. -/
def choices (kinds : List Keyword) : List (List Keyword) :=
  kinds.foldr (fun k rest => (List.range (mostOften k + 1)).flatMap fun n => rest.map (List.replicate n k ++ ·)) [[]]

theorem mem_choices {kinds : List Keyword} (few : ∀ k ∈ kinds, words.count k ≤ mostOften k) :
    kinds.flatMap (fun k => List.replicate (words.count k) k) ∈ choices kinds := by
  induction kinds with
  | nil => exact mem_singleton_self _
  | cons k kinds ih =>
    obtain ⟨first, others⟩ := forall_mem_cons.1 few
    rw [flatMap_cons, choices, foldr_cons, mem_flatMap]
    exact ⟨words.count k, mem_range.2 (by omega), mem_map.2 ⟨_, ih others, rfl⟩⟩

theorem count_sorted {kinds : List Keyword} (once : kinds.Nodup) (k : Keyword) :
    (kinds.flatMap fun k => List.replicate (words.count k) k).count k = if k ∈ kinds then words.count k else 0 := by
  induction kinds with
  | nil => rfl
  | cons k' kinds ih =>
    obtain ⟨new, once⟩ := nodup_cons.1 once
    rw [flatMap_cons, count_append, count_replicate, ih once]
    by_cases same : k' = k
    · subst same
      simp [new]
    · simp [same, Ne.symm same]

theorem perm_sorted (types : ∀ w ∈ words, w ∈ typeWords) :
    words.Perm (typeWords.flatMap fun k => List.replicate (words.count k) k) := by
  refine perm_iff_count.2 fun k => ?_
  rw [count_sorted (by decide)]
  split
  · rfl
  · rename_i other
    exact count_eq_zero.2 (other ∘ types k)

theorem baseType?_iff (types : ∀ w ∈ words, w ∈ typeWords) :
    (words ≠ [] ∧ baseType? words = some type) ↔ ∃ entry ∈ namedTypes, entry.1.Perm words ∧ entry.2 = type := by
  constructor
  · rintro ⟨nonempty, named⟩
    have few : ∀ k ∈ typeWords, words.count k ≤ mostOften k := by
      refine fun k hk => Nat.le_of_not_lt fun many => ?_
      have refused : typeWords.any (fun k => mostOften k < words.count k) = true :=
        any_eq_true.2 ⟨k, hk, decide_eq_true many⟩
      unfold baseType? baseNode? nodeOf? at named
      rw [if_pos (by rw [refused, Bool.true_or])] at named
      cases named
    have listed : (choices typeWords).all (fun ws => ws.isEmpty || (baseType? ws).all fun t =>
        namedTypes.any fun entry => entry.1.isPerm ws && entry.2 == t) = true := by decide +kernel
    have sorted := perm_sorted types
    have entry := all_eq_true.1 listed _ (mem_choices few)
    have more : (typeWords.flatMap fun k => List.replicate (words.count k) k).isEmpty = false :=
      isEmpty_eq_false_iff.2 fun empty => nonempty (by rw [empty] at sorted; exact sorted.eq_nil)
    rw [more, Bool.false_or, ← baseType?_perm sorted, named, Option.all_some] at entry
    obtain ⟨entry, mem, holds⟩ := any_eq_true.1 entry
    obtain ⟨perm, same⟩ := Bool.and_eq_true_iff.1 holds
    exact ⟨entry, mem, (isPerm_iff.1 perm).trans sorted.symm, eq_of_beq same⟩
  · rintro ⟨entry, mem, perm, rfl⟩
    have right : ∀ entry ∈ namedTypes, entry.1 ≠ [] ∧ baseType? entry.1 = some entry.2 := by decide
    obtain ⟨nonempty, named⟩ := right entry mem
    exact ⟨fun none => nonempty (by rw [none] at perm; exact perm.eq_nil), baseType?_perm perm ▸ named⟩

/-! ### Counting in 32 bits -/

/-- The words are counted one by one, in the order in which they are read. -/
def counter (words : List Keyword) (k : Keyword) : UInt32 := words.foldr (fun w n => if w = k then n + 1 else n) 0

theorem counter_eq (words : List Keyword) (k : Keyword) : counter words k = .ofNat (words.count k) := by
  induction words with
  | nil => rfl
  | cons w words ih =>
    rw [counter, foldr_cons, ← counter, ih, count_cons]
    by_cases same : w = k <;> simp [same, UInt32.ofNat_add]

/-- Below 2³² words it makes no difference that counters of 32 bits may overflow. -/
theorem baseNode?_counter (types : ∀ w ∈ words, w ∈ typeWords) (few : words.length < 2 ^ 32) :
    baseNode? words = nodeOf? (fun k => (counter words k).toNat) (counter words .signed + counter words .unsigned).toNat
      (typeWords.foldl (fun n k => n + counter words k) 0).toNat := by
  have total := (perm_sorted types).length_eq
  simp only [typeWords, flatMap_cons, flatMap_nil, length_append, length_replicate, length_nil] at total
  have one : ∀ k, (counter words k).toNat = words.count k := fun k => by
    rw [counter_eq, UInt32.toNat_ofNat_of_lt' (Nat.lt_of_le_of_lt count_le_length few)]
  have signs : (counter words .signed + counter words .unsigned).toNat =
      words.count .signed + words.count .unsigned := by
    rw [UInt32.toNat_add, one, one, Nat.mod_eq_of_lt (by omega)]
  have all : (typeWords.foldl (fun n k => n + counter words k) 0).toNat = words.length := by
    simp only [typeWords, foldl_cons, foldl_nil, UInt32.toNat_add, one, UInt32.toNat_zero]
    omega
  rw [baseNode?, signs, all]
  congr 1
  exact (funext one).symm

/-! ## Storage classes -/

def joined (linkage : Linkage) : List Keyword → Option Linkage
  | [] => some linkage
  | w :: words =>
    match w with
    | .static => (linkage.join? .static).bind (joined · words)
    | .external => (linkage.join? .external).bind (joined · words)
    | _ => joined linkage words

theorem joined_iff {given linkage : Linkage} : joined given words = some linkage ↔
    ¬ ((given = .static ∨ .static ∈ words) ∧ (given = .external ∨ .external ∈ words)) ∧
      (linkage = .static ↔ given = .static ∨ .static ∈ words) ∧
      (linkage = .external ↔ given = .external ∨ .external ∈ words) := by
  induction words generalizing given with
  | nil => cases given <;> cases linkage <;> simp [joined]
  | cons w words ih =>
    cases w <;> cases given <;> simp [joined, Linkage.join?, ih]

/-! ## Reading -/

variable {input rest left : Tokens} {depth : Nat} {s s' : Specifiers}

theorem joined_cons (linkage : Linkage) (w : Keyword) (words : List Keyword) :
    joined linkage (w :: words) = (joined linkage [w]).bind (joined · words) := by
  cases w <;> cases linkage <;> rfl

theorem specifierWords_cons {w : Keyword} {loc : Location} {raw : Bytes} {mid : Tokens}
    (known : w.startsDeclaration = true) (whole : mid.Whole) :
    specifierWords true (depth + 1) s (.cons ⟨.keyword w, loc, raw⟩ mid) =
      (joined s.linkage [w]).elim (.error (.form .conflictingStorage loc)) fun linkage =>
        specifierWords true depth ⟨linkage, [w].filter (· ∈ typeWords) ++ s.words⟩ mid := by
  obtain ⟨linkage, words⟩ := s
  have passed : ∀ m : Reader Specifiers, (advance >>= fun _ => m) (.cons ⟨.keyword w, loc, raw⟩ mid) = m mid :=
    fun m => run_bind (run_advance whole)
  rw [specifierWords, run_bind run_peekKind]
  cases w with
  | static | external =>
    cases linkage with
    | plain | static | external =>
      first
      | rfl
      | exact run_bind (run_bind (run_advance whole))
  | const | volatile | void | char | short | int | long | float | double | signed | unsigned => exact passed _
  | _ => cases known

theorem specifierWords_iff (known : ∀ w ∈ words, w.startsDeclaration = true)
    (spells : Spells (words.map .keyword) input rest) (deep : words.length < depth)
    (stops : ∀ w, rest.next.kind ≠ .keyword w) : specifierWords true depth s input = .ok (s', left) ↔
      left = rest ∧ joined s.linkage words = some s'.linkage ∧
        s'.words = (words.filter (· ∈ typeWords)).reverse ++ s.words := by
  induction words generalizing depth s input with
  | nil =>
    obtain ⟨rfl, -⟩ := spells
    obtain ⟨d, rfl⟩ := Nat.exists_eq_add_of_le' (show 1 ≤ depth from deep)
    have stop : specifierWords true (d + 1) s input = .ok (s, input) := by
      rw [specifierWords, run_bind run_peekKind]
      cases k : input.next.kind with
      | keyword w => exact absurd k (stops w)
      | _ => rfl
    rw [stop]
    obtain ⟨linkage, words⟩ := s
    obtain ⟨linkage', words'⟩ := s'
    simp [joined, eq_comm, and_comm]
  | cons w words ih =>
    obtain ⟨loc, raw, mid, rfl, spells⟩ := spells
    obtain ⟨first, others⟩ := forall_mem_cons.1 known
    rw [length_cons] at deep
    obtain _ | d := depth
    · omega
    rw [specifierWords_cons first spells.whole, joined_cons s.linkage w words]
    cases joined s.linkage [w] with
    | none =>
      constructor
      · rintro ⟨⟩
      · rintro ⟨-, ⟨⟩, -⟩
    | some linkage =>
      rw [Option.elim_some, Option.bind_some, ih others spells (by omega)]
      by_cases isType : w ∈ typeWords <;> simp [isType]

/-- Specifiers in any order: they are accepted just if not both storage classes are among them and the other words
but qualifiers are one of the combinations, and then they give the storage class and the type. -/
theorem specifiers_iff (known : ∀ w ∈ words, w.startsDeclaration = true) {tokens : List Token}
    (spelled : tokens.map (·.kind) = words.map .keyword) (whole : rest.Whole)
    (stops : ∀ w, rest.next.kind ≠ .keyword w) (deep : tokens.length < depth) (linkage : Linkage) (type : CType)
    (left : Tokens) :
    specifiers true depth ⟨tokens ++ rest.ahead, rest.stop⟩ = .ok ((linkage, type), left) ↔ left = rest ∧
      (¬ (.static ∈ words ∧ .external ∈ words) ∧ (linkage = .static ↔ .static ∈ words) ∧
        (linkage = .external ↔ .external ∈ words)) ∧
      ∃ entry ∈ namedTypes, entry.1.Perm (words.filter (· ∈ typeWords)) ∧ entry.2 = type := by
  have spells := spells_kinds tokens whole
  have long : tokens.length = words.length := by simpa using congrArg List.length spelled
  rw [spelled] at spells
  rw [long] at deep
  generalize (⟨tokens ++ rest.ahead, rest.stop⟩ : Tokens) = input at spells ⊢
  have types : ∀ w ∈ words.filter (· ∈ typeWords), w ∈ typeWords := by simp
  have plain := @joined_iff words .plain linkage
  simp only [reduceCtorEq, false_or] at plain
  rw [← baseType?_iff types, ← plain, specifiers_eq, run_bind (show here input = .ok (input.next.loc, input) from rfl), bind_eq_ok]
  have reads := fun s after => @specifierWords_iff words input rest after depth {} s known spells deep stops
  simp only [List.append_nil] at reads
  have perm : (words.filter (· ∈ typeWords)).reverse.Perm (words.filter (· ∈ typeWords)) := List.reverse_perm _
  constructor
  · rintro ⟨s, after, read, run⟩
    obtain ⟨rfl, joined, all⟩ := (reads s after).1 read
    rw [all] at run
    split at run
    · cases run
    · rename_i nonempty
      cases named : baseType? (words.filter (· ∈ typeWords)).reverse with
      | none =>
        rw [named] at run
        cases run
      | some type =>
        rw [named] at run
        cases run
        exact ⟨rfl, joined, by simpa using nonempty, baseType?_perm perm ▸ named⟩
  · rintro ⟨rfl, joined, nonempty, named⟩
    refine ⟨⟨linkage, (words.filter (· ∈ typeWords)).reverse⟩, left, (reads _ _).2 ⟨rfl, joined, rfl⟩, ?_⟩
    rw [if_neg (by simpa using nonempty), baseType?_perm perm, named]
    rfl

/-- `long const static unsigned x`. -/
theorem specifiers_iff_shuffled :
    let tokens : List Token := [.long, .const, .static, .unsigned].map (⟨.keyword ·, .start, []⟩)
    let rest : Tokens := ⟨[⟨.ident (ascii "x"), .start, []⟩], .eof .start⟩
    specifiers true 5 ⟨tokens ++ rest.ahead, rest.stop⟩ = .ok ((.static, .unsignedLong), rest) := by
  intro tokens rest
  refine (@specifiers_iff [.long, .const, .static, .unsigned] rest 5 (by decide) tokens rfl nofun nofun
    (by decide) _ _ _).2 ⟨rfl, by decide, ?_⟩
  exact ⟨([.long, .unsigned], .unsignedLong), by decide, .refl _, rfl⟩

end Cof.Grammar
