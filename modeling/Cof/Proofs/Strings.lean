/-
  The string table over any sequence of insertions.

  One insertion only adds to a table: names are found where they were, and the bytes begin as they did
  (`grows_insert`).  The names that a table holds are those that were inserted, each once, in the order of
  the first insertions (`held_filled`), and the bytes are theirs (`toBytes_filled`).
-/
import Cof.Proofs.Layout
import Mathlib.Data.List.Induction

namespace Cof.Module.StringTable

open List

variable {t t' : StringTable} {name : Name} {offset : UInt32} {names : List Name}

/-! ## One insertion -/

def held (t : StringTable) : List Name := (t.entries.map Prod.fst).reverse

def closed (names : List Name) : Bytes := names.flatMap (· ++ [0])

/-- A later table has what an earlier one had, in the same places. -/
structure Grows (t t' : StringTable) : Prop where
  found : ∀ name offset, t.find? name = some offset → t'.find? name = some offset
  bytes : t.toBytes <+: t'.toBytes

theorem find?_eq_none : t.find? name = none ↔ name ∉ t.held := by
  rw [find?, lookup_eq_none_iff, held, mem_reverse, mem_map]
  constructor
  · rintro new ⟨entry, mem, rfl⟩
    exact absurd (new entry mem) (by simp)
  · intro new entry mem
    exact bne_iff_ne.2 fun same => new ⟨entry, mem, same.symm⟩

theorem grows_insert (t : StringTable) (name : Name) : Grows t (t.insert name).2 := by
  unfold insert
  cases new : t.find? name with
  | some _ => exact ⟨fun _ _ found => found, prefix_rfl⟩
  | none =>
    refine ⟨fun name' offset found => ?_, by simp [toBytes]⟩
    have other : (name' == name) = false := by
      refine beq_eq_false_iff_ne.2 ?_
      rintro rfl
      cases found.symm.trans new
    show List.lookup name' ((name, _) :: t.entries) = some offset
    rw [lookup_cons, other]
    exact found

theorem find?_insert (t : StringTable) (name : Name) : (t.insert name).2.find? name = some (t.insert name).1 := by
  unfold insert
  cases found : t.find? name with
  | some offset => exact found
  | none => exact lookup_cons_self

theorem held_insert (t : StringTable) (name : Name) :
    (t.insert name).2.held = if name ∈ t.held then t.held else t.held ++ [name] := by
  unfold insert
  cases found : t.find? name with
  | none =>
    rw [if_neg (find?_eq_none.1 found)]
    simp [held]
  | some offset =>
    have old : name ∈ t.held := by
      by_contra new
      rw [find?_eq_none.2 new] at found
      cases found
    rw [if_pos old]

theorem toBytes_insert (bytes : t.toBytes = closed t.held) (name : Name) :
    (t.insert name).2.toBytes = closed (t.insert name).2.held := by
  unfold insert
  cases t.find? name with
  | some offset => exact bytes
  | none => simpa [toBytes, held, closed] using bytes

/-! ## Many insertions -/

def filled (names : List Name) : StringTable := names.foldl (fun t name => (t.insert name).2) empty

/-- The offset that the insertion of a name returns after some others. -/
def offsetAfter (earlier : List Name) (name : Name) : UInt32 := ((filled earlier).insert name).1

theorem filled_concat (names : List Name) (name : Name) : filled (names ++ [name]) = ((filled names).insert name).2 :=
  foldl_append

theorem grows_filled (earlier later : List Name) : Grows (filled earlier) (filled (earlier ++ later)) := by
  induction later using List.reverseRecOn with
  | nil =>
    rw [append_nil]
    exact ⟨fun _ _ found => found, prefix_rfl⟩
  | append_singleton later name ih =>
    rw [← append_assoc, filled_concat]
    have step := grows_insert (filled (earlier ++ later)) name
    exact ⟨fun name offset found => step.found name offset (ih.found name offset found), ih.bytes.trans step.bytes⟩

theorem find?_filled (earlier : List Name) (name : Name) (later : List Name) :
    (filled (earlier ++ name :: later)).find? name = some (offsetAfter earlier name) := by
  rw [append_cons]
  refine (grows_filled (earlier ++ [name]) later).found name _ ?_
  rw [filled_concat]
  exact find?_insert _ _

theorem sound_filled (names : List Name) : (filled names).Sound := by
  induction names using List.reverseRecOn with
  | nil => exact sound_empty
  | append_singleton names name ih =>
    rw [filled_concat]
    exact (ih.insert name).1

theorem held_filled (names : List Name) : (filled names).held = ([] :: names).eraseDups := by
  induction names using List.reverseRecOn with
  | nil => rfl
  | append_singleton names name ih =>
    rw [filled_concat, held_insert, ih, ← cons_append, eraseDups_append, cons_removeAll]
    by_cases old : name ∈ [] :: names
    · rw [if_pos (mem_eraseDups.2 old)]
      simp [old]
    · rw [if_neg (mt mem_eraseDups.1 old)]
      simp [old, eraseDups_cons]

theorem toBytes_filled (names : List Name) :
    (filled names).toBytes = 0 :: closed (names.filter (· ≠ [])).eraseDups := by
  have bytes : (filled names).toBytes = closed (filled names).held := by
    induction names using List.reverseRecOn with
    | nil => rfl
    | append_singleton names name ih =>
      rw [filled_concat]
      exact toBytes_insert ih name
  have nonempty : names.filter (fun name => !name == []) = names.filter (· ≠ []) :=
    filter_congr fun name _ => by cases name <;> rfl
  rw [bytes, held_filled, eraseDups_cons, nonempty]
  rfl

theorem lookup_filled (small : (filled names).toBytes.length < 2 ^ 32)
    (storable : Storable name) (found : (filled names).find? name = some offset) :
    lookup (filled names).toBytes offset = .ok name := by
  obtain ⟨_, _, entries, _⟩ := lookup_eq_some_iff.1 found
  exact ((sound_filled names).entries name offset (by simp [entries])).lookup small storable

/-- The string table: every name is read back at the offset that its insertion returned, then and later;
offsets are equal just if the names are; the empty name is at 0; bytes only are added; and they are a NUL and
then the names other than the empty one, each once and closed by a NUL, in the order of first insertion. -/
theorem insertions_found (storable : ∀ name ∈ names, Storable name) (small : (filled names).toBytes.length < 2 ^ 32) :
    (∀ earlier name later, names = earlier ++ name :: later →
      lookup (filled names).toBytes (offsetAfter earlier name) = .ok name) ∧
    (∀ earlier name later earlier' name' later', names = earlier ++ name :: later →
      names = earlier' ++ name' :: later' → (offsetAfter earlier name = offsetAfter earlier' name' ↔ name = name')) ∧
    (∀ earlier, offsetAfter earlier [] = 0) ∧
    (∀ earlier later, names = earlier ++ later → (filled earlier).toBytes <+: (filled names).toBytes) ∧
    (filled names).toBytes = 0 :: (names.filter (· ≠ [])).eraseDups.flatMap (· ++ [0]) := by
  have read : ∀ earlier name later, names = earlier ++ name :: later →
      lookup (filled names).toBytes (offsetAfter earlier name) = .ok name := by
    rintro earlier name later rfl
    exact lookup_filled small (storable name (by simp)) (find?_filled earlier name later)
  refine ⟨read, ?_, fun earlier => ?_, ?_, toBytes_filled names⟩
  · intro earlier name later earlier' name' later' split split'
    constructor
    · intro same
      have both := read earlier name later split
      rw [same, read earlier' name' later' split'] at both
      exact (Except.ok.inj both).symm
    · rintro rfl
      have first := find?_filled earlier name later
      rw [← split, split', find?_filled] at first
      exact (Option.some.inj first).symm
  · have first := (grows_filled [] (earlier ++ [[]])).found [] 0 rfl
    rw [List.nil_append, find?_filled] at first
    exact Option.some.inj first
  · rintro earlier later rfl
    exact (grows_filled earlier later).bytes

/-- A name, its end, and the name again: the end has an entry of its own. -/
theorem insertions_found_suffix :
    let names := [ascii "ab", ascii "b", ascii "ab"]
    (filled names).toBytes = ascii "\x00ab\x00b\x00" ∧ offsetAfter [ascii "ab"] (ascii "b") = 4 ∧
      lookup (filled names).toBytes (offsetAfter [ascii "ab"] (ascii "b")) = .ok (ascii "b") := by
  intro names
  have clean : names.all (·.all fun b => b ≠ 0 ∧ b.toNat < 0x80) = true := by decide
  obtain ⟨read, -, -, -, bytes⟩ := @insertions_found names (fun name mem => Clean.storable fun b hb =>
    of_decide_eq_true (List.all_eq_true.1 (List.all_eq_true.1 clean name mem) b hb)) (by decide)
  exact ⟨bytes, by decide, read [ascii "ab"] (ascii "b") [ascii "ab"] rfl⟩

end Cof.Module.StringTable
