/-
  Types are told apart by their spelling.

  A spelling is a word with suffixes: stars, bounds of arrays and lists of parameters, with no brackets for
  grouping.  It is read backwards here: the last letter says what the outermost layer is, and what stands to
  the left of a type is nothing, the bracket of a list or a comma, none of which goes on with the type's
  first word (`Opens`).
-/
import Cof.Proofs.Canonical
import Cof.Proofs.Refused
import Mathlib.Data.List.Infix

namespace Cof

open List

namespace CType

/-! ## Backwards -/

/-- An entry of a list of parameters is a type, or the dots at the end. -/
def entryText : Option CType → String
  | some t => t.display
  | none => "..."

def backwards (entry : Option CType) : List Char := (entryText entry).toList.reverse

/-- What stands to the left of an entry: the entries before it, last one first, and then what the list is a
suffix of. -/
def leftOf : List (Option CType) → List Char → List Char
  | [], outside => '(' :: ' ' :: outside
  | entry :: before, outside => ' ' :: ',' :: (backwards entry ++ leftOf before outside)

/-- A list of parameters, last one first, and what it is a suffix of. -/
def inside : List (Option CType) → List Char → List Char
  | [], outside => leftOf [] outside
  | entry :: before, outside => backwards entry ++ leftOf before outside

def entries (params : List CType) (variadic : Bool) : List (Option CType) :=
  params.map some ++ if variadic then [none] else []

def lengthText : ArraySize → List Char
  | .fixed count => (Nat.toDigits 10 count.toNat).reverse
  | .unsized => []

variable {t : CType} {entry : Option CType} {before : List (Option CType)} {outside : List Char}

theorem backwards_pointer (t : CType) : backwards (some (pointer t)) = '*' :: ' ' :: backwards (some t) := by
  simp [backwards, entryText, display]

theorem backwards_array (t : CType) (size : ArraySize) :
    backwards (some (array t size)) = ']' :: (lengthText size ++ '[' :: ' ' :: backwards (some t)) := by
  cases size with
  | unsized => simp [backwards, entryText, display, lengthText]
  | fixed count =>
    have spelled : (array t (.fixed count)).display = t.display ++ (" [" ++ count.toNat.repr ++ "]") := rfl
    simp [backwards, entryText, spelled, Nat.repr_eq_ofList_toDigits, lengthText]

theorem leftOf_eq (some_before : before ≠ []) : leftOf before outside = ' ' :: ',' :: inside before outside := by
  cases before with
  | nil => exact absurd rfl some_before
  | cons entry before => rfl

theorem intercalate_backwards (items : List (Option CType)) (outside : List Char) :
    (", ".intercalate (items.map entryText)).toList.reverse ++ '(' :: ' ' :: outside =
      inside items.reverse outside := by
  induction items using List.reverseRecOn with
  | nil => rfl
  | append_singleton items entry ih =>
    rw [map_append, reverse_append]
    show _ = backwards entry ++ leftOf items.reverse outside
    by_cases first : items = []
    · subst first
      rfl
    · rw [String.intercalate_append_of_ne_nil (by simpa using first) (by simp), map_singleton,
        String.intercalate_singleton, leftOf_eq (by simpa using first), ← ih]
      simp [backwards]

theorem backwards_function (result : CType) (params : List CType) (variadic : Bool) :
    backwards (some (function result params variadic)) =
      ')' :: inside (entries params variadic).reverse (backwards (some result)) := by
  have texts : displayAll params = params.map display := by
    induction params with
    | nil => rfl
    | cons t params ih => rw [displayAll, ih, map_cons]
  have listing : displayAll params ++ (if variadic then ["..."] else []) =
      (entries params variadic).map entryText := by
    rw [entries, map_append, map_map, texts]
    cases variadic <;> rfl
  rw [← intercalate_backwards]
  simp [backwards, entryText, display, listing]

/-! ## Words -/

def wordEntries : List (Option CType) :=
  [none, some void, some (floating .f32), some (floating .f64)] ++
    [IntWidth.w8, .w16, .w32, .w64].flatMap fun width => [some (integral width true), some (integral width false)]

def continues : List Char → Bool
  | [] => false
  | c :: left => c.isLower || c == '.' || c == ' ' && left.head?.any Char.isLower

/-- Whether something can stand to the left of an entry. -/
def Opens (left : List Char) : Prop := continues left = false

theorem opens_leftOf (before : List (Option CType)) (outside : List Char) : Opens (leftOf before outside) := by
  cases before <;> rfl

theorem continues_append {front : List Char} (h : continues front = true) (more : List Char) :
    continues (front ++ more) = true := by
  match front with
  | [c] =>
    have word : (c.isLower || c == '.') = true := by simpa [continues] using h
    simp [continues, word]
  | c :: d :: front => exact h

theorem backwards_words : ∀ w ∈ wordEntries, ∀ w' ∈ wordEntries, backwards w = backwards w' → w = w' := by decide

theorem continues_words : ∀ w ∈ wordEntries, ∀ left ∈ (backwards w).tails, left ≠ [] → continues left = true := by
  decide

/-! ## Layers -/

/-- What an entry is on the outside. -/
inductive Layer where
  | word | pointer | array | function
deriving DecidableEq

def layer : Option CType → Layer
  | some (pointer _) => .pointer
  | some (array ..) => .array
  | some (function ..) => .function
  | _ => .word

/-- The layer of an entry from its last letter.  No entry ends in an opening bracket. -/
def layerOf : Char → Option Layer
  | '*' => some .pointer
  | ']' => some .array
  | ')' => some .function
  | '(' => none
  | _ => some .word

theorem mem_words (h : layer entry = .word) : entry ∈ wordEntries := by
  match entry with
  | none | some void => decide
  | some (integral width signed) => cases width <;> cases signed <;> decide
  | some (floating width) => cases width <;> decide

theorem pointer_of_layer (h : layer entry = .pointer) : ∃ target, entry = some (pointer target) := by
  match entry with
  | some (pointer target) => exact ⟨target, rfl⟩

theorem array_of_layer (h : layer entry = .array) : ∃ element size, entry = some (array element size) := by
  match entry with
  | some (array element size) => exact ⟨element, size, rfl⟩

theorem function_of_layer (h : layer entry = .function) :
    ∃ result params variadic, entry = some (function result params variadic) := by
  match entry with
  | some (function result params variadic) => exact ⟨result, params, variadic, rfl⟩

theorem layerOf_words : ∀ w ∈ wordEntries, ((backwards w).head?).bind layerOf = some .word := by decide

theorem layerOf_last (entry : Option CType) (left : List Char) :
    ((backwards entry ++ left).head?).bind layerOf = some (layer entry) := by
  cases outermost : layer entry with
  | word =>
    obtain ⟨c, last, word⟩ := Option.bind_eq_some_iff.1 (layerOf_words entry (mem_words outermost))
    rw [head?_append, last]
    exact word
  | pointer =>
    obtain ⟨target, rfl⟩ := pointer_of_layer outermost
    rw [backwards_pointer]
    rfl
  | array =>
    obtain ⟨element, size, rfl⟩ := array_of_layer outermost
    rw [backwards_array]
    rfl
  | function =>
    obtain ⟨result, params, variadic, rfl⟩ := function_of_layer outermost
    rw [backwards_function]
    rfl

theorem layer_eq {entry' : Option CType} {left left' : List Char}
    (same : backwards entry ++ left = backwards entry' ++ left') : layer entry = layer entry' := by
  have last := layerOf_last entry left
  rw [same, layerOf_last entry' left'] at last
  exact (Option.some.inj last).symm

/-! ## Reading -/

/-- The letters of an entry, and of what can stand to its left, determine both. -/
def ReadsOnce (entry : Option CType) : Prop :=
  ∀ entry' left left', Opens left → Opens left' → backwards entry ++ left = backwards entry' ++ left' →
    entry = entry' ∧ left = left'

theorem left_of_word {entry' : Option CType} {left left' : List Char} (word' : entry' ∈ wordEntries) (opens : Opens left)
    (longer : ∃ more, backwards entry' = backwards entry ++ more ∧ left = more ++ left') :
    backwards entry = backwards entry' ∧ left = left' := by
  obtain ⟨more, rest, rfl⟩ := longer
  by_cases none : more = []
  · subst none
    exact ⟨by rw [rest, append_nil], rfl⟩
  · have tail : more ∈ (backwards entry').tails := by
      rw [mem_tails, rest]
      exact suffix_append _ _
    have goes_on := continues_append (continues_words entry' word' more tail none) left'
    exact absurd (goes_on.symm.trans opens) (by decide)

theorem readsOnce_word (word : layer entry = .word) : ReadsOnce entry := by
  intro entry' left left' opens opens' same
  have known := mem_words word
  have known' := mem_words ((layer_eq same).symm.trans word)
  have both : backwards entry = backwards entry' ∧ left = left' := by
    rcases append_eq_append_iff.1 same with longer | longer
    · exact left_of_word known' opens longer
    · exact (left_of_word known opens' longer).imp Eq.symm Eq.symm
  exact ⟨backwards_words entry known entry' known' both.1, both.2⟩

theorem leftOf_inj {before' : List (Option CType)} {outside' : List Char}
    (reads : ∀ entry ∈ before, ReadsOnce entry) (same : leftOf before outside = leftOf before' outside') :
    before = before' ∧ outside = outside' := by
  induction before generalizing before' with
  | nil =>
    cases before' with
    | nil => exact ⟨rfl, by simpa [leftOf] using same⟩
    | cons => simp [leftOf] at same
  | cons entry before ih =>
    cases before' with
    | nil => simp [leftOf] at same
    | cons entry' before' =>
      have letters : backwards entry ++ leftOf before outside = backwards entry' ++ leftOf before' outside' := by
        simpa [leftOf] using same
      obtain ⟨rfl, rest⟩ := reads entry mem_cons_self entry' _ _ (opens_leftOf _ _) (opens_leftOf _ _) letters
      obtain ⟨rfl, outsides⟩ := ih (fun e he => reads e (mem_cons_of_mem _ he)) rest
      exact ⟨rfl, outsides⟩

theorem inside_nil_ne (entry : Option CType) (before : List (Option CType)) (outside outside' : List Char) :
    inside [] outside ≠ inside (entry :: before) outside' := by
  intro same
  have last := layerOf_last entry (leftOf before outside')
  rw [show backwards entry ++ leftOf before outside' = '(' :: ' ' :: outside from same.symm] at last
  cases last

theorem inside_inj {before' : List (Option CType)} {outside' : List Char}
    (reads : ∀ entry ∈ before, ReadsOnce entry) (same : inside before outside = inside before' outside') :
    before = before' ∧ outside = outside' := by
  match before, before' with
  | [], [] => exact leftOf_inj reads same
  | [], entry' :: before' => exact (inside_nil_ne _ _ _ _ same).elim
  | entry :: before, [] => exact (inside_nil_ne _ _ _ _ same.symm).elim
  | entry :: before, entry' :: before' => exact leftOf_inj reads (congrArg (' ' :: ',' :: ·) same)

theorem inside_append (before : List (Option CType)) (outside left : List Char) :
    inside before outside ++ left = inside before (outside ++ left) := by
  have lefts : ∀ before, leftOf before outside ++ left = leftOf before (outside ++ left) := by
    intro before
    induction before with
    | nil => rfl
    | cons entry before ih => simp only [leftOf, cons_append, append_assoc, ih]
  cases before with
  | nil => rfl
  | cons entry before => rw [inside, inside, append_assoc, lefts]

theorem mem_entries {params : List CType} {variadic : Bool} (h : some t ∈ entries params variadic) : t ∈ params := by
  cases variadic <;> simpa [entries] using h

theorem entries_inj {params params' : List CType} {variadic variadic' : Bool}
    (same : entries params variadic = entries params' variadic') : params = params' ∧ variadic = variadic' := by
  have types : ∀ params variadic, (entries params variadic).filterMap id = params := by
    cases variadic <;> simp [entries]
  have dots : ∀ params variadic, (none ∈ entries params variadic) ↔ variadic = true := by
    cases variadic <;> simp [entries]
  constructor
  · rw [← types params variadic, same, types]
  · rw [Bool.eq_iff_iff, ← dots params variadic, same, dots]

theorem takeWhile_lengthText (size : ArraySize) (left : List Char) :
    (lengthText size ++ '[' :: left).takeWhile (· ≠ '[') = lengthText size := by
  rw [takeWhile_append_of_pos, takeWhile_cons_of_neg (by simp), append_nil]
  cases size with
  | unsized => exact forall_mem_nil _
  | fixed count =>
    intro c digit
    have read := Nat.isDigit_of_mem_toDigits (by decide) (by decide) (mem_reverse.1 digit)
    exact decide_eq_true fun bracket => absurd (bracket ▸ read) (by decide)

theorem lengthText_inj {size size' : ArraySize} (same : lengthText size = lengthText size') : size = size' := by
  have long : ∀ count : UInt64, lengthText (.fixed count) ≠ [] := by
    intro count
    exact mt reverse_eq_nil_iff.1 Nat.toDigits_ne_nil
  cases size with
  | unsized =>
    cases size' with
    | unsized => rfl
    | fixed count => exact absurd same.symm (long count)
  | fixed count =>
    cases size' with
    | unsized => exact absurd same (long count)
    | fixed count' =>
      have digits := congrArg (Nat.ofDigitChars 10 · 0) (reverse_inj.1 same)
      simp only [Nat.ofDigitChars_ten_toDigits] at digits
      rw [UInt64.toNat_inj.1 digits]

mutual

theorem readsOnce (t : CType) : ReadsOnce (some t) := by
  match t with
  | void => exact readsOnce_word rfl
  | integral .. => exact readsOnce_word rfl
  | floating _ => exact readsOnce_word rfl
  | pointer target =>
    intro entry' left left' opens opens' same
    obtain ⟨target', rfl⟩ := pointer_of_layer (layer_eq same).symm
    rw [backwards_pointer, backwards_pointer] at same
    obtain ⟨h, lefts⟩ := readsOnce target _ _ _ opens opens' (List.cons.inj (List.cons.inj same).2).2
    exact ⟨by rw [Option.some.inj h], lefts⟩
  | array element size =>
    intro entry' left left' opens opens' same
    obtain ⟨element', size', rfl⟩ := array_of_layer (layer_eq same).symm
    rw [backwards_array, backwards_array, cons_append, cons_append, append_assoc, append_assoc] at same
    have lengths := congrArg (List.takeWhile (· ≠ '[')) (List.cons.inj same).2
    simp only [cons_append, takeWhile_lengthText] at lengths
    obtain rfl := lengthText_inj lengths
    have rest := append_cancel_left (List.cons.inj same).2
    obtain ⟨elements, lefts⟩ := readsOnce element _ _ _ opens opens' (List.cons.inj (List.cons.inj rest).2).2
    exact ⟨by rw [Option.some.inj elements], lefts⟩
  | function result params variadic =>
    intro entry' left left' opens opens' same
    obtain ⟨result', params', variadic', rfl⟩ := function_of_layer (layer_eq same).symm
    rw [backwards_function, backwards_function, cons_append, cons_append, inside_append, inside_append] at same
    have listed : ∀ entry ∈ (entries params variadic).reverse, ReadsOnce entry := by
      intro entry mem
      cases entry with
      | none => exact readsOnce_word rfl
      | some t => exact readsOnce_all params t (mem_entries (mem_reverse.1 mem))
    obtain ⟨items, rest⟩ := inside_inj listed (List.cons.inj same).2
    obtain ⟨rfl, rfl⟩ := entries_inj (reverse_inj.1 items)
    obtain ⟨results, lefts⟩ := readsOnce result _ _ _ opens opens' rest
    exact ⟨by rw [Option.some.inj results], lefts⟩

theorem readsOnce_all (ts : List CType) : ∀ t ∈ ts, ReadsOnce (some t) := by
  match ts with
  | [] => exact forall_mem_nil _
  | t :: ts => exact forall_mem_cons.2 ⟨readsOnce t, readsOnce_all ts⟩

end

theorem display_inj {t t' : CType} (same : t.display = t'.display) : t = t' := by
  have letters : backwards (some t) ++ [] = backwards (some t') ++ [] :=
    congrArg (·.toList.reverse ++ []) same
  exact Option.some.inj (readsOnce t _ [] [] rfl rfl letters).1

end CType

namespace Lowering

/-! ## Messages -/

theorem declareFunction_differs {f : FunctionDecl} {isDefinition : Bool} {s s' : State} {name : Name}
    {now before : CType} {loc : Location} (failed : declareFunction f isDefinition s =
      .error (.fault (.conflictingDeclaration name (.typeDiffers now before)) loc) s') : now ≠ before := by
  rcases bind_eq_error.1 failed with failed | ⟨_, t, -, failed⟩
  · unfold recordFunction at failed
    rw [global?_bind] at failed
    cases found : s.globals.find? (·.name == f.name) with
    | none =>
      rw [found] at failed
      cases failed
    | some g =>
      rw [found] at failed
      dsimp only at failed
      split at failed
      · cases failed
      · split at failed
        · cases failed
          rename_i _ differs
          exact Ne.symm differs
        · split at failed <;> cases failed
  · obtain ⟨scopes, bound⟩ := bindGlobal_total f.name f.type f.loc
    cases bound.symm.trans failed

/-- Types under different numbers of an arena in use are spelled differently, and so are the two types in the
message about a function that is declared with another type. -/
theorem spelling_distinguishes :
    (∀ cs u, Arena.Usage.new.calls cs = some u → ∀ handle ∈ u.returned, ∀ handle' ∈ u.returned,
      (u.arena.tree handle).display = (u.arena.tree handle').display → handle = handle') ∧
    ∀ f isDefinition s s' name now before loc,
      declareFunction f isDefinition s = .error (.fault (.conflictingDeclaration name (.typeDiffers now before)) loc) s' →
        now.display ≠ before.display := by
  constructor
  · intro cs u made handle hh handle' hh' same
    have sound := (Arena.Usage.sound_new.calls made).sound
    exact sound.tree_inj (sound.returned handle hh) (sound.returned handle' hh') (CType.display_inj same)
  · intro f isDefinition s s' name now before loc failed same
    exact declareFunction_differs failed (CType.display_inj same)

/-- `int [3]` and `int []`. -/
theorem spelling_distinguishes_arrays :
    let cs := [.layer (.integral .w32 true), .layer (.array 0 (.fixed 3)), .layer (.array 0 .unsized)]
    ∃ u, Arena.Usage.new.calls cs = some u ∧ (u.arena.tree 1).display ≠ (u.arena.tree 2).display := by
  intro cs
  obtain ⟨u, made⟩ : ∃ u, Arena.Usage.new.calls cs = some u := Option.isSome_iff_exists.1 (by decide)
  have three : (Arena.Usage.new.calls cs).map (·.returned) = some [2, 1, 0] := by decide
  rw [made] at three
  have returned : u.returned = [2, 1, 0] := Option.some.inj three
  refine ⟨u, made, fun same => ?_⟩
  cases spelling_distinguishes.1 cs u made 1 (by rw [returned]; decide) 2 (by rw [returned]; decide) same

end Lowering

end Cof
