/-
  Variables are used only while they live.

  A declared variable lives from the instruction that creates it to the end of the innermost scope around
  that instruction.  In the text this scope is closed by the first instruction behind the creation that
  closes more scopes than were opened since, so a variable is `Confined` if nothing before its creation
  names it, and nothing behind such an instruction.
-/
import Cof.Proofs.Shape
import Cof.Proofs.Watched

namespace Cof

open List

namespace Instr

/-! ## Brackets -/

def height (code : List Instr) : Int :=
  (code.countP (·.opcode == .scopeBegin) : Int) - code.countP (·.opcode == .scopeEnd)

theorem height_append (part part' : List Instr) : height (part ++ part') = height part + height part' := by
  simp only [height, countP_append]
  omega

variable {i : Instr} {part inner outer before after : List Instr}

theorem height_other (h : i.isBracket = false) : height [i] = 0 := by
  obtain ⟨opcode, qualifier, operands⟩ := i
  cases opcode with
  | scopeBegin | scopeEnd => cases h
  | _ => rfl

theorem WellNested.height (h : WellNested part) : height part = 0 := by
  induction h with
  | nil => rfl
  | other h => exact height_other h
  | append _ _ ih ih' => rw [height_append, ih, ih']; rfl
  | scope _ ih => rw [height_append, height_append, ih]; rfl

theorem WellNested.height_take (h : WellNested part) (n : Nat) : 0 ≤ Instr.height (part.take n) := by
  induction h generalizing n with
  | nil => rw [take_nil]; exact Int.le_refl _
  | @other i h =>
    cases n with
    | zero => exact Int.le_refl _
    | succ n =>
      rw [take_succ_cons, take_nil, height_other h]
  | append _ _ ih ih' =>
    rw [take_append, height_append]
    exact Int.add_nonneg (ih n) (ih' _)
  | @scope part _ ih =>
    cases n with
    | zero => exact Int.le_refl _
    | succ n =>
      -- The scope that was opened first makes up for the last instruction.
      have last : ∀ k, -1 ≤ Instr.height (List.take k [⟨.scopeEnd, .none, []⟩]) := by
        intro k
        cases k with
        | zero => decide
        | succ k => rw [take_succ_cons, take_nil]; decide
      have opened : Instr.height [⟨.scopeBegin, .none, []⟩] = 1 := rfl
      have inside := ih n
      have closing := last (n - part.length)
      rw [append_assoc, singleton_append, take_succ_cons, take_append,
        ← singleton_append, height_append, height_append]
      omega

theorem WellNested.not_closed (h : WellNested (inner ++ ⟨.scopeEnd, .none, []⟩ :: outer)) : ¬ WellNested inner := by
  intro nested
  have below := h.height_take (inner.length + 1)
  have closed : Instr.height [⟨.scopeEnd, .none, []⟩] = -1 := rfl
  rw [take_length_add_append, take_succ_cons, take_zero, height_append, nested.height] at below
  omega

theorem WellNested.closed_unique {inner' outer' : List Instr} (h : WellNested inner) (h' : WellNested inner')
    (same : inner ++ ⟨.scopeEnd, .none, []⟩ :: outer = inner' ++ ⟨.scopeEnd, .none, []⟩ :: outer') :
    outer = outer' := by
  rcases append_eq_append_iff.1 same with ⟨more, rfl, rest⟩ | ⟨more, rfl, rest⟩
  · cases more with
    | nil => exact (List.cons.inj rest).2
    | cons i more =>
      obtain ⟨rfl, rfl⟩ := List.cons.inj rest
      exact absurd h h'.not_closed
  · cases more with
    | nil => exact (List.cons.inj rest).2.symm
    | cons i more =>
      obtain ⟨rfl, rfl⟩ := List.cons.inj rest
      exact absurd h' h.not_closed

/-! ## Lifetimes in the text -/

/-- Nothing names a variable before the instruction that creates it, or behind the end of the innermost
scope around that instruction. -/
def Confined (code : List Instr) : Prop :=
  ∀ before i after id, code = before ++ i :: after → i.created? = some id →
    (∀ j ∈ before, id ∉ j.names) ∧
      ∀ inner outer, after = inner ++ ⟨.scopeEnd, .none, []⟩ :: outer → WellNested inner → ∀ j ∈ outer, id ∉ j.names

theorem Confined.nodup {code : List Instr} (h : Confined code) : (creations code).Nodup := by
  have first : ∀ before i after id, code = before ++ i :: after → i.created? = some id →
      ∀ j ∈ before, id ∉ j.names := fun before i after id split creates => (h before i after id split creates).1
  clear h
  induction code with
  | nil => exact nodup_nil
  | cons i rest ih =>
    have later : (creations rest).Nodup := ih fun before j after id split creates k mem =>
      first (i :: before) j after id (congrArg (i :: ·) split) creates k (mem_cons_of_mem _ mem)
    cases creates : i.created? with
    | none => rwa [creations, filterMap_cons_none creates]
    | some id =>
      rw [creations, filterMap_cons_some creates]
      refine nodup_cons.2 ⟨fun again => ?_, later⟩
      obtain ⟨j, mem, creates'⟩ := mem_filterMap.1 again
      obtain ⟨before, after, rfl⟩ := append_of_mem mem
      exact first (i :: before) j after id rfl creates' i (mem_cons_self ..) (mem_names_of_created creates)

end Instr

namespace Lowering

variable {s s' : State} {part : List Instr} {id : UInt32} {i : Instr}

/-! ## Programs -/

theorem Outside.sound (h : Outside s) : Sound s := ⟨h.made, h.used⟩

theorem Lives.new_of_outside (h : Lives s s' part) (outside : Outside s)
    (mem : i ∈ part) (names : id ∈ i.names) : NewId s s' id :=
  (h.names i mem id names).resolve_left (outside.slots id)

def Apart (item item' : List Instr) : Prop := ∀ i ∈ item, ∀ j ∈ item', i.names.Disjoint j.names

/-- Code that a piece of file scope was lowered to, before the last numbers were given out. -/
def Arises (last : State) (t : TopLevel) (item : List Instr) : Prop :=
  ∃ s u, Outside s ∧ topLevel t s = .ok () u ∧ u.code.reverse = s.code.reverse ++ item ∧
    u.variableCount ≤ last.variableCount ∧ u.labelCount ≤ last.labelCount

theorem Arises.shape {last : State} {t : TopLevel} {item : List Instr} (h : Arises last t item) : t.Shape item := by
  obtain ⟨s, u, _, run, code, _⟩ := h
  obtain ⟨item', _, shape, provides, _⟩ := topLevel_eq_ok run
  have code' : u.code.reverse = s.code.reverse ++ item' := by
    rw [provides.written.code, reverse_append, reverse_reverse]
  rwa [append_cancel_left (code.symm.trans code')]

theorem topLevels_lives {ts : List TopLevel} (outside : Outside s) (run : ts.forM topLevel s = .ok () s') :
    ∃ items, Lives s s' items.flatten ∧ List.Forall₂ (Arises s') ts items ∧
      (s'.variableCount ≤ 2 ^ 32 → items.Pairwise Apart) := by
  induction ts generalizing s with
  | nil =>
    obtain ⟨_, rfl⟩ := pure_eq_ok.1 run
    exact ⟨[], (Stretch.refl [] outside.sound).lives, .nil, fun _ => .nil⟩
  | cons t ts ih =>
    obtain ⟨_, u, first, rest⟩ := bind_eq_ok.1 run
    obtain ⟨item, made, marked, -⟩ := watches_topLevel outside.sound first
    have lives := marked.toLives
    have outside' := outside.topLevel first
    obtain ⟨items, more, arise, apart⟩ := ih outside' rest
    obtain ⟨_, appended, _⟩ := topLevels_labelled outside'.loops rest
    have arises : Arises s' t item := ⟨s, u, outside, first, lives.code, more.counted, appended.since⟩
    refine ⟨item :: items, lives.trans more, .cons arises arise, fun small => ?_⟩
    refine pairwise_cons.2 ⟨fun other mem i here j there id names names' => ?_, apart small⟩
    have new := more.new_of_outside outside' (mem_flatten.2 ⟨other, mem, there⟩) names'
    exact new.not_numbered small (lives.used here names)

theorem Lives.small {code : List Instr} (h : Lives {} s code) (few : s.code.length < 2 ^ 31) :
    s.variableCount ≤ 2 ^ 32 := by
  have paid : s.variableCount ≤ 0 + code.countP Instr.pays := h.paid
  have counted := countP_le_length (p := Instr.pays) (l := code)
  have length : s.code.length = code.length := by simpa using congrArg List.length h.code
  omega

end Lowering

/-! ## Decoded code -/

namespace Instr

theorem WellNested.normal {part : List Instr} (h : WellNested part) : WellNested (part.map Instr.normal) := by
  induction h with
  | nil => exact .nil
  | other h => exact .other h
  | append _ _ ih ih' => rw [map_append]; exact ih.append ih'
  | scope _ ih => rw [map_append, map_append]; exact ih.scope

end Instr

open Cof.Lowering Cof.Module

theorem Lowering.Apart.normal {item item' : List Instr} (h : Apart item item') :
    Apart (item.map Instr.normal) (item'.map Instr.normal) := by
  intro _ mem _ mem'
  obtain ⟨i, here, rfl⟩ := mem_map.1 mem
  obtain ⟨j, there, rfl⟩ := mem_map.1 mem'
  rw [Instr.normal_names, Instr.normal_names]
  exact h i here j there

/-- What is known of the code of a whole program holds of its normal form, for whichever instruction
closes the scope. -/
theorem Lowering.Lives.confined {s s' : State} {code : List Instr} (h : Lives s s' code)
    (small : s'.variableCount ≤ 2 ^ 32) : Instr.Confined (code.map Instr.normal) := by
  intro before i after id split creates
  obtain ⟨before, rest, rfl, rfl, behind⟩ := map_eq_append_iff.1 split
  obtain ⟨i, after, rfl, rfl, rfl⟩ := map_eq_cons_iff.1 behind
  rw [Instr.normal_created?] at creates
  obtain ⟨first, lived⟩ := h.spans small before i after id rfl creates
  have away : ∀ {part : List Instr}, (∀ j ∈ part, id ∉ j.names) → ∀ j ∈ part.map Instr.normal, id ∉ j.names := by
    rintro part away _ mem
    obtain ⟨j, here, rfl⟩ := mem_map.1 mem
    rw [Instr.normal_names]
    exact away j here
  refine ⟨away first, fun inner outer closes nested => ?_⟩
  rcases lived with unclosed | ⟨_, inner', outer', rfl, nested', later⟩
  · have whole := unclosed.normal
    rw [closes] at whole
    exact absurd nested whole.not_closed
  · rw [map_append, map_cons] at closes
    obtain rfl := nested'.normal.closed_unique nested closes
    exact away later

/-- In a compiled module each variable is created once, and used only behind its creation and up to the
end of the innermost scope around it.  No two functions have a variable in common, so those created
outside of any scope, the parameters, are used only in the frame of their function. -/
theorem compile_confined {source bytes : Bytes} (h : compile source = .ok bytes) :
    ∃ p v code items, Program.parse source = .ok p ∧ View.parse bytes = .ok v ∧
      Instr.decodeStream v.code = .ok code ∧ code = items.flatten ∧ List.Forall₂ TopLevel.Shape p items ∧
      Instr.WellNested code ∧ (Instr.creations code).Nodup ∧ Instr.Confined code ∧ items.Pairwise Apart := by
  obtain ⟨p, s, v, parsed, made, few, -, view, decoded⟩ := compile_topLevels h
  obtain ⟨items, lives, arise, apart⟩ := topLevels_lives outside_empty made
  have small := lives.small few
  have whole : s.code.reverse = items.flatten := by simpa using lives.code
  have shapes : List.Forall₂ TopLevel.Shape p items := arise.imp fun _ _ arises => arises.shape
  have confined := lives.confined small
  rw [whole] at decoded
  exact ⟨p, v, _, items.map (List.map Instr.normal), parsed, view, decoded, List.map_flatten,
    shapes_normal (Program.wellFormed_of_parse parsed) shapes, lives.nested.normal, confined.nodup, confined,
    List.pairwise_map.2 ((apart small).imp Apart.normal)⟩

/-- One name for two variables: a parameter, and a variable of a block that hides it. -/
def hidden : Bytes := ascii "int f(int a)\x7b\x7bint a=1;\x7dreturn a;\x7d"

/-- Each of them has a number and a place of its own. -/
theorem compile_confined_hidden : ∃ bytes, compile hidden = .ok bytes ∧
    ∃ p v code items, Program.parse hidden = .ok p ∧ View.parse bytes = .ok v ∧
      Instr.decodeStream v.code = .ok code ∧ code = items.flatten ∧ List.Forall₂ TopLevel.Shape p items ∧
      Instr.WellNested code ∧ (Instr.creations code).Nodup ∧ Instr.Confined code ∧ items.Pairwise Apart ∧
      (Instr.creations code).length = 2 := by
  have computed : compilesWith hidden (fun _ code => (Instr.creations code).length = 2) = true := by decide +kernel
  obtain ⟨bytes, compiled, holds⟩ := holds_of_compilesWith computed
  obtain ⟨p, v, code, items, parsed, view, decoded, flat, shapes, nested, nodup, confined, apart⟩ :=
    compile_confined compiled
  exact ⟨bytes, compiled, p, v, code, items, parsed, view, decoded, flat, shapes, nested, nodup, confined, apart,
    holds v code view decoded⟩

/-! ## Creation before use

Declared variables are created before they are used, but for those that can be skipped.  A declaration may
stand where a statement is expected, without a block around it: as a branch of an `if`
or as the body of a loop.  Its names are then in sight behind the `if` or the loop, but a path need not
have come past it.  So `if (c) int x; x = 1;` uses a variable that was perhaps never created. -/

namespace Lowering

open Instr (creations)

variable {item : List Instr} {count : Nat}

theorem exists_agrees (promise : Nat → Prop) (first : Nat) (short : count < 2 ^ 31) :
    ∃ Λ, Agrees promise first count Λ := by
  refine ⟨fun l => promise l.toInt.toNat, fun n _ below => ?_⟩
  simp only [Int32.toInt_ofNat_of_lt (Nat.lt_trans below short), Int.toNat_natCast]

/-- The variables of a piece of file scope, in the order of the text: those that cannot be skipped are created
first. -/
def CreatesFirst (t : TopLevel) (item : List Instr) : Prop :=
  List.Forall₂ (fun skip id => skip = false → Instr.CreatedFirst item id) t.skippable (creations item)

theorem CreatesFirst.normal {t : TopLevel} (h : CreatesFirst t item) : CreatesFirst t (item.map Instr.normal) := by
  have same : creations (item.map Instr.normal) = creations item := by
    rw [creations, filterMap_map]
    exact filterMap_congr fun i _ => Instr.normal_created? i
  unfold CreatesFirst
  rw [same]
  exact List.Forall₂.imp (fun _ _ first fixed => (first fixed).normal) h

/-- Outside of functions nothing is in sight, so what is watched is created first. -/
theorem Arises.createsFirst {last : State} {t : TopLevel} (h : Arises last t item)
    (small : last.variableCount ≤ 2 ^ 32) (short : last.labelCount < 2 ^ 31) :
    LabelledItem t item ∧ CreatesFirst t item := by
  obtain ⟨s, u, outside, run, code, counted, labels⟩ := h
  obtain ⟨item', appended, labelled⟩ := topLevel_labelled outside.loops run
  obtain rfl : item' = item := append_cancel_left (appended.code.symm.trans code)
  obtain ⟨part, made, marked, flags, watch⟩ := watches_topLevel outside.sound run
  obtain rfl : part = item' := append_cancel_left (marked.code.symm.trans code)
  refine ⟨labelled, ?_⟩
  unfold CreatesFirst
  rw [← flags, ← marked.ids, forall₂_map_left_iff, forall₂_map_right_iff, forall₂_same]
  rintro ⟨skip, id⟩ mem fixed
  obtain ⟨_, promise, guides⟩ := watch (Nat.le_trans counted small) id fun _ => fixed ▸ mem
  -- The labels of the piece are all given out, so what is promised for them is final.
  obtain ⟨Λ, agrees⟩ := exists_agrees promise s.labelCount (Nat.lt_of_le_of_lt labels short)
  have keep : LoopsKeep Λ id s := by
    intro labels inside
    rw [outside.loops] at inside
    cases inside
  exact Instr.createdFirst_of_allGuarded (guides Λ agrees (fun _ => keep) False (outside.slots id)).1

end Lowering

open Cof.Lowering Cof.Module

/-- In a compiled module, on every path through a function, a variable is created before it is used, unless
its creation can be skipped: it was declared, with no block and no `for` in between, in a branch of an `if`
or the body of a `while`.  A function uses none of the variables that are created in another one. -/
theorem compile_createsFirst {source bytes : Bytes} (h : compile source = .ok bytes) :
    ∃ p v code items, Program.parse source = .ok p ∧ View.parse bytes = .ok v ∧
      Instr.decodeStream v.code = .ok code ∧ code = items.flatten ∧
      List.Forall₂ (fun t item => LabelledItem t item ∧ CreatesFirst t item) p items ∧ items.Pairwise Apart := by
  obtain ⟨p, s, v, parsed, made, few, short, view, decoded⟩ := compile_topLevels h
  obtain ⟨items, lives, arise, apart⟩ := topLevels_lives outside_empty made
  have small := lives.small few
  have whole : s.code.reverse = items.flatten := by simpa using lives.code
  rw [whole] at decoded
  refine ⟨p, v, _, items.map (List.map Instr.normal), parsed, view, decoded, List.map_flatten, ?_,
    List.pairwise_map.2 ((apart small).imp Apart.normal)⟩
  rw [List.forall₂_map_right_iff]
  refine arise.imp fun t item arises => ?_
  obtain ⟨labelled, creates⟩ := arises.createsFirst small short
  exact ⟨labelled.normal, creates.normal⟩

def bare : Bytes := ascii "void f()\x7bdo int x;while(x);if(x)int y;\x7d"

/-- Only the branch can be skipped. -/
theorem compile_createsFirst_bare : ∃ bytes, compile bare = .ok bytes ∧
    ∃ p v code items, Program.parse bare = .ok p ∧ p.map TopLevel.skippable = [[false, true]] ∧
      View.parse bytes = .ok v ∧ Instr.decodeStream v.code = .ok code ∧ code = items.flatten ∧
      List.Forall₂ (fun t item => LabelledItem t item ∧ CreatesFirst t item) p items ∧ items.Pairwise Apart := by
  have computed : (compile bare).toOption.any (fun _ => (Program.parse bare).toOption.any fun p =>
      p.map TopLevel.skippable == [[false, true]]) = true := by decide +kernel
  obtain ⟨bytes, compiled, read⟩ := ok_of_any computed
  obtain ⟨p', parsed', flags⟩ := ok_of_any read
  obtain ⟨p, v, code, items, parsed, rest⟩ := compile_createsFirst compiled
  obtain rfl : p' = p := Except.ok.inj (parsed'.symm.trans parsed)
  exact ⟨bytes, compiled, p', v, code, items, parsed, beq_iff_eq.1 flags, rest⟩

/-- A variable that is used behind the branch in which it is created. -/
def skipped : Bytes := ascii "void f(int c)\x7bif(c)int x;x=1;\x7d"

/-- The way past the branch uses the variable without creating it. -/
theorem compile_skipped_not_createdFirst : ∃ bytes v code, compile skipped = .ok bytes ∧
    View.parse bytes = .ok v ∧ Instr.decodeStream v.code = .ok code ∧
    code.head? = some (.function (ascii "f")) ∧ ∃ id ∈ Instr.creations code, ¬ Instr.CreatedFirst code id := by
  have computed : compilesWith skipped (fun _ code =>
        code.head? = some (.function (ascii "f")) ∧ 2 ∈ Instr.creations code ∧
          Instr.Path code [12, 11, 10, 7, 6, 5, 4, 3, 2, 1, 0] 13 ∧
          (∃ i ∈ code[13]?, 2 ∈ i.names ∧ i.created? ≠ some 2) ∧
          ¬ Instr.CreatedAt code [12, 11, 10, 7, 6, 5, 4, 3, 2, 1, 0] 2) = true := by decide +kernel
  obtain ⟨bytes, v, code, compiled, view, decoded, named, created, path, ⟨i, here, names, other⟩, missing⟩ :=
    ok_of_compilesWith computed
  refine ⟨bytes, v, code, compiled, view, decoded, named, 2, created, fun first => ?_⟩
  exact (first _ 13 i path here names).elim other missing

end Cof
