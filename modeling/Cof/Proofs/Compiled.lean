/-
  What is in a compiled module.

  Compiling is reading, making code and assembling, and the module that comes out holds the code that
  was made: its code section decodes to the instructions in order, in normal form.  Whatever is known of
  the code of a program is thereby known of compiled modules.

  Two things have to be checked on the way.  The names that are listed must be fit for a string table;
  they are words of the source, or made of words, dots and digits.  And the numbers of labels must not
  wrap around; every label has an instruction that defines it, an instruction takes three bytes, and a
  module has less than four gigabytes of code.
-/
import Cof.Proofs.Emission
import Cof.Proofs.Labels

namespace Cof

open Cof.Module Cof.Lowering List

/-! ## Names -/

variable {name : Name} {source bytes : Bytes} {code : List Instr} {count : Nat}

theorem clean_of_words (h : ∀ b ∈ name, isWordByte b = true) : Clean name := by
  have word : ∀ n : Fin 256, isWordByte (.ofFin n) = true →
      UInt8.ofFin n ≠ 0 ∧ (UInt8.ofFin n).toNat < 0x80 := by decide +kernel
  exact fun b hb => word b.toFin (h b hb)

theorem clean_decimal (n : Nat) : Clean (decimal n) :=
  clean_of_words fun b hb => by simp [isWordByte, isDigit_of_mem_decimal hb]

theorem Module.Clean.append {more : Name} (h : Clean name) (h' : Clean more) : Clean (name ++ more) :=
  fun b hb => (mem_append.1 hb).elim (h b) (h' b)

theorem clean_staticName {function : Name} (hf : Clean function) (hn : Clean name) (number : Nat) :
    Clean (staticName function name number) := by
  have dot : Clean (ascii ".") := by
    intro b hb
    obtain rfl : b = '.'.toUInt8 := by simpa [ascii] using hb
    decide
  exact (((hf.append dot).append hn).append dot).append (clean_decimal number)

theorem Lowering.Reached.clean {p : Program} {s : State}
    (parsed : Program.parse source = .ok p) (h : Reached p s) : ∀ symbol ∈ s.symbols, Clean symbol.name := by
  have declared : ∀ name ∈ p.names, Clean name := fun name hname =>
    clean_of_words ((Program.wellFormed_of_parse parsed).isWord hname).bytes
  refine (h.induction (I := fun s => (ofProgram p).Covers s ∧ ∀ symbol ∈ s.symbols, Clean symbol.name)
    ⟨ofProgram_covers p, nofun⟩ ?_).2
  rintro s s' ⟨covers, clean⟩ step
  refine ⟨covers.advance step, ?_⟩
  cases step with
  | setLoops | setFunction => exact clean
  | change step =>
    cases step with
    | growth step => cases step <;> exact clean
    | listSymbol named =>
      intro symbol hsymbol
      rcases mem_cons.1 hsymbol with rfl | hsymbol
      · rcases named with named | ⟨name, number, hname, same⟩
        · exact declared _ named
        · rw [same]
          refine clean_staticName ?_ (declared _ hname) number
          cases function : s.currentFunction with
          | none => exact nofun
          | some f => exact declared f (covers.function f function)
      · exact clean symbol hsymbol
    | enterScope | exitScope | bindName | addGlobal | refineGlobal | countStatic => exact clean

/-! ## Modules -/

theorem compile_eq_ok (h : compile source = .ok bytes) :
    ∃ p s, Program.parse source = .ok p ∧ program p {} = .ok () s ∧
      Instr.Encodable s.code.reverse ∧ ∃ m : Layout, m.WellFormed ∧ bytes = m.toBytes ∧
        m.code = Instr.encodeStream s.code.reverse ∧ m.header.entryPoint = p.entryPoint ∧
        List.Forall₂ Writer.Lists s.symbols.reverse m.symbols := by
  unfold compile at h
  cases parsed : Program.parse source with
  | error e => simp [parsed] at h
  | ok p =>
    cases run : program p {} with
    | error e s => simp [parsed, run] at h
    | ok u s =>
      simp only [parsed, run] at h
      cases assembled : s.module p.entryPoint with
      | error e => simp [assembled, Except.mapError] at h
      | ok bytes' =>
        obtain rfl : bytes' = bytes := by simpa [assembled, Except.mapError] using h
        have reached := reached_program p
        simp only [stateAfter, run] at reached
        have clean : ∀ symbol ∈ s.symbols.reverse, Clean symbol.name := fun symbol hsymbol =>
          reached.clean parsed symbol (mem_reverse.1 hsymbol)
        have carries := carries_program run
        exact ⟨p, s, rfl, run, carries.encodable, module_eq_ok assembled carries clean⟩

/-! ## Labels -/

theorem Lowering.Resolved.normal (h : Resolved code) : Resolved (code.map Instr.normal) where
  targets _ mem l hl := by
    obtain ⟨i, hi, rfl⟩ := mem_map.1 mem
    obtain ⟨j, hj, defined⟩ := h.targets i hi l (by simpa using hl)
    exact ⟨j.normal, mem_map_of_mem hj, by simpa using defined⟩
  addresses _ _ _ split l hl := by
    obtain ⟨older, rest, rfl, rfl, second⟩ := map_eq_append_iff.1 split
    obtain ⟨i, newer, rfl, rfl, rfl⟩ := map_eq_cons_iff.1 second
    obtain ⟨j, hj, data⟩ := h.addresses older i newer rfl l (by simpa using hl)
    exact ⟨j.normal, mem_map_of_mem hj, by simpa using data⟩
  inside _ mem := by
    obtain ⟨i, hi, rfl⟩ := mem_map.1 mem
    exact h.inside i hi

theorem Instr.Inert.normal {i : Instr} (h : i.Inert) : i.normal.Inert :=
  ⟨by simp [h.introduces], by simp [h.targets], by simp [h.addresses], h.inside⟩

theorem Lowering.LabelledItem.normal {t : TopLevel} {item : List Instr} (h : LabelledItem t item) :
    LabelledItem t (item.map Instr.normal) := by
  cases t with
  | declare d =>
    intro _ mem
    obtain ⟨i, hi, rfl⟩ := mem_map.1 mem
    exact (h i hi).normal
  | define f body =>
    obtain ⟨inner, rfl, resolved⟩ := h
    exact ⟨inner.map Instr.normal, by simp [Instr.function, Instr.normal, Operand.normal], resolved.normal⟩

/-- Labels do not wrap around: each has an instruction in code that fits in 32 bits. -/
theorem labelCount_lt (encodable : Instr.Encodable code) (short : (Instr.encodeStream code).length < 2 ^ 32)
    (balanced : Instr.introducedIn code = issued 0 count) : count < 2 ^ 31 := by
  have length : (code.filterMap Instr.introduced?).length = count := by
    have perm := Multiset.coe_eq_coe.1 balanced
    simpa using perm.length_eq
  have few := length_filterMap_le Instr.introduced? code
  have three := Instr.length_encodeStream encodable
  omega

/-- Whether a source compiles to a module with a property that can be computed. -/
def compilesWith (source : Bytes) (P : View → List Instr → Prop) [∀ v code, Decidable (P v code)] : Bool :=
  (compile source).toOption.any fun bytes => (View.parse bytes).toOption.any fun v =>
    (Instr.decodeStream v.code).toOption.any fun code => P v code

section Computed

variable {P : View → List Instr → Prop} [∀ v code, Decidable (P v code)]

theorem ok_of_compilesWith (h : compilesWith source P = true) : ∃ bytes v code, compile source = .ok bytes ∧
    View.parse bytes = .ok v ∧ Instr.decodeStream v.code = .ok code ∧ P v code := by
  obtain ⟨bytes, compiled, h⟩ := ok_of_any h
  obtain ⟨v, view, h⟩ := ok_of_any h
  obtain ⟨code, decoded, holds⟩ := ok_of_any h
  exact ⟨bytes, v, code, compiled, view, decoded, of_decide_eq_true holds⟩

theorem holds_of_compilesWith (h : compilesWith source P = true) : ∃ bytes, compile source = .ok bytes ∧
    ∀ v code, View.parse bytes = .ok v → Instr.decodeStream v.code = .ok code → P v code := by
  obtain ⟨bytes, v, code, compiled, view, decoded, holds⟩ := ok_of_compilesWith h
  refine ⟨bytes, compiled, fun v' code' view' decoded' => ?_⟩
  obtain rfl := Except.ok.inj (view.symm.trans view')
  obtain rfl := Except.ok.inj (decoded.symm.trans decoded')
  exact holds

end Computed

theorem compile_topLevels (h : compile source = .ok bytes) :
    ∃ p s v, Program.parse source = .ok p ∧ p.forM topLevel {} = .ok () s ∧ s.code.length < 2 ^ 31 ∧
      s.labelCount < 2 ^ 31 ∧ View.parse bytes = .ok v ∧
      Instr.decodeStream v.code = .ok (s.code.reverse.map Instr.normal) := by
  obtain ⟨p, s, parsed, run, encodable, m, wellFormed, rfl, code, -, -⟩ := compile_eq_ok h
  obtain ⟨items, -, flat, balanced⟩ := program_labelled run
  have short : (Instr.encodeStream s.code.reverse).length < 2 ^ 32 := by
    rw [← code, ← wellFormed.codeSize]
    exact m.codeSection.size.toNat_lt
  have few : s.code.length < 2 ^ 31 := by
    have three := Instr.length_encodeStream encodable
    rw [length_reverse] at three
    omega
  have labels := labelCount_lt encodable short (flat ▸ balanced)
  have decoded : Instr.decodeStream m.code = .ok (s.code.reverse.map Instr.normal) := by
    rw [code, Instr.decodeStream_encodeStream encodable]
  obtain ⟨t, _, made, -, rfl⟩ := program_steps run
  exact ⟨p, t, m.toView, parsed, made, few, labels, Layout.parse_toBytes wellFormed, decoded⟩

theorem issued_numbers (h : count < 2 ^ 31) {labels : List Int32}
    (balanced : (labels : Multiset Int32) = issued 0 count) :
    (labels.map Int32.toInt).Perm ((List.range count).map Int.ofNat) := by
  have perm := (Multiset.coe_eq_coe.1 balanced).map Int32.toInt
  refine perm.trans (.of_eq ?_)
  rw [map_map, Nat.sub_zero, ← range_eq_range']
  refine map_congr_left fun k hk => ?_
  exact Int32.toInt_ofNat_of_lt (Nat.lt_trans (mem_range.1 hk) h)

/-- In a compiled module the labels from zero on are each defined once, and whatever goes to a label
or takes its address finds it in the same function. -/
theorem compile_labels {source bytes : Bytes} (h : compile source = .ok bytes) :
    ∃ p s v code items, Program.parse source = .ok p ∧ program p {} = .ok () s ∧
      View.parse bytes = .ok v ∧ Instr.decodeStream v.code = .ok code ∧
      ((code.filterMap Instr.introduced?).map Int32.toInt).Perm
        ((List.range s.labelCount).map Int.ofNat) ∧
      code = items.flatten ∧ List.Forall₂ LabelledItem p items := by
  obtain ⟨p, s, parsed, run, encodable, m, wellFormed, rfl, code, -, -⟩ := compile_eq_ok h
  obtain ⟨items, labelled, flat, balanced⟩ := program_labelled run
  have decoded : Instr.decodeStream m.code = .ok (s.code.reverse.map Instr.normal) := by
    rw [code, Instr.decodeStream_encodeStream encodable]
  have short : (Instr.encodeStream s.code.reverse).length < 2 ^ 32 := by
    rw [← code, ← wellFormed.codeSize]
    exact m.codeSection.size.toNat_lt
  rw [← flat] at balanced
  have normal : (s.code.reverse.map Instr.normal).filterMap Instr.introduced?
      = s.code.reverse.filterMap Instr.introduced? := by
    rw [List.filterMap_map]
    exact congrArg (List.filterMap · _) (funext Instr.normal_introduced?)
  refine ⟨p, s, m.toView, _, items.map (List.map Instr.normal), parsed, run,
    Layout.parse_toBytes wellFormed, decoded, ?_, ?_, ?_⟩
  · rw [normal]
    exact issued_numbers (labelCount_lt encodable short balanced) balanced
  · rw [flat, List.map_flatten]
  · rw [List.forall₂_map_right_iff]
    exact labelled.imp fun _ _ => LabelledItem.normal

/-- A loop around a string: a branch, a jump, data and its address. -/
theorem compile_labels_loop : ∃ bytes, compile (ascii "void f()\x7bwhile(1)\"\";\x7d") = .ok bytes ∧
    ∃ p s v code items, Program.parse (ascii "void f()\x7bwhile(1)\"\";\x7d") = .ok p ∧
      program p {} = .ok () s ∧ View.parse bytes = .ok v ∧ Instr.decodeStream v.code = .ok code ∧
      ([Opcode.jmp, .br, .lea, .data].all fun o => code.any (·.opcode == o)) = true ∧
      ((code.filterMap Instr.introduced?).map Int32.toInt).Perm
        ((List.range s.labelCount).map Int.ofNat) ∧
      code = items.flatten ∧ List.Forall₂ LabelledItem p items := by
  have computed : compilesWith (ascii "void f()\x7bwhile(1)\"\";\x7d") (fun _ code =>
      [Opcode.jmp, .br, .lea, .data].all fun o => code.any (·.opcode == o)) = true := by decide +kernel
  obtain ⟨bytes, compiled, holds⟩ := holds_of_compilesWith computed
  obtain ⟨p, s, v, code, items, parsed, run, view, decoded, rest⟩ := compile_labels compiled
  exact ⟨bytes, compiled, p, s, v, code, items, parsed, run, view, decoded, holds v code view decoded, rest⟩

end Cof
