/-
  The shape of a compiled module.

  The parts of a module stand one after the other: headers, code, string table, symbol table.  Its code
  decodes to the items of its program, piece by piece.

  Decoding gives instructions in normal form.  The frame of a function is in normal form already, as long
  as its parameters are scalars, and reading makes sure of that; of what is inside a frame, and of what
  follows the name in a directive, the shape says nothing that the normal form could change.
-/
import Cof.Proofs.AddedCode
import Cof.Proofs.Compiled

namespace Cof

open Cof.Module Cof.Lowering List

/-! ## Shapes in normal form -/

theorem Operand.normal_size (n : UInt64) : (Operand.size n).normal = .size n := by
  have full : immediateLength (widthByte Encoding.u64.width) = 8 := by decide
  have small : n.toNat % 256 ^ 8 = n.toNat := Nat.mod_eq_of_lt n.toNat_lt
  show Operand.imm _ _ = .imm _ _
  rw [full, small, UInt64.ofNat_toNat]
  rfl

theorem Operand.normal_scalar {type : CType} (h : type.isScalar = true) (id : UInt32) :
    (Operand.var type.encoding id).normal = .var type.encoding id := by
  cases type with
  | integral width signed => cases width <;> cases signed <;> rfl
  | floating width => cases width <;> rfl
  | pointer => rfl
  | void | function | array => cases h

theorem Instr.normal_parameters {first index : Nat} {params : List Param} (h : ∀ p ∈ params, p.type.isScalar = true) :
    (parameters first index params).map normal = parameters first index params := by
  induction params generalizing first index with
  | nil => rfl
  | cons p rest ih =>
    have scalar := Operand.normal_scalar (h p (mem_cons_self ..)) (UInt32.ofNat first)
    have create : (create p.type (UInt32.ofNat first)).normal = create p.type (UInt32.ofNat first) := by
      simp only [Instr.create, normal, map_cons, map_nil, scalar, Operand.normal_size]
    have bind : (bind index p.type (UInt32.ofNat first)).normal = bind index p.type (UInt32.ofNat first) := by
      simp only [Instr.bind, normal, map_cons, map_nil, scalar, Operand.normal_size]
    rw [parameters, map_cons, map_cons, create, bind, ih fun q hq => h q (mem_cons_of_mem _ hq)]

variable {code : List Instr} {p : Program} {items : List (List Instr)}

theorem FunctionDecl.Frame.normal {f : FunctionDecl} (h : f.Frame code)
    (wellFormed : f.WellFormed) : f.Frame (code.map Instr.normal) := by
  obtain ⟨first, inner, hinner, rfl⟩ := h
  refine ⟨first, inner.map Instr.normal, fun i hi => ?_, ?_⟩
  · obtain ⟨j, hj, rfl⟩ := mem_map.1 hi
    exact hinner j hj
  · simp only [FunctionDecl.frame, map_cons, map_append, map_nil,
      Instr.normal_parameters wellFormed.params]
    rfl

theorem TopLevel.Shape.normal {t : TopLevel} (h : t.Shape code)
    (wellFormed : ∀ d ∈ t.declarations, d.WellFormed) : t.Shape (code.map Instr.normal) := by
  match t with
  | .declare (.proto f) =>
    obtain rfl : code = [] := h
    rfl
  | .declare (.var v) =>
    obtain ⟨rest, rfl⟩ := h
    exact ⟨rest.map Operand.normal, rfl⟩
  | .define f body =>
    exact FunctionDecl.Frame.normal h (wellFormed (.proto f) (mem_cons_self ..))

/-! ## Items -/

def TopLevel.isPrototype : TopLevel → Bool
  | .declare (.proto _) => true
  | _ => false

theorem shapes_filter (h : List.Forall₂ TopLevel.Shape p items) : ∃ items', items'.flatten = items.flatten ∧
      List.Forall₂ TopLevel.Shape (p.filter (!·.isPrototype)) items' := by
  induction h with
  | nil => exact ⟨[], rfl, .nil⟩
  | @cons t item _ _ shape _ ih =>
    obtain ⟨items', flat, shapes⟩ := ih
    match t with
    | .declare (.proto f) =>
      obtain rfl : item = [] := shape
      exact ⟨items', flat, shapes⟩
    | .declare (.var v) => exact ⟨item :: items', congrArg (item ++ ·) flat, .cons shape shapes⟩
    | .define f body => exact ⟨item :: items', congrArg (item ++ ·) flat, .cons shape shapes⟩

theorem shapes_normal (wellFormed : p.WellFormed) (h : List.Forall₂ TopLevel.Shape p items) :
    List.Forall₂ TopLevel.Shape p (items.map (List.map Instr.normal)) := by
  induction h with
  | nil => exact .nil
  | @cons t _ _ _ shape _ ih =>
    refine .cons (shape.normal (wellFormed t (mem_cons_self ..))) (ih fun t' ht' => ?_)
    exact wellFormed t' (mem_cons_of_mem _ ht')

theorem Module.Layout.length_toBytes {m : Layout} (h : m.WellFormed) :
    m.toBytes.length = m.header.symbolTableOffset.toNat + m.header.symbolTableSize.toNat := by
  rw [h.symbolsOffset, h.symbolsSize, Layout.toBytes]
  simp only [length_append, Header.length_toBytes, SectionHeader.length_toBytes, Layout.length_records]

/-- The parts of a compiled module stand one after the other, and its code is the items of the program
in order, one for each piece of file scope that is no prototype. -/
theorem compile_shape {source bytes : Bytes} (h : compile source = .ok bytes) :
    ∃ p v code items, Program.parse source = .ok p ∧ View.parse bytes = .ok v ∧
      v.header.stringTableOffset.toNat = 68 + v.codeSection.size.toNat ∧
      v.header.symbolTableOffset.toNat = v.header.stringTableOffset.toNat + v.header.stringTableSize.toNat ∧
      bytes.length = v.header.symbolTableOffset.toNat + v.header.symbolTableSize.toNat ∧
      Instr.decodeStream v.code = .ok code ∧ code = items.flatten ∧
      List.Forall₂ TopLevel.Shape (p.filter (!·.isPrototype)) items := by
  obtain ⟨p, s, parsed, run, encodable, m, wellFormed, rfl, code, -, -⟩ := compile_eq_ok h
  obtain ⟨items, _, _, produced⟩ := program_eq_ok run
  have shapes := shapes_normal (Program.wellFormed_of_parse parsed) produced.shapes
  obtain ⟨items', flat, shapes'⟩ := shapes_filter shapes
  refine ⟨p, m.toView, s.code.reverse.map Instr.normal, items', parsed, Layout.parse_toBytes wellFormed,
    ?_, ?_, Layout.length_toBytes wellFormed, ?_, ?_, shapes'⟩
  · rw [wellFormed.stringsOffset, wellFormed.codeSize]
  · rw [wellFormed.symbolsOffset, wellFormed.stringsOffset, wellFormed.stringsSize]
  · rw [code, Instr.decodeStream_encodeStream encodable]
  · rw [flat, produced.code, List.map_flatten]

def pieces : Bytes := ascii "extern int x;int f(int);int f(int a)\x7breturn a;\x7d"

/-- A variable and a function with a parameter. -/
theorem compile_shape_pieces : ∃ bytes, compile pieces = .ok bytes ∧
    ∃ p v code items, Program.parse pieces = .ok p ∧ View.parse bytes = .ok v ∧
      v.header.stringTableOffset.toNat = 68 + v.codeSection.size.toNat ∧
      v.header.symbolTableOffset.toNat = v.header.stringTableOffset.toNat + v.header.stringTableSize.toNat ∧
      bytes.length = v.header.symbolTableOffset.toNat + v.header.symbolTableSize.toNat ∧
      Instr.decodeStream v.code = .ok code ∧ code = items.flatten ∧ items.length = 2 ∧
      List.Forall₂ TopLevel.Shape (p.filter (!·.isPrototype)) items := by
  have computed : (compile pieces).toOption.any (fun _ => true) = true := by decide +kernel
  have counted : (Program.parse pieces).toOption.any (fun p =>
      (p.filter (!·.isPrototype)).length == 2) = true := by decide +kernel
  obtain ⟨bytes, compiled, -⟩ := ok_of_any computed
  obtain ⟨p, v, code, items, parsed, view, strings, symbols, length, decoded, flat, shapes⟩ := compile_shape compiled
  rw [parsed] at counted
  have two : (p.filter (!·.isPrototype)).length = 2 := by simpa [Except.toOption] using counted
  exact ⟨bytes, compiled, p, v, code, items, parsed, view, strings, symbols, length, decoded, flat,
    shapes.length_eq.symm.trans two, shapes⟩

end Cof
