/-
  Linkage in compiled modules.

  Names meet again in the symbol table: code refers to them, and declarations say whether they are defined and
  whether other modules may see them.

  1. What code refers to is on offer in the table of names, and what is on offer is a name with linkage or the
     name in the module of a block-scope static.  Each of them is listed, with one exception: a function that is
     declared static is not expected from other modules, so if it is not defined either, it is *withheld*.  Code
     may still call it.
  2. The binding of a definition is that of its own declaration.  A variable can only be static by its
     definition; a function may have been declared static before, and that is not taken into account.
-/
import Cof.Proofs.Course
import Cof.Proofs.SymbolTable

namespace Cof

open Cof.Module Cof.Lowering Relation List

/-! ## Names that are listed -/

/-- A function that is declared static somewhere and defined nowhere. -/
structure Program.Withheld (p : Program) (name : Name) : Prop where
  isStatic : ∃ g ∈ p.links, g.name = name ∧ g.isFunction = true ∧ g.isStatic = true
  undefined : ∀ g ∈ p.links, g.name = name → g.defined = false

variable {g : Global} {p : Program} {s : State} {name : Name}

theorem TopLevel.isFunction_of_isStatic {t : TopLevel} (h : g ∈ t.links) (static : g.isStatic = true)
    (undefined : g.defined = false) : g.isFunction = true := by
  match t with
  | .declare (.proto f) =>
    obtain rfl := mem_singleton.1 h
    rfl
  | .declare (.var v) =>
    obtain rfl := mem_singleton.1 h
    have linkage : v.linkage = .static := of_decide_eq_true static
    have defined : v.isDefinition = true := by rw [VarDecl.isDefinition, linkage]; rfl
    cases defined.symm.trans undefined
  | .define f body =>
    rcases mem_cons.1 h with rfl | h
    · rfl
    obtain ⟨d, -, h⟩ := mem_flatMap.1 h
    cases d with
    | proto f' =>
      obtain rfl := mem_singleton.1 h
      rfl
    | var v =>
      by_cases external : v.linkage = .external
      · rw [Declaration.blockLinks, if_pos external] at h
        obtain rfl := mem_singleton.1 h
        cases static
      · rw [Declaration.blockLinks, if_neg external] at h
        cases h

theorem Program.isFunction_of_isStatic (h : g ∈ p.links) (static : g.isStatic = true)
    (undefined : g.defined = false) : g.isFunction = true := by
  obtain ⟨t, -, mem⟩ := mem_flatMap.1 h
  exact TopLevel.isFunction_of_isStatic mem static undefined

section Listed

variable {p : Program} {name : Name}

theorem Program.link_cases {g : Global} (h : g ∈ p.links) :
    g.name ∈ p.definitions.map (·.name) ∨ p.Undefined g.name ∨ p.Withheld g.name := by
  by_cases defined : ∃ k ∈ p.links, k.name = g.name ∧ k.defined = true
  · obtain ⟨k, mem, named, defined⟩ := defined
    refine .inl ((p.perm_definitionsFrom 0).mem_iff.2 (mem_append_left _ ?_))
    exact mem_map.2 ⟨k, mem_filter.2 ⟨mem, defined⟩, named⟩
  have undefined : ∀ k ∈ p.links, k.name = g.name → k.defined = false := by
    intro k mem named
    exact Bool.eq_false_iff.2 fun isDefined => defined ⟨k, mem, named, isDefined⟩
  by_cases static : ∃ k ∈ p.links, k.name = g.name ∧ k.isStatic = true
  · obtain ⟨k, mem, named, static⟩ := static
    have function := Program.isFunction_of_isStatic mem static (undefined k mem named)
    exact .inr (.inr ⟨⟨k, mem, named, function, static⟩, undefined⟩)
  · refine .inr (.inl ⟨⟨g, h, rfl⟩, fun k mem named => ⟨undefined k mem named, ?_⟩⟩)
    exact Bool.eq_false_iff.2 fun isStatic => static ⟨k, mem, named, isStatic⟩

theorem Program.Withheld.unlisted (h : p.Withheld name) (words : ∀ g ∈ p.links, dot ∉ g.name) :
    name ∉ p.definitions.map (·.name) ∧ ¬ p.Undefined name := by
  obtain ⟨⟨g, mem, named, -, static⟩, undefined⟩ := h
  constructor
  · intro defined
    rcases mem_append.1 ((p.perm_definitionsFrom 0).mem_iff.1 defined) with linked | inBlock
    · obtain ⟨k, mem', named'⟩ := mem_map.1 linked
      obtain ⟨mem', isDefined⟩ := mem_filter.1 mem'
      rw [undefined k mem' named'] at isDefined
      cases isDefined
    · exact words g mem (named ▸ Program.dot_mem_of_static inBlock)
  · intro free
    rw [(free.unsettled g mem named).2] at static
    cases static

theorem Parts.mem_names {v : View} {code : List Instr} {defined others : List Module.Symbol}
    (h : Parts p v code defined others) :
    (∃ symbol ∈ v.symbols, symbol.name = name) ↔ name ∈ p.definitions.map (·.name) ∨ p.Undefined name := by
  have names : p.definitions.map (·.name) = defined.map (·.name) :=
    map_eq_of_forall₂ h.entries fun d symbol entry => entry.name.symm
  rw [← h.undefined name, names, ← mem_append, ← map_append, ← h.split]
  exact mem_map.symm

end Listed

/-! ## References -/

theorem Lowering.Bound.offered (h : Bound s) (offered : name ∈ s.scopes.offered) :
    (∃ g ∈ s.globals, g.name = name) ∨ ∃ l ∈ s.symbols, l.name = name := by
  obtain ⟨e, mem, offers⟩ := offered
  cases h.entries e mem with
  | @linked g known named _ _ storage =>
    refine .inl ⟨g, known, ?_⟩
    rcases offers with here | ⟨here, -⟩
    · rw [storage] at here
      exact named.trans (Storage.global.inj here)
    · exact named.trans here
  | own object _ listed =>
    rcases offers with here | ⟨-, function⟩
    · exact .inr (listed name here)
    · rw [object] at function
      cases function

@[simp] theorem Instr.normal_references (i : Instr) : i.normal.references = i.references := by
  have same : Operand.name? ∘ Operand.normal = Operand.name? := by
    funext o
    cases o <;> rfl
  show (if i.isDirective then [] else (i.operands.map Operand.normal).filterMap Operand.name?) = _
  rw [filterMap_map, same]
  rfl

theorem Lowering.refers_program (wellFormed : p.WellFormed)
    (run : p.forM topLevel {} = .ok () s) {i : Instr} (mem : i ∈ s.code)
    (referred : name ∈ i.references) : (∃ g ∈ p.links, g.name = name) ∨ name ∈ p.definitions.map (·.name) := by
  obtain ⟨items, names, code, -, pieces⟩ := topLevels_course wellFormed proper_empty run
  obtain ⟨_, news, -, provided⟩ := topLevels_eq_ok run
  have bound : Bound s := bound_of_moves names.moves bound_empty
  rw [code, append_nil, mem_reverse] at mem
  obtain ⟨item, listed, inside⟩ := mem_flatten.1 mem
  obtain ⟨t, -, -, made⟩ := exists_of_forall₂ pieces listed
  rcases bound.offered (made.refers.names i inside name referred) with ⟨g, known, named⟩ | ⟨l, listed, named⟩
  · obtain ⟨k, linked, same⟩ := provided.links.recorded.only g known
    exact .inl ⟨k, linked, same.trans named⟩
  · have new : l ∈ news := by
      have symbols : s.symbols = news.reverse ++ [] := provided.symbols
      rw [symbols, append_nil, mem_reverse] at listed
      exact listed
    obtain ⟨d, defines, placed⟩ := exists_of_forall₂ provided.places new
    exact .inr (mem_map.2 ⟨d, defines, placed.name.symm.trans named⟩)

/-- Whatever the code of a compiled module refers to is listed in its symbol table, unless it is a function
that is declared static and not defined. -/
theorem compile_references {source bytes : Bytes} (h : compile source = .ok bytes) :
    ∃ p v code, Program.parse source = .ok p ∧ View.parse bytes = .ok v ∧ Instr.decodeStream v.code = .ok code ∧
      ∀ i ∈ code, ∀ name ∈ i.references, (∃ symbol ∈ v.symbols, symbol.name = name) ↔ ¬ p.Withheld name := by
  obtain ⟨p, s, parsed, run, encodable, m, wellFormed, rfl, code, -, lists⟩ := compile_eq_ok h
  have program := Program.wellFormed_of_parse parsed
  obtain ⟨items, news, known, produced⟩ := program_eq_ok run
  obtain ⟨defined, others, parts⟩ := produced.parts program code lists
  have words : ∀ g ∈ p.links, dot ∉ g.name := fun g hg =>
    dot_not_mem_word (program.isWord (Program.name_of_link hg)).bytes
  refine ⟨p, m.toView, s.code.reverse.map Instr.normal, parsed, Layout.parse_toBytes wellFormed, ?_, ?_⟩
  · rw [code, Instr.decodeStream_encodeStream encodable]
  intro i mem name referred
  obtain ⟨j, there, rfl⟩ := List.mem_map.1 mem
  rw [Instr.normal_references] at referred
  obtain ⟨t, _, pieces, -, rfl⟩ := program_steps run
  rw [parts.mem_names]
  constructor
  · intro listed withheld
    obtain ⟨undefined, bound⟩ := withheld.unlisted words
    exact listed.elim undefined bound
  · intro expected
    rcases refers_program program pieces (List.mem_reverse.1 there) referred with ⟨g, linked, rfl⟩ | defines
    · rcases Program.link_cases linked with defines | left | withheld
      · exact .inl defines
      · exact .inr left
      · exact absurd withheld expected
    · exact .inl defines

/-- References of every kind: a variable from elsewhere, a static of the block, and a withheld function. -/
def referring : Bytes := ascii "extern int x;static int w();int g()\x7bstatic int n;n=x;return w();\x7d"

/-- The static of the block and the variable are listed. -/
theorem compile_references_referring : ∃ bytes, compile referring = .ok bytes ∧
    ∃ p v code, Program.parse referring = .ok p ∧ View.parse bytes = .ok v ∧ Instr.decodeStream v.code = .ok code ∧
      (∀ i ∈ code, ∀ name ∈ i.references, (∃ symbol ∈ v.symbols, symbol.name = name) ↔ ¬ p.Withheld name) ∧
      code.flatMap Instr.references = ["x", "g.n.0", "w"].map ascii ∧
      v.symbols.map (·.name) = ["g.n.0", "g", "x"].map ascii := by
  have computed : compilesWith referring (fun v code => code.flatMap Instr.references = ["x", "g.n.0", "w"].map ascii ∧
          v.symbols.map (·.name) = ["g.n.0", "g", "x"].map ascii) = true := by
    decide +kernel
  obtain ⟨bytes, compiled, holds⟩ := holds_of_compilesWith computed
  obtain ⟨p, v, code, parsed, view, decoded, listed⟩ := compile_references compiled
  obtain ⟨references, names⟩ := holds v code view decoded
  exact ⟨bytes, compiled, p, v, code, parsed, view, decoded, listed, references, names⟩

def unfulfilled : Bytes := ascii "static int f(void);int g(void)\x7breturn f();\x7d"

/-- Code may call a function that the symbol table does not list. -/
theorem call_unlisted : ∃ bytes v code, compile unfulfilled = .ok bytes ∧ View.parse bytes = .ok v ∧
    Instr.decodeStream v.code = .ok code ∧ .call (ascii "f") ∈ code ∧
      ∀ symbol ∈ v.symbols, symbol.name ≠ ascii "f" :=
  ok_of_compilesWith (by decide +kernel)

/-! ## Bindings of definitions -/

def TopLevel.definition? : TopLevel → Option Global
  | .declare (.proto _) => none
  | .declare (.var v) => if v.isDefinition then some (v.link true (v.linkage = .static)) else none
  | .define f _ => some (f.link true)

/-- Some declaration of a name in front of its definition is static. -/
def Program.StaticBefore (before : Program) (g : Global) : Prop :=
  ∃ k ∈ before.links, k.name = g.name ∧ k.isStatic = true

section Definitions

variable {p : Program} {t : TopLevel} {g : Global}

theorem TopLevel.definition_links (h : t.definition? = some g) : g ∈ t.links ∧ g.defined = true := by
  match t with
  | .declare (.proto f) => cases h
  | .declare (.var v) =>
    by_cases defined : v.isDefinition = true
    · rw [definition?, if_pos defined] at h
      cases h
      refine ⟨mem_singleton.2 ?_, rfl⟩
      rw [defined]
    · rw [definition?, if_neg defined] at h
      cases h
  | .define f body =>
    cases h
    exact ⟨mem_cons_self .., rfl⟩

theorem TopLevel.definition_mem (h : t.definition? = some g) (first : Nat) :
    ∃ d ∈ t.definitions first, d.name = g.name ∧ d.isStatic = g.isStatic := by
  match t with
  | .declare (.proto f) => cases h
  | .declare (.var v) =>
    by_cases defined : v.isDefinition = true
    · rw [definition?, if_pos defined] at h
      cases h
      refine ⟨.object v.name (v.linkage = .static), ?_, rfl, rfl⟩
      rw [definitions, if_pos defined]
      exact mem_singleton.2 rfl
    · rw [definition?, if_neg defined] at h
      cases h
  | .define f body =>
    cases h
    exact ⟨.function f, mem_append_right _ (mem_singleton.2 rfl), rfl, rfl⟩

theorem Program.definition_mem (mem : t ∈ p) (h : t.definition? = some g) (first : Nat) :
    ∃ d ∈ p.definitionsFrom first, d.name = g.name ∧ d.isStatic = g.isStatic := by
  induction p generalizing first with
  | nil => cases mem
  | cons t' rest ih =>
    rcases mem_cons.1 mem with rfl | mem
    · obtain ⟨d, defines, same⟩ := TopLevel.definition_mem h first
      exact ⟨d, mem_append_left _ defines, same⟩
    · obtain ⟨d, defines, same⟩ := ih mem (first + t'.statics.length)
      exact ⟨d, mem_append_right _ defines, same⟩

/-- A variable that is defined was not made static before: that would have defined it. -/
theorem Program.isFunction_of_staticBefore {before after : Program} {known : List Global}
    (h : Recorded (Program.links (before ++ t :: after)) known) (definition : t.definition? = some g)
    (static : before.StaticBefore g) : g.isFunction = true := by
  obtain ⟨k, earlier, named, isStatic⟩ := static
  obtain ⟨here, defined⟩ := TopLevel.definition_links definition
  have links : Program.links (before ++ t :: after) = before.links ++ (t.links ++ Program.links after) := by
    rw [Program.links, flatMap_append, flatMap_cons]
    rfl
  rw [links] at h
  have memK : k ∈ before.links ++ (t.links ++ Program.links after) := mem_append_left _ earlier
  have memG : g ∈ before.links ++ (t.links ++ Program.links after) :=
    mem_append_right _ (mem_append_left _ here)
  obtain ⟨r, recorded, same⟩ := h.all g memG
  have kinds : k.isFunction = g.isFunction :=
    (h.isFunction r recorded k memK (named.trans same.symm)).trans (h.isFunction r recorded g memG same.symm).symm
  -- Two declarations cannot both define the name.
  have undefined : k.defined = false := by
    refine Bool.eq_false_iff.2 fun isDefined => ?_
    have once := h.definitions
    rw [filter_append, map_append] at once
    refine (nodup_append.1 once).2.2 k.name ?_ g.name ?_ named
    · exact mem_map.2 ⟨k, mem_filter.2 ⟨earlier, isDefined⟩, rfl⟩
    · exact mem_map.2 ⟨g, mem_filter.2 ⟨mem_append_left _ here, defined⟩, rfl⟩
  rw [← kinds]
  exact Program.isFunction_of_isStatic earlier isStatic undefined

theorem Parts.binding_of_name {v : View} {code : List Instr} {defined others : List Module.Symbol} {d : Definition}
    (h : Parts p v code defined others) (once : (v.symbols.map (·.name)).Nodup) (defines : d ∈ p.definitions) :
    (∃ symbol ∈ v.symbols, symbol.name = d.name) ∧
      ∀ symbol ∈ v.symbols, symbol.name = d.name → symbol.record.binding = d.binding := by
  obtain ⟨symbol, there, entry⟩ := exists_of_forall₂ h.entries.flip defines
  have mem : symbol ∈ v.symbols := (h.mem_defined.1 there).1
  refine ⟨⟨symbol, mem, entry.name⟩, ?_⟩
  intro other mem' named
  obtain rfl := inj_on_of_nodup_map once mem' mem (named.trans entry.name.symm)
  exact entry.binding

end Definitions

/-- The binding of a definition tells whether the definition is static by itself.  So it tells whether any
declaration up to there is static, unless a function is declared static first and then defined without
`static`. -/
theorem compile_linkage {source bytes : Bytes} (h : compile source = .ok bytes) :
    ∃ p v, Program.parse source = .ok p ∧ View.parse bytes = .ok v ∧
      ∀ (before after : Program) t g, p = before ++ t :: after → t.definition? = some g →
        (∃ symbol ∈ v.symbols, symbol.name = g.name) ∧
        ∀ symbol ∈ v.symbols, symbol.name = g.name →
          symbol.record.binding = (if g.isStatic then .internal else .global) ∧
          ((symbol.record.binding = .internal ↔ g.isStatic = true ∨ before.StaticBefore g) ↔
            ¬ (g.isFunction = true ∧ g.isStatic = false ∧ before.StaticBefore g)) := by
  obtain ⟨p, s, parsed, run, encodable, m, wellFormed, rfl, code, -, lists⟩ := compile_eq_ok h
  have program := Program.wellFormed_of_parse parsed
  obtain ⟨items, news, known, produced⟩ := program_eq_ok run
  obtain ⟨defined, others, parts⟩ := produced.parts program code lists
  have once : (m.toView.symbols.map (·.name)).Nodup := by
    rw [← map_name_of_lists lists]
    exact produced.nodup program
  refine ⟨p, m.toView, parsed, Layout.parse_toBytes wellFormed, ?_⟩
  rintro before after t g rfl definition
  obtain ⟨d, defines, named, static⟩ :=
    Program.definition_mem (List.mem_append_right before (List.mem_cons_self ..)) definition 0
  have symbols := parts.binding_of_name once defines
  rw [named, Definition.binding, static] at symbols
  refine ⟨symbols.1, fun symbol mem called => ?_⟩
  have binding := symbols.2 symbol mem called
  refine ⟨binding, ?_⟩
  have internal : symbol.record.binding = .internal ↔ g.isStatic = true := by
    rw [binding]
    cases g.isStatic <;> decide
  rw [internal]
  constructor
  · rintro agree ⟨-, plain, earlier⟩
    rw [agree.2 (.inr earlier)] at plain
    cases plain
  · intro fine
    refine ⟨.inl, ?_⟩
    rintro (own | earlier)
    · exact own
    · have function := Program.isFunction_of_staticBefore produced.known definition earlier
      by_contra plain
      exact fine ⟨function, Bool.eq_false_iff.2 plain, earlier⟩

/-- A static function that is defined as it is declared, a variable that is declared before, and a static one. -/
def bindings : Bytes := ascii "static int f();static int f()\x7b\x7dextern int m;int m;static int n;"

/-- Two static definitions, and one that is not. -/
theorem compile_linkage_bindings : ∃ bytes, compile bindings = .ok bytes ∧
    ∃ p v, Program.parse bindings = .ok p ∧ View.parse bytes = .ok v ∧
      (∀ (before after : Program) t g, p = before ++ t :: after → t.definition? = some g →
        (∃ symbol ∈ v.symbols, symbol.name = g.name) ∧
        ∀ symbol ∈ v.symbols, symbol.name = g.name →
          symbol.record.binding = (if g.isStatic then .internal else .global) ∧
          ((symbol.record.binding = .internal ↔ g.isStatic = true ∨ before.StaticBefore g) ↔
            ¬ (g.isFunction = true ∧ g.isStatic = false ∧ before.StaticBefore g))) ∧
      (p.filterMap TopLevel.definition?).map (·.name) = ["f", "m", "n"].map ascii ∧
      v.symbols.map (·.record.binding) = [.internal, .global, .internal] := by
  have computed : (compile bindings).toOption.any (fun bytes => (View.parse bytes).toOption.any fun v =>
      v.symbols.map (·.record.binding) = [.internal, .global, .internal]) = true := by
    decide +kernel
  have defined : (Program.parse bindings).toOption.any (fun p =>
      (p.filterMap TopLevel.definition?).map (·.name) = ["f", "m", "n"].map ascii) = true := by
    decide +kernel
  obtain ⟨bytes, compiled, holds⟩ := ok_of_any computed
  obtain ⟨p, v, parsed, view, linkage⟩ := compile_linkage compiled
  rw [view] at holds
  rw [parsed] at defined
  exact ⟨bytes, compiled, p, v, parsed, view, linkage, of_decide_eq_true defined, of_decide_eq_true holds⟩

/-- A function that is declared static and then defined without `static`. -/
def relaxed : Bytes := ascii "static int f(void);int f(void)\x7breturn 0;\x7d"

/-- The declaration in front is static, and other modules can see the definition. -/
theorem binding_global_of_static : ∃ bytes v, compile relaxed = .ok bytes ∧ View.parse bytes = .ok v ∧
    (∃ (before : Program) (t : TopLevel) (g : Global), Program.parse relaxed = .ok (before ++ [t]) ∧
      t.definition? = some g ∧ before.StaticBefore g ∧ g.name = ascii "f") ∧
    ∀ symbol ∈ v.symbols, symbol.name = ascii "f" → symbol.record.binding = .global := by
  have computed : (compile relaxed).toOption.any (fun bytes => (View.parse bytes).toOption.any fun v =>
      ∀ symbol ∈ v.symbols, symbol.name = ascii "f" → symbol.record.binding = .global) = true := by
    decide +kernel
  have declared : (Program.parse relaxed).toOption.any (fun p =>
      p.map TopLevel.definition? = [none, some ⟨ascii "f", .function .int [] false, true, true, false⟩] ∧
        p.map TopLevel.links = [[⟨ascii "f", .function .int [] false, true, false, true⟩],
          [⟨ascii "f", .function .int [] false, true, true, false⟩]]) = true := by
    decide +kernel
  obtain ⟨bytes, compiled, holds⟩ := ok_of_any computed
  obtain ⟨v, view, holds⟩ := ok_of_any holds
  obtain ⟨p, parsed, shape⟩ := ok_of_any declared
  obtain ⟨definitions, links⟩ := of_decide_eq_true shape
  obtain ⟨first, _, rfl, -, rest⟩ := List.map_eq_cons_iff.1 definitions
  obtain ⟨second, _, rfl, definition, rest⟩ := List.map_eq_cons_iff.1 rest
  obtain rfl := List.map_eq_nil_iff.1 rest
  have opening : first.links = [⟨ascii "f", .function .int [] false, true, false, true⟩] := (List.cons.inj links).1
  have static : Program.StaticBefore [first] ⟨ascii "f", .function .int [] false, true, true, false⟩ := by
    refine ⟨⟨ascii "f", .function .int [] false, true, false, true⟩, ?_, rfl, rfl⟩
    show _ ∈ first.links ++ []
    rw [opening]
    exact List.mem_singleton.2 rfl
  exact ⟨bytes, v, compiled, view, ⟨[first], second, _, parsed, definition, static, rfl⟩, of_decide_eq_true holds⟩

end Cof
