/-
  The symbol table of a compiled module.

  It lists what the program defines, in order, and then the names that are declared with linkage and are
  neither defined nor static.  `SymbolTable` says so, with what each record tells, and this is what it
  rests on:

    1. Names are distinct.  At most one declaration defines a name; the name of a block-scope static ends
       in a number that no other has, and has dots, which a name in a source has not; and an external
       name is not defined.
    2. A record of a definition knows where its code is, and the bytes there decode to it.
    3. The module is executable if the entry function is among its definitions.
-/
import Cof.Proofs.Shape

namespace Cof

open Cof.Module Cof.Lowering List

/-! ## Names of block-scope statics -/

def dot : UInt8 := '.'.toUInt8

def staticNumber (name : Name) : Nat := numeral 10 (name.reverse.takeWhile (· != dot)).reverse

variable {name : Name} {first : Nat} {p : Program} {l : Listed} {s : State} {items : List (List Instr)}
  {news : List Listed} {known : List Global} {d : Definition} {code : List Instr} {f : FunctionDecl}
  {v : View} {symbol : Module.Symbol} {α β : Type} {symbols : List Module.Symbol}

theorem dot_not_mem_word (h : ∀ b ∈ name, isWordByte b = true) : dot ∉ name := by
  intro mem
  have word := h dot mem
  revert word
  decide

theorem dot_not_mem_decimal (n : Nat) : dot ∉ decimal n :=
  dot_not_mem_word fun b hb => by simp [isWordByte, isDigit_of_mem_decimal hb]

theorem staticName_eq (f name : Name) (number : Nat) :
    staticName f name number = f ++ [dot] ++ name ++ [dot] ++ decimal number := rfl

theorem dot_mem_staticName (f name : Name) (number : Nat) : dot ∈ staticName f name number := by
  simp [staticName_eq]

theorem staticNumber_staticName (f name : Name) (number : Nat) : staticNumber (staticName f name number) = number := by
  have digits : ∀ b ∈ (decimal number).reverse, (b != dot) = true := by
    intro b hb
    rw [bne_iff_ne]
    rintro rfl
    exact dot_not_mem_decimal number (mem_reverse.1 hb)
  have stop : (staticName f name number).reverse.takeWhile (· != dot) = (decimal number).reverse := by
    rw [staticName_eq, reverse_append, takeWhile_append_of_pos digits, reverse_append]
    simp
  rw [staticNumber, stop, reverse_reverse, numeral_decimal]

theorem staticNumber_staticNames (f : Name) (first : Nat) (names : List Name) :
    (staticNames f first names).map staticNumber = List.range' first names.length := by
  rw [staticNames, map_map, ← zipIdx_map_snd first names]
  exact map_congr_left fun entry _ => staticNumber_staticName ..

/-! ## Distinct names -/

/-- The names in the module of the block-scope statics of a program, numbered from some number on. -/
def Program.staticNames (first : Nat) : Program → List Name
  | [] => []
  | t :: rest => Cof.staticNames t.name first t.statics ++ staticNames (first + t.statics.length) rest

theorem Program.nodup_staticNames (first : Nat) (p : Program) : (p.staticNames first).Nodup := by
  -- Their numbers follow one another.
  have numbers : ∃ count, (p.staticNames first).map staticNumber = List.range' first count := by
    induction p generalizing first with
    | nil => exact ⟨0, rfl⟩
    | cons t rest ih =>
      obtain ⟨count, numbers⟩ := ih (first + t.statics.length)
      refine ⟨t.statics.length + count, ?_⟩
      rw [staticNames, map_append, staticNumber_staticNames, numbers, range'_append_1]
  obtain ⟨count, numbers⟩ := numbers
  refine List.Nodup.of_map staticNumber ?_
  rw [numbers]
  exact nodup_range'

theorem Program.dot_mem_of_static (h : name ∈ p.staticNames first) : dot ∈ name := by
  induction p generalizing first with
  | nil => cases h
  | cons t rest ih =>
    rcases mem_append.1 h with h | h
    · obtain ⟨entry, -, rfl⟩ := mem_map.1 h
      exact dot_mem_staticName ..
    · exact ih h

theorem TopLevel.perm_definitions (first : Nat) (t : TopLevel) :
    ((t.definitions first).map (·.name)).Perm
      ((t.links.filter (·.defined)).map (·.name) ++ staticNames t.name first t.statics) := by
  match t with
  | .declare (.proto f) => exact .nil
  | .declare (.var v) =>
    by_cases defined : v.isDefinition = true
    · simp [definitions, links, VarDecl.link, defined, statics, staticNames, Definition.name]
    · simp [definitions, links, VarDecl.link, defined, statics, staticNames]
  | .define f body =>
    have silent : ((Stmt.allDeclarations body).flatMap Declaration.blockLinks).filter (·.defined) = [] := by
      refine filter_eq_nil_iff.2 fun g hg => ?_
      obtain ⟨d, -, hd⟩ := mem_flatMap.1 hg
      cases d with
      | proto f' =>
        rw [mem_singleton.1 hd]
        exact Bool.false_ne_true
      | var v =>
        by_cases external : v.linkage = .external
        · rw [Declaration.blockLinks, if_pos external] at hd
          rw [mem_singleton.1 hd]
          exact Bool.false_ne_true
        · rw [Declaration.blockLinks, if_neg external] at hd
          cases hd
    have names : (Declaration.definitions f.name first (Stmt.allDeclarations body)).map (·.name) =
        staticNames f.name first (TopLevel.define f body).statics := by
      rw [Declaration.definitions, map_map]
      exact map_id' _
    have links : ((TopLevel.define f body).links.filter (·.defined)).map (·.name) = [f.name] := by
      rw [TopLevel.links, filter_cons_of_pos rfl, silent]
      rfl
    rw [definitions, map_append, names, links]
    exact perm_append_comm

theorem Program.perm_definitionsFrom (first : Nat) (p : Program) :
    ((p.definitionsFrom first).map (·.name)).Perm
      ((p.links.filter (·.defined)).map (·.name) ++ p.staticNames first) := by
  induction p generalizing first with
  | nil => exact .nil
  | cons t rest ih =>
    have both := (t.perm_definitions first).append (ih (first + t.statics.length))
    have links : (Program.links (t :: rest)).filter (·.defined) =
        t.links.filter (·.defined) ++ (Program.links rest).filter (·.defined) := by
      rw [Program.links, flatMap_cons, filter_append]
      rfl
    rw [definitionsFrom, map_append, links, map_append, staticNames]
    refine both.trans ?_
    simp only [append_assoc]
    exact List.Perm.append_left _ (perm_append_comm_assoc ..)

theorem Program.nodup_definitions (definitions : ((p.links.filter (·.defined)).map (·.name)).Nodup)
    (words : ∀ g ∈ p.links, dot ∉ g.name) : (p.definitions.map (·.name)).Nodup := by
  refine (p.perm_definitionsFrom 0).nodup_iff.2 (definitions.append (p.nodup_staticNames 0) ?_)
  intro name defined static
  obtain ⟨g, hg, rfl⟩ := mem_map.1 defined
  exact words g (mem_filter.1 hg).1 (dot_mem_of_static static)

/-! ## Names that are not defined -/

/-- A name with linkage that is neither defined nor static in the program. -/
structure Program.Undefined (p : Program) (name : Name) : Prop where
  declared : ∃ g ∈ p.links, g.name = name
  unsettled : ∀ g ∈ p.links, g.name = name → g.defined = false ∧ g.isStatic = false

theorem external?_eq_some {k : Global} : external? k = some l ↔ (k.defined = false ∧ k.isStatic = false) ∧
      l = ⟨k.name, 0, 0, if k.isFunction then .function else .object, .external⟩ := by
  unfold external?
  by_cases bound : (k.defined || k.isStatic) = true
  · rw [if_pos bound]
    refine ⟨nofun, ?_⟩
    rintro ⟨⟨defined, static⟩, -⟩
    rw [defined, static] at bound
    cases bound
  · rw [if_neg bound, Option.some.injEq]
    have none : k.defined = false ∧ k.isStatic = false := by simpa using bound
    exact ⟨fun same => ⟨none, same.symm⟩, fun both => both.2.symm⟩

namespace Lowering.Recorded

variable {p : Program} {known : List Global} (h : Recorded p.links known)
include h

theorem undefined_iff {k : Global} (mem : k ∈ known) :
    (k.defined = false ∧ k.isStatic = false) ↔ p.Undefined k.name := by
  obtain ⟨g, hg, same⟩ := h.only k mem
  rw [h.defined k mem, h.isStatic k mem, any_eq_false, any_eq_false]
  constructor
  · rintro ⟨defined, static⟩
    refine ⟨⟨g, hg, same⟩, fun g' hg' same' => ?_⟩
    simp_all
  · rintro ⟨-, none⟩
    constructor <;> intro g' hg' <;> by_cases same' : g'.name = k.name
    · simp [none g' hg' same']
    · simp [same']
    · simp [none g' hg' same']
    · simp [same']

theorem mem_externals {name : Name} : name ∈ (known.reverse.filterMap external?).map (·.name) ↔ p.Undefined name := by
  constructor
  · intro mem
    obtain ⟨l, hl, rfl⟩ := mem_map.1 mem
    obtain ⟨k, hk, listed⟩ := mem_filterMap.1 hl
    obtain ⟨none, rfl⟩ := external?_eq_some.1 listed
    exact (h.undefined_iff (mem_reverse.1 hk)).1 none
  · intro undefined
    obtain ⟨g, hg, rfl⟩ := undefined.declared
    obtain ⟨k, hk, same⟩ := h.all g hg
    rw [← same] at undefined ⊢
    have listed := external?_eq_some.2 ⟨(h.undefined_iff hk).2 undefined, rfl⟩
    exact mem_map.2 ⟨_, mem_filterMap.2 ⟨k, mem_reverse.2 hk, listed⟩, rfl⟩

theorem nodup_externals : ((known.reverse.filterMap external?).map (·.name)).Nodup := by
  have sublist : ((known.reverse.filterMap external?).map (·.name)).Sublist (known.reverse.map (·.name)) := by
    induction known.reverse with
    | nil => exact .slnil
    | cons k rest ih =>
      cases listed : external? k with
      | none =>
        rw [filterMap_cons_none listed]
        exact ih.cons _
      | some l =>
        obtain ⟨-, rfl⟩ := external?_eq_some.1 listed
        rw [filterMap_cons_some listed]
        exact ih.cons_cons _
  refine sublist.nodup ?_
  rw [map_reverse, nodup_reverse]
  exact h.once

end Lowering.Recorded

theorem Lowering.Produces.nodup (h : Produces p s items news known) (wellFormed : p.WellFormed) :
    (s.symbols.reverse.map (·.name)).Nodup := by
  have words : ∀ g ∈ p.links, dot ∉ g.name := fun g hg =>
    dot_not_mem_word (wellFormed.isWord (Program.name_of_link hg)).bytes
  have definitions := Program.nodup_definitions h.known.definitions words
  have names : p.definitions.map (·.name) = news.map (·.name) :=
    map_eq_of_forall₂ h.places fun d l placed => placed.name.symm
  rw [h.symbols, map_append, ← names]
  refine definitions.append h.known.nodup_externals fun name defined external => ?_
  have undefined := h.known.mem_externals.1 external
  obtain ⟨g, hg, same⟩ := undefined.declared
  rcases mem_append.1 ((p.perm_definitionsFrom 0).mem_iff.1 defined) with linked | static
  · obtain ⟨g', hg', same'⟩ := mem_map.1 linked
    obtain ⟨hg', isDefined⟩ := mem_filter.1 hg'
    rw [(undefined.unsettled g' hg' same').1] at isDefined
    cases isDefined
  · exact words g hg (same ▸ Program.dot_mem_of_static static)

/-! ## Records -/

@[simp] theorem Instr.normal_objectName? (i : Instr) : i.normal.objectName? = i.objectName? := by
  obtain ⟨opcode, qualifier, operands⟩ := i
  cases opcode with
  | sym =>
    match operands with
    | [] | .label _ :: _ | .imm .. :: _ | .var .. :: _ => cases qualifier <;> rfl
    | .symbol _ _ :: _ => cases qualifier <;> rfl
  | _ => rfl

def Definition.WellFormed : Definition → Prop
  | object .. => True
  | function f => f.WellFormed

theorem Definition.Code.normal (h : d.Code code) (wellFormed : d.WellFormed) : d.Code (code.map Instr.normal) := by
  cases d with
  | object name isStatic =>
    obtain ⟨tag, rest, rfl⟩ := h
    exact ⟨tag, rest.map Operand.normal, rfl⟩
  | function f => exact FunctionDecl.Frame.normal h wellFormed

theorem TopLevel.function_mem_definitions {t : TopLevel} :
    .function f ∈ t.definitions first ↔ ∃ body, t = .define f body := by
  match t with
  | .declare (.proto g) => exact ⟨nofun, nofun⟩
  | .declare (.var v) =>
    by_cases defined : v.isDefinition = true <;> simp [definitions, defined]
  | .define g body => simp [definitions, Declaration.definitions, eq_comm]

theorem Program.function_mem_definitionsFrom : .function f ∈ p.definitionsFrom first ↔ ∃ body, .define f body ∈ p := by
  induction p generalizing first with
  | nil => simp [definitionsFrom]
  | cons t rest ih =>
    rw [definitionsFrom, mem_append, TopLevel.function_mem_definitions, ih, ← exists_or]
    simp only [mem_cons, eq_comm]

theorem Program.WellFormed.definitions (h : p.WellFormed) (mem : d ∈ p.definitions) : d.WellFormed := by
  cases d with
  | object => trivial
  | function f =>
    obtain ⟨body, mem⟩ := function_mem_definitionsFrom.1 mem
    exact h _ mem (.proto f) mem_cons_self

/-- The record of a definition, in a module with code that decodes to `code`: the bytes of the code section
up to its value are the code in front of the definition, and for a function its size tells how many bytes
are its frame. -/
structure Definition.Entry (v : View) (code : List Instr) (d : Definition) (symbol : Module.Symbol) : Prop where
  name : symbol.name = d.name
  kind : symbol.record.kind = d.kind
  binding : symbol.record.binding = d.binding
  found : ∃ before part after, code = before ++ part ++ after ∧ d.Code part ∧
    Instr.decodeStream (v.code.take symbol.record.value.toNat) = .ok before ∧
    (symbol.record.kind = .function →
      Instr.decodeStream ((v.code.drop symbol.record.value.toNat).take symbol.record.size.toNat) = .ok part)

theorem Definition.entry_of_places (bytes : v.code = Instr.encodeStream code) (encodable : Instr.Encodable code)
    (placed : Places 0 code d l) (lists : Writer.Lists l symbol) (wellFormed : d.WellFormed) :
    d.Entry v (code.map Instr.normal) symbol := by
  obtain ⟨name, kind, binding, before, part, after, rfl, shape, value, size⟩ := placed
  obtain ⟨_, rfl⟩ := lists
  have front : Instr.Encodable before := fun i hi => encodable i (by simp [hi])
  have middle : Instr.Encodable part := fun i hi => encodable i (by simp [hi])
  rw [Nat.zero_add] at value
  refine ⟨name, kind, binding, before.map Instr.normal, part.map Instr.normal, after.map Instr.normal, ?_,
    shape.normal wellFormed, ?_, fun function => ?_⟩
  · rw [map_append, map_append]
  · show Instr.decodeStream (v.code.take l.value.toNat) = _
    rw [bytes, value, Instr.encodeStream_append, Instr.encodeStream_append, append_assoc, take_left,
      Instr.decodeStream_encodeStream front]
  · show Instr.decodeStream ((v.code.drop l.value.toNat).take l.size.toNat) = _
    rw [bytes, value, size function, Instr.encodeStream_append, Instr.encodeStream_append, append_assoc,
      drop_left, take_left, Instr.decodeStream_encodeStream middle]

theorem forall₂_compose {γ : Type} {R : α → β → Prop} {S : β → γ → Prop} {T : α → γ → Prop}
    {as : List α} {bs : List β} {cs : List γ} (first : List.Forall₂ R as bs) (second : List.Forall₂ S bs cs)
    (both : ∀ a ∈ as, ∀ b c, R a b → S b c → T a c) : List.Forall₂ T as cs := by
  induction first generalizing cs with
  | nil =>
    cases second
    exact .nil
  | cons related _ ih =>
    cases second with
    | cons related' rest =>
      refine .cons (both _ mem_cons_self _ _ related related') (ih rest fun a ha => ?_)
      exact both a (mem_cons_of_mem _ ha)

theorem pairwise_of_forall₂ {R : α → β → Prop} {P : α → α → Prop} {Q : β → β → Prop}
    {as : List α} {bs : List β} (h : List.Forall₂ R as bs) (pairwise : as.Pairwise P)
    (step : ∀ a b a' b', R a b → R a' b' → P a a' → Q b b') : bs.Pairwise Q := by
  induction h with
  | nil => exact .nil
  | cons related rest ih =>
    obtain ⟨first, others⟩ := pairwise_cons.1 pairwise
    refine pairwise_cons.2 ⟨fun b' hb' => ?_, ih others⟩
    obtain ⟨a', ha', related'⟩ := exists_of_forall₂ rest hb'
    exact step _ _ _ _ related related' (first a' ha')

/-! ## The entry function -/

theorem Program.isSome_start? : p.start?.isSome = true ↔ ∃ f, .function f ∈ p.definitions ∧ f.name = entryName := by
  rw [Program.start?, findSome?_isSome_iff]
  constructor
  · rintro ⟨t, ht, found⟩
    match t with
    | .declare d => cases found
    | .define f body =>
      by_cases main : f.name = entryName
      · exact ⟨f, function_mem_definitionsFrom.2 ⟨body, ht⟩, main⟩
      · simp only [if_neg main] at found
        cases found
  · rintro ⟨f, mem, main⟩
    obtain ⟨body, ht⟩ := function_mem_definitionsFrom.1 mem
    refine ⟨.define f body, ht, ?_⟩
    simp only [if_pos main]
    rfl

def Module.Symbol.isFunction (symbol : Module.Symbol) : Bool :=
  symbol.record.kind == .function && symbol.record.binding != .external

theorem Definition.Entry.not_external (h : d.Entry v code symbol) : symbol.record.binding ≠ .external :=
  h.binding ▸ d.binding_ne_external

theorem Definition.Entry.isFunction (h : d.Entry v code symbol) : symbol.isFunction = true ↔ ∃ f, d = .function f := by
  rw [Module.Symbol.isFunction, Bool.and_eq_true, beq_iff_eq, bne_iff_ne, h.kind]
  cases d with
  | object => exact ⟨nofun, nofun⟩
  | function f => exact ⟨fun _ => ⟨f, rfl⟩, fun _ => ⟨rfl, h.not_external⟩⟩

/-! ## The symbol table -/

/-- The symbols of a module and its header, for a program whose code decodes to `code`. -/
structure SymbolTable (p : Program) (v : View) (code : List Instr) : Prop where
  /-- No two symbols share a name. -/
  names : (v.symbols.map (·.name)).Nodup
  /-- Symbols that are not external are the definitions of the program, in order. -/
  defined : List.Forall₂ (Definition.Entry v code) p.definitions (v.symbols.filter (·.record.binding != .external))
  /-- Each object has one directive in the code, and there are no others. -/
  directives : code.filterMap Instr.objectName? = p.definitions.filterMap Definition.object?
  /-- External symbols have no place. -/
  externals : ∀ symbol ∈ v.symbols, symbol.record.binding = .external →
    symbol.record.value = 0 ∧ symbol.record.size = 0 ∧ symbol.record.sectionIndex = 0xFFFF
  /-- External symbols are what they are declared as. -/
  kinds : ∀ symbol ∈ v.symbols, symbol.record.binding = .external →
    ∀ g ∈ p.links, g.name = symbol.name → symbol.record.kind = if g.isFunction then .function else .object
  /-- External symbols are for the names that are neither defined nor static. -/
  undefined : ∀ name, (∃ symbol ∈ v.symbols, symbol.record.binding = .external ∧ symbol.name = name) ↔ p.Undefined name
  /-- One function ends before the next begins. -/
  disjoint : (v.symbols.filter (·.isFunction)).Pairwise fun a b =>
    a.record.value.toNat + a.record.size.toNat ≤ b.record.value.toNat
  /-- With the entry function, the module can be run from the start of its code. -/
  executable : (∃ symbol ∈ v.symbols, symbol.name = entryName ∧ symbol.isFunction = true) →
    v.header.isExecutable = true ∧ v.header.entryPoint = 68
  /-- Without it, the module cannot be run. -/
  library : (¬ ∃ symbol ∈ v.symbols, symbol.name = entryName ∧ symbol.isFunction = true) →
    v.header.isExecutable = false ∧ v.header.entryPoint = 0

/-- The symbols of a module in two parts: those of what is defined, and the external ones. -/
structure Parts (p : Program) (v : View) (code : List Instr) (defined others : List Module.Symbol) : Prop where
  split : v.symbols = defined ++ others
  entries : List.Forall₂ (Definition.Entry v code) p.definitions defined
  ordered : defined.Pairwise fun a b => a.record.kind = .function → b.record.kind = .function →
    a.record.value.toNat + a.record.size.toNat ≤ b.record.value.toNat
  external : ∀ symbol ∈ others, symbol.record.binding = .external ∧ symbol.record.value = 0 ∧
    symbol.record.size = 0 ∧ symbol.record.sectionIndex = 0xFFFF
  kinds : ∀ symbol ∈ others, ∀ g ∈ p.links, g.name = symbol.name →
    symbol.record.kind = if g.isFunction then .function else .object
  undefined : ∀ name, name ∈ others.map (·.name) ↔ p.Undefined name

namespace Parts

variable {p : Program} {v : View} {code : List Instr} {defined others : List Module.Symbol}
  (h : Parts p v code defined others)
include h

variable {symbol : Module.Symbol}

theorem internal (mem : symbol ∈ defined) : symbol.record.binding ≠ .external := by
  obtain ⟨d, -, entry⟩ := exists_of_forall₂ h.entries mem
  exact entry.not_external

theorem mem_defined : symbol ∈ defined ↔ symbol ∈ v.symbols ∧ symbol.record.binding ≠ .external := by
  rw [h.split, mem_append]
  constructor
  · exact fun mem => ⟨.inl mem, h.internal mem⟩
  · rintro ⟨mem | mem, internal⟩
    · exact mem
    · exact absurd (h.external symbol mem).1 internal

theorem mem_others : symbol ∈ others ↔ symbol ∈ v.symbols ∧ symbol.record.binding = .external := by
  rw [h.split, mem_append]
  constructor
  · exact fun mem => ⟨.inr mem, (h.external symbol mem).1⟩
  · rintro ⟨mem | mem, external⟩
    · exact absurd external (h.internal mem)
    · exact mem

theorem filter_internal : v.symbols.filter (·.record.binding != .external) = defined := by
  have first : defined.filter (·.record.binding != .external) = defined :=
    filter_eq_self.2 fun symbol mem => bne_iff_ne.2 (h.internal mem)
  have second : others.filter (·.record.binding != .external) = [] := by
    refine filter_eq_nil_iff.2 fun symbol mem => ?_
    rw [(h.external symbol mem).1]
    exact Bool.false_ne_true
  rw [h.split, filter_append, first, second, append_nil]

theorem disjoint : (v.symbols.filter (·.isFunction)).Pairwise fun a b =>
    a.record.value.toNat + a.record.size.toNat ≤ b.record.value.toNat := by
  have same : v.symbols.filter (·.isFunction) = defined.filter (·.record.kind == .function) := by
    rw [← h.filter_internal, filter_filter]
    rfl
  rw [same, pairwise_filter]
  simpa only [beq_iff_eq] using h.ordered

theorem exists_entry : (∃ symbol ∈ v.symbols, symbol.name = entryName ∧ symbol.isFunction = true) ↔
    p.start?.isSome = true := by
  rw [Program.isSome_start?]
  constructor
  · rintro ⟨symbol, mem, named, function⟩
    have internal : symbol.record.binding ≠ .external := bne_iff_ne.1 (Bool.and_eq_true_iff.1 function).2
    obtain ⟨d, hd, entry⟩ := exists_of_forall₂ h.entries (h.mem_defined.2 ⟨mem, internal⟩)
    obtain ⟨f, rfl⟩ := entry.isFunction.1 function
    exact ⟨f, hd, entry.name.symm.trans named⟩
  · rintro ⟨f, mem, named⟩
    obtain ⟨symbol, hsymbol, entry⟩ := exists_of_forall₂ h.entries.flip mem
    exact ⟨symbol, (h.mem_defined.1 hsymbol).1, entry.name.trans named, entry.isFunction.2 ⟨f, rfl⟩⟩

end Parts

theorem split_symbols {externals : List Listed}
    (h : List.Forall₂ Writer.Lists (news ++ externals) symbols) : ∃ defined others,
      symbols = defined ++ others ∧ List.Forall₂ Writer.Lists news defined ∧
        List.Forall₂ Writer.Lists externals others := by
  refine ⟨symbols.take news.length, symbols.drop news.length, (take_append_drop ..).symm, ?_, ?_⟩
  · exact (forall₂_take_append _ _ _ h.flip).flip
  · exact (forall₂_drop_append _ _ _ h.flip).flip

theorem map_name_of_lists {listed : List Listed}
    (h : List.Forall₂ Writer.Lists listed symbols) : listed.map (·.name) = symbols.map (·.name) := by
  refine map_eq_of_forall₂ h fun l symbol lists => ?_
  obtain ⟨_, rfl⟩ := lists
  rfl

theorem Lowering.Produces.parts (h : Produces p s items news known) (wellFormed : p.WellFormed)
    (code : v.code = Instr.encodeStream s.code.reverse)
    (lists : List.Forall₂ Writer.Lists s.symbols.reverse v.symbols) :
    ∃ defined others, Parts p v (s.code.reverse.map Instr.normal) defined others := by
  rw [h.symbols] at lists
  obtain ⟨defined, others, split, first, second⟩ := split_symbols lists
  refine ⟨defined, others, split, ?_, ?_, fun symbol mem => ?_, fun symbol mem g hg same => ?_, fun name => ?_⟩
  · refine forall₂_compose h.places first fun d hd l symbol placed listed => ?_
    have encodable := h.encodable
    rw [← h.code] at placed encodable
    exact Definition.entry_of_places code encodable placed listed (wellFormed.definitions hd)
  · refine pairwise_of_forall₂ first h.ordered ?_
    rintro a _ b _ ⟨_, rfl⟩ ⟨_, rfl⟩ before
    exact before
  · obtain ⟨l, hl, listed⟩ := exists_of_forall₂ second mem
    obtain ⟨k, -, external⟩ := mem_filterMap.1 hl
    obtain ⟨-, rfl⟩ := external?_eq_some.1 external
    obtain ⟨_, rfl⟩ := listed
    exact ⟨rfl, rfl, rfl, rfl⟩
  · obtain ⟨l, hl, listed⟩ := exists_of_forall₂ second mem
    obtain ⟨k, hk, external⟩ := mem_filterMap.1 hl
    obtain ⟨-, rfl⟩ := external?_eq_some.1 external
    obtain ⟨_, rfl⟩ := listed
    rw [h.known.isFunction k (mem_reverse.1 hk) g hg same]
  · rw [← map_name_of_lists second]
    exact h.known.mem_externals

/-- The symbol table of a compiled module holds exactly what its program calls for. -/
theorem compile_symbols {source bytes : Bytes} (h : compile source = .ok bytes) :
    ∃ p v code, Program.parse source = .ok p ∧ View.parse bytes = .ok v ∧
      Instr.decodeStream v.code = .ok code ∧ SymbolTable p v code := by
  obtain ⟨p, s, parsed, run, encodable, m, wellFormed, rfl, code, entry, lists⟩ := compile_eq_ok h
  obtain ⟨items, news, known, produced⟩ := program_eq_ok run
  have program := Program.wellFormed_of_parse parsed
  obtain ⟨defined, others, parts⟩ := produced.parts program code lists
  refine ⟨p, m.toView, s.code.reverse.map Instr.normal, parsed, Layout.parse_toBytes wellFormed, ?_,
    ⟨?_, ?_, ?_, ?_, ?_, ?_, parts.disjoint, ?_, ?_⟩⟩
  · rw [code, Instr.decodeStream_encodeStream encodable]
  · rw [← map_name_of_lists lists]
    exact produced.nodup program
  · rw [parts.filter_internal]
    exact parts.entries
  · have same : Instr.objectName? ∘ Instr.normal = Instr.objectName? := funext Instr.normal_objectName?
    rw [List.filterMap_map, same, produced.code]
    exact produced.directives
  · intro symbol mem external
    exact (parts.external symbol (parts.mem_others.2 ⟨mem, external⟩)).2
  · intro symbol mem external
    exact parts.kinds symbol (parts.mem_others.2 ⟨mem, external⟩)
  · intro name
    rw [← parts.undefined name, List.mem_map]
    simp only [parts.mem_others, and_assoc]
  · rw [parts.exists_entry]
    intro start
    have there : m.header.entryPoint = 68 := by
      rw [entry, Program.entryPoint, if_pos start]
      rfl
    refine ⟨wellFormed.isExecutable.2 ?_, there⟩
    rw [there]
    decide
  · rw [parts.exists_entry]
    intro noStart
    have nowhere : m.header.entryPoint = 0 := by rw [entry, Program.entryPoint, if_neg noStart]
    refine ⟨Bool.eq_false_iff.2 fun executable => ?_, nowhere⟩
    exact wellFormed.isExecutable.1 executable nowhere

def runnable : Bytes := ascii "int g();static int c;int main()\x7bstatic int n;\x7d"

/-- A static, the entry function with a static of its own, and a function from elsewhere. -/
theorem compile_symbols_runnable : ∃ bytes, compile runnable = .ok bytes ∧
    ∃ p v code, Program.parse runnable = .ok p ∧ View.parse bytes = .ok v ∧
      Instr.decodeStream v.code = .ok code ∧ SymbolTable p v code ∧
      v.symbols.map (·.name) = ["c", "main.n.0", "main", "g"].map ascii ∧
      v.header.isExecutable = true := by
  have computed : (compile runnable).toOption.any (fun bytes => (View.parse bytes).toOption.any fun v =>
      v.symbols.map (·.name) = ["c", "main.n.0", "main", "g"].map ascii ∧ v.header.isExecutable = true) = true := by
    decide +kernel
  obtain ⟨bytes, compiled, holds⟩ := ok_of_any computed
  obtain ⟨p, v, code, parsed, view, decoded, table⟩ := compile_symbols compiled
  rw [view] at holds
  obtain ⟨names, executable⟩ := of_decide_eq_true holds
  exact ⟨bytes, compiled, p, v, code, parsed, view, decoded, table, names, executable⟩

end Cof
