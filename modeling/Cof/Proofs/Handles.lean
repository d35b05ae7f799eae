/-
  Reading with types by number.

  A program that is read into an arena holds numbers where it mentions types, and counts on them: a function's number
  is looked up to find as many types of parameters as the function has names for them, and every other number to find
  a type.  None of it is checked afterwards.  It is kept while the program is read.

  1. *The arena* only grows and stays in order, and the numbers in what was read are those of entries.
  2. *The types.*  A function from numbers to types is fixed for all of the reading; it has to agree with the arena at
     the end, and so with the arena at every time before.  With these types in the place of the numbers, what was read
     is what the same tokens give without an arena.

  Both hold of every reader, by induction on how readers are built (`Makes.follows`).  So programs that are read
  into an arena are as well-formed as others (`read_declarations_valid`).
-/
import Cof.Proofs.StorageClasses

namespace Cof

open List

namespace Grammar

/-- The type under each number is made of the types under the parts of its entry. -/
def Agrees (types : UInt32 → CType) (a : Arena) : Prop :=
  ∀ handle node, a.node? handle = some node → types handle = node.unfold types

theorem Agrees.of_extends {types : UInt32 → CType} {a b : Arena} (h : Agrees types b) (grows : a.Extends b) :
    Agrees types a := fun handle node found => h handle node (grows.node?_eq found)

/-- Types in the place of numbers. -/
abbrev Telling.resolving (types : UInt32 → CType) : Telling Reading :=
  ⟨fun loc => loc, fun raw => raw, types, fun n => (types n).signature⟩

/-- What comes of reading with an arena, from a state to a state.  What it tells is told if no number was cut down. -/
structure Followed (types : UInt32 → CType) (s s' : Reading) (numbers : List UInt32) (told : Prop) : Prop where
  ordered : s'.arena.Ordered
  grows : s.arena.Extends s'.arena
  held : ∀ n ∈ numbers, s'.arena.Has n
  told : s'.arena.Small → Agrees types s'.arena → told

variable {α β : Type} {types : UInt32 → CType} {view : α → β} {M : α → List UInt32} {m : ReaderOf Reading α}

section

variable {s s' : Reading} {numbers numbers' : List UInt32} {told told' : Prop}

theorem Followed.refl (ordered : s.arena.Ordered) (held : ∀ n ∈ numbers, s.arena.Has n)
    (h : Agrees types s.arena → told) : Followed types s s numbers told := ⟨ordered, .refl _, held, fun _ => h⟩

theorem Followed.imp (h : Followed types s s' numbers told) (listed : numbers' ⊆ numbers)
    (tells : Agrees types s.arena → told → told') : Followed types s s' numbers' told' :=
  ⟨h.ordered, h.grows, fun n hn => h.held n (listed hn),
    fun small agrees => tells (agrees.of_extends h.grows) (h.told small agrees)⟩

theorem followed_intern (node : TypeNode UInt32) (ordered : s.arena.Ordered)
    (held : ∀ part ∈ node.parts, s.arena.Has part) :
    Followed types s { s with arena := (s.arena.intern node).2 } [(s.arena.intern node).1]
      (types (s.arena.intern node).1 = node.unfold types) := by
  have entered := Arena.intern_spec ordered held
  refine ⟨entered.ordered, entered.keeps, forall_mem_singleton.2 entered.has, fun small agrees => ?_⟩
  exact agrees _ node (entered.found small)

theorem followed_decay {handle : UInt32} (ordered : s.arena.Ordered) (has : s.arena.Has handle) :
    Followed types s { s with arena := (s.arena.decay handle).2 } [(s.arena.decay handle).1]
      ((types handle).decay = types (s.arena.decay handle).1) := by
  obtain ⟨node, found⟩ := has.exists_node?
  unfold Arena.decay
  rw [found]
  -- Arrays and functions become pointers; all else stays.
  cases node with
  | array element size =>
    have held := forall_mem_singleton.2 (ordered.has_part found (mem_singleton_self _))
    refine (followed_intern (.pointer element) ordered held).imp (Subset.refl _) fun agrees told => ?_
    rw [told, agrees handle _ found]
    rfl
  | function result params variadic =>
    have held := forall_mem_singleton.2 has
    refine (followed_intern (.pointer handle) ordered held).imp (Subset.refl _) fun agrees told => ?_
    rw [told, TypeNode.unfold, agrees handle _ found]
    rfl
  | _ =>
    refine .refl ordered (forall_mem_singleton.2 has) fun agrees => ?_
    rw [agrees handle _ found]
    rfl

end

theorem TypeStep.follows {known : List UInt32} {b : β} (h : TypeStep (.resolving types) known view M m b) {s s' : Reading}
    {a : α} (ordered : s.arena.Ordered) (held : ∀ n ∈ known, s.arena.Has n) (run : m s = .ok (a, s')) :
    s'.tokens = s.tokens ∧ Followed types s s' (M a) (b = view a) := by
  cases h with
  | make parts =>
    cases run
    exact ⟨rfl, (followed_intern _ ordered fun n hn => held n (parts hn)).imp (Subset.refl _) fun _ => Eq.symm⟩
  | @makeFunction result params variadic parts =>
    cases run
    have entered : Followed types s _ _ _ := followed_intern (.function result params variadic) ordered
      fun n hn => held n (parts hn)
    exact ⟨rfl, entered.imp (nil_subset _) fun _ told => (congrArg CType.signature told).symm⟩
  | @decay handle listed =>
    cases run
    exact ⟨rfl, followed_decay ordered (held handle listed)⟩
  | @isVoid handle listed =>
    obtain ⟨node, found⟩ := (held handle listed).exists_node?
    cases run
    refine ⟨rfl, .refl ordered (forall_mem_nil _) fun agrees => ?_⟩
    show (types handle).isVoid = decide (s.arena.node? handle = some .void)
    rw [agrees handle node found, found]
    cases node <;> rfl

/-- Where some numbers are known, a reader goes through tokens as it does without an arena, and reads the same but for
the types. -/
theorem Makes.follows {K : Known UInt32} {N : TokenKind → Prop} {eats : Bool} {d r : Nat} {P : β → Prop} {m' : Reader β}
    (h : Makes (.resolving types) K N eats d r view M P m m') {s s' : Reading} {a : α} (ordered : s.arena.Ordered)
    (held : ∀ n ∈ K.types, s.arena.Has n) (next : N s.tokens.next.kind) (run : m s = .ok (a, s')) :
    Followed types s s' (M a) (m' s.tokens = .ok (view a, s'.tokens)) := by
  induction h generalizing s s' with
  | pure told listed =>
    cases run
    rw [told]
    exact .refl ordered (fun n hn => held n (listed hn)) fun _ => rfl
  | bind _ _ ihm ihg | eat _ _ ihm ihg =>
    obtain ⟨x, between, first, run⟩ := bind_eq_ok.1 run
    obtain ⟨ordered, grows, listed, told⟩ := ihm ordered held next first
    have known := forall_mem_append.2 ⟨listed, fun n hn => (held n hn).of_extends grows⟩
    obtain ⟨ordered, grows', listed, told'⟩ := ihg x ordered known trivial run
    refine ⟨ordered, grows.trans grows', listed, fun small agrees => ?_⟩
    have first := told (small.of_extends grows') (agrees.of_extends grows')
    exact bind_eq_ok.2 ⟨_, between.tokens, first, told' small agrees⟩
  | look _ ih => exact ih s.tokens.next next ordered held rfl run
  | advance =>
    change Reading.advance s = _ at run
    unfold Reading.advance at run
    split at run
    · rename_i passed
      cases run
      exact ⟨ordered, .refl _, forall_mem_nil _, fun _ _ => passed⟩
    · cases run
  | failAt => cases run
  | types step =>
    obtain ⟨tokens, ordered, grows, listed, told⟩ := step.follows ordered held run
    refine ⟨ordered, grows, listed, fun small agrees => ?_⟩
    rw [tokens, told small agrees]
    rfl
  | mono _ after _ _ _ ih => exact ih ordered held (after _ next) run

end Grammar

/-! ## Programs with the types in their place -/

variable {types : UInt32 → CType} {source : Bytes} {p : Program UInt32 UInt32} {a : Arena}

theorem Program.read_follows (h : Program.read source = .ok (p, a)) :
    a.Ordered ∧ (∀ n ∈ p.mentions, a.Has n) ∧ (a.Small → Program.parse source = .ok (p.resolve a)) := by
  unfold Program.read at h
  unfold Program.parse
  cases started : Grammar.start source with
  | error e =>
    rw [started] at h
    cases h
  | ok tokens =>
    rw [started] at h
    change (Grammar.topLevels _ [] (Grammar.Reading.mk tokens .empty) >>= _) = _ at h
    cases run : Grammar.topLevels (Grammar.enough tokens.ahead.length) [] (Grammar.Reading.mk tokens .empty) with
    | error e =>
      rw [run] at h
      cases h
    | ok found =>
      obtain ⟨p, s⟩ := found
      rw [run] at h
      cases h
      obtain ⟨ordered, -, held, told⟩ :=
        (Grammar.makes_program (ρ := .resolving s.arena.tree) _).follows Arena.ordered_empty (forall_mem_nil _) trivial run
      refine ⟨ordered, held, fun small => ?_⟩
      have read := told small fun _ _ => Arena.tree_eq ordered
      show Prod.fst <$> Grammar.topLevels _ [] tokens = _
      rw [read]
      rfl

theorem Declaration.linkage_translate {τ φ τ' φ' : Type} (ρ : Translation τ φ τ' φ') (d : Declaration τ φ) :
    (d.translate ρ).linkage = d.linkage := by
  cases d <;> rfl

theorem Grammar.Declared.declarations_tell (ρ : Grammar.Telling Grammar.Reading)
    (declared : Grammar.Declared UInt32 UInt32) :
    (declared.tell ρ).declarations = declared.declarations.map (Declaration.translate ρ.translation) := by
  cases declared with
  | complete ds => rfl
  | bodyAhead earlier f =>
    rw [tell, declarations, declarations, map_append]
    rfl

/-! ## Valid declarations -/

/-- A function whose type is in an arena: the entry has a type for every name of a parameter, what it returns is no
array and no function, and what it takes is not void either. -/
structure FunctionDecl.Valid (a : Arena) (f : FunctionDecl UInt32) : Prop where
  name : f.name ≠ []
  entry : ∃ result params variadic, a.node? f.signature = some (.function result params variadic) ∧
    params.length = f.names.length ∧
    ((a.tree result).isArray = false ∧ (a.tree result).isFunction = false) ∧
    ∀ n ∈ params, (a.tree n).isVoid = false ∧ (a.tree n).isArray = false ∧ (a.tree n).isFunction = false

/-- A variable whose type is in an arena: it has a name and is neither void nor a function. -/
structure VarDecl.Valid (a : Arena) (v : VarDecl UInt32) : Prop where
  name : v.name ≠ []
  entry : ∃ node, a.node? v.type = some node
  notVoid : (a.tree v.type).isVoid = false
  notFunction : (a.tree v.type).isFunction = false

def Declaration.Valid (a : Arena) : Declaration UInt32 UInt32 → Prop
  | var v => v.Valid a
  | proto f => f.Valid a

theorem CType.not_of_isScalar {type : CType} (h : type.isScalar = true) :
    type.isVoid = false ∧ type.isArray = false ∧ type.isFunction = false := by
  cases type <;> first | exact ⟨rfl, rfl, rfl⟩ | cases h

theorem CType.eq_of_signature {type : CType} (h : type.signature.result.Plain) :
    type = .function type.signature.result type.signature.params type.signature.variadic := by
  cases type with
  | function result params variadic => rfl
  | _ => cases h.function

/-- A type that is not void is an entry's. -/
theorem Arena.exists_node? {handle : UInt32} (h : (a.tree handle).isVoid = false) :
    ∃ node, a.node? handle = some node := by
  cases found : a.node? handle with
  | some node => exact ⟨node, rfl⟩
  | none =>
    rw [tree, treeWithin, found] at h
    cases h

theorem FunctionDecl.WellFormed.valid {f : FunctionDecl UInt32} (ordered : a.Ordered)
    (h : (f.translate (.resolving a.tree)).WellFormed) : f.Valid a := by
  have type := CType.eq_of_signature h.result
  have notVoid : (a.tree f.signature).isVoid = false := by
    rw [type]
    rfl
  obtain ⟨node, found⟩ := Arena.exists_node? notVoid
  have layer := Arena.tree_eq ordered found
  cases node with
  | function result params variadic =>
    obtain ⟨word, returns, arity, takes⟩ := h
    simp only [FunctionDecl.translate, FunctionDecl.result, layer, TypeNode.unfold, CType.signature] at returns arity takes
    refine ⟨word.nonempty, result, params, variadic, found, ?_, ⟨returns.array, returns.function⟩, fun n hn => ?_⟩
    · rwa [length_map, length_map, eq_comm] at arity
    · exact CType.not_of_isScalar (takes _ (mem_map_of_mem hn))
  | _ =>
    rw [layer] at type
    cases type

theorem Declaration.WellFormed.valid {d : Declaration UInt32 UInt32} (ordered : a.Ordered)
    (h : (d.translate (.resolving a.tree)).WellFormed) : d.Valid a := by
  cases d with
  | var v =>
    obtain ⟨word, notVoid, notFunction⟩ : (v.translate (.resolving a.tree)).WellFormed := h
    exact ⟨word.nonempty, Arena.exists_node? notVoid, notVoid, notFunction⟩
  | proto f => exact FunctionDecl.WellFormed.valid ordered h

/-- Of every program that is read into an arena, and at every depth: the types of variables, casts and `sizeof` are
numbers of entries.  Unless there are so many entries that numbers were cut down, the program is the one that its source
spells, with numbers for types; each declaration is valid, and so is a function's number; definitions, which stand at
file scope only, have names for all parameters; and every declaration statement declares something.  Wherever a
declaration is read, not both storage classes are written. -/
theorem read_declarations_valid (h : Program.read source = .ok (p, a)) :
    (∀ n ∈ p.mentions, ∃ node, a.node? n = some node) ∧
    (a.nodes.length ≤ 2 ^ 32 →
      Program.parse source = .ok (p.resolve a) ∧
      (∀ t ∈ p, ∀ d ∈ t.declarations, d.Valid a) ∧
      (∀ f body, TopLevel.define f body ∈ p → ∀ name ∈ f.names, name.isSome = true) ∧
      ∀ t ∈ p, ∀ ds ∈ t.groups, ds ≠ []) ∧
    ∀ depth (s : Grammar.Reading) declared s', s.arena.Ordered → s'.arena.nodes.length ≤ 2 ^ 32 →
      Grammar.declaration depth s = .ok (declared, s') → Grammar.SaysLinkage s.tokens declared.declarations := by
  obtain ⟨ordered, held, parsed⟩ := Program.read_follows h
  refine ⟨fun n hn => (held n hn).exists_node?, fun small => ⟨parsed small, ?_⟩, ?_⟩
  · have wellFormed : ∀ t ∈ p, (t.translate (.resolving a.tree)).WellFormed :=
      fun t ht => TopLevel.wellFormed_of_parse (parsed small) _ (mem_map_of_mem ht)
    refine ⟨fun t ht d hd => ?_, fun f body defined => ?_, fun t ht => (wellFormed t ht).translated.2.1⟩
    · exact Declaration.WellFormed.valid ordered ((wellFormed t ht).translated.1 d hd)
    · exact (wellFormed _ defined).translated.2.2 f body rfl
  · intro depth s declared s' ordered small run
    obtain ⟨ordered, -, -, told⟩ :=
      (Grammar.makes_declaration (ρ := .resolving s'.arena.tree) depth ⟨True, []⟩).follows ordered (forall_mem_nil _)
        trivial run
    have read := told small fun _ _ => Arena.tree_eq ordered
    obtain ⟨words, rest, ahead, each, stops, notBoth, linked⟩ := Grammar.declaration_linkage read
    refine ⟨words, rest, ahead, each, stops, notBoth, fun d hd => ?_⟩
    rw [← d.linkage_translate (.resolving s'.arena.tree)]
    refine linked _ ?_
    rw [declared.declarations_tell]
    exact mem_map_of_mem hd

/-- Declarations in a loop's opening, in its body and at file scope, with an array parameter and a cast. -/
theorem read_declarations_valid_nested :
    ∃ p a, Program.read (ascii
        "int f(char*s,int n[3],...);void g()\x7bfor(int i;;)\x7bint x,y[2],h(void);(long)sizeof(short*);\x7d\x7d")
        = .ok (p, a) ∧
      (p.flatMap TopLevel.declarations).length = 6 ∧ p.mentions.length = 5 ∧ a.nodes.length = 13 ∧
      (p.flatMap TopLevel.groups).map (·.length) = [1, 3] ∧
      (∀ n ∈ p.mentions, ∃ node, a.node? n = some node) ∧
      (∀ t ∈ p, ∀ d ∈ t.declarations, d.Valid a) ∧
      (∀ f body, TopLevel.define f body ∈ p → ∀ name ∈ f.names, name.isSome = true) ∧
      (∀ t ∈ p, ∀ ds ∈ t.groups, ds ≠ []) ∧
      ∃ declared s', Grammar.declaration 9 (Grammar.Reading.mk (Tokens.ofSource (ascii "long extern a,b();")) .empty)
          = .ok (declared, s') ∧ declared.declarations.length = 2 ∧
        Grammar.SaysLinkage (Tokens.ofSource (ascii "long extern a,b();")) declared.declarations := by
  have reads : (Program.read (ascii
      "int f(char*s,int n[3],...);void g()\x7bfor(int i;;)\x7bint x,y[2],h(void);(long)sizeof(short*);\x7d\x7d")).toOption.any
      (fun found => (found.1.flatMap TopLevel.declarations).length == 6 && found.1.mentions.length == 5 &&
        found.2.nodes.length == 13 && (found.1.flatMap TopLevel.groups).map (·.length) == [1, 3]) = true := by
    decide +kernel
  have declares : (Grammar.declaration 9 (Grammar.Reading.mk (Tokens.ofSource (ascii "long extern a,b();"))
      .empty)).toOption.any (fun found => found.1.declarations.length == 2 && found.2.arena.nodes.length == 2) = true := by
    decide +kernel
  obtain ⟨⟨p, a⟩, read, counted⟩ := ok_of_any reads
  obtain ⟨⟨declared, s'⟩, declaration, two⟩ := ok_of_any declares
  simp only [Bool.and_eq_true, beq_iff_eq] at counted two
  obtain ⟨⟨⟨declarations, mentions⟩, entries⟩, groups⟩ := counted
  obtain ⟨held, valid, linked⟩ := read_declarations_valid read
  obtain ⟨-, valid, named, grouped⟩ := valid (by rw [entries]; decide)
  exact ⟨p, a, read, declarations, mentions, entries, groups, held, valid, named, grouped, declared, s', declaration,
    two.1, linked 9 _ _ _ Arena.ordered_empty (by rw [two.2]; decide) declaration⟩

end Cof
