/-
  What each piece of a program adds.

  A successful run only adds.  What statements add is told by the declarations in them, in order: `Lays`
  says that the code of statements is no part of a frame, that each block-scope static is defined under
  a name with the next number, and that names with linkage are taken in.  Everything but declarations
  adds plain code and nothing else.
-/
import Cof.Proofs.Declared
import Cof.Proofs.Placed
import Cof.Proofs.Traces

namespace Cof.Lowering

open List

variable {s s' t : State}

/-! ## What statements add -/

/-- What is added in the function `f` by the declarations `ds` and by whatever stands around them. -/
structure Lays (f : Name) (ds : List Declaration) (part : List Instr) (news : List Listed) (s s' : State) : Prop extends
    Provides (Declaration.definitions f s.statics ds) (ds.flatMap Declaration.blockLinks) part news s s' where
  inner : ∀ i ∈ part, i.isInner = true
  statics : s'.statics = s.statics + (ds.filterMap Declaration.static?).length

section Lays

variable {f : Name} {ds ds' : List Declaration} {part part' : List Instr} {news news' : List Listed}

theorem Lays.append (h : Lays f ds part news s t) (h' : Lays f ds' part' news' t s') :
    Lays f (ds ++ ds') (part ++ part') (news ++ news') s s' where
  toProvides := by
    have definitions : Declaration.definitions f s.statics (ds ++ ds') =
        Declaration.definitions f s.statics ds ++ Declaration.definitions f t.statics ds' := by
      simp only [Declaration.definitions, h.statics, filterMap_append, staticNames_append, map_append]
    rw [definitions, flatMap_append]
    exact h.toProvides.append h'.toProvides
  inner := by
    intro i hi
    rcases mem_append.1 hi with hi | hi
    · exact h.inner i hi
    · exact h'.inner i hi
  statics := by rw [h'.statics, h.statics, filterMap_append, length_append, Nat.add_assoc]

theorem lays_nil (code : s'.code = s.code) (size : s'.size = s.size)
    (symbols : s'.symbols = s.symbols) (globals : s'.globals = s.globals)
    (statics : s'.statics = s.statics) (function : s'.currentFunction = s.currentFunction) :
    Lays f [] [] [] s s' where
  toProvides := provides_code (written_nil code size) (forall_mem_nil _) symbols globals function
  inner := forall_mem_nil _
  statics := statics

theorem lays_push {i : Instr} {bytes : Bytes} (encodes : i.encode = .ok bytes)
    (inner : i.isInner = true) (silent : i.objectName? = none) : Lays f [] [i] [] s (s.push i bytes) where
  toProvides := by
    refine provides_code (written_push encodes) (fun j hj => ?_) rfl rfl rfl
    rw [mem_singleton.1 hj]
    exact silent
  inner j hj := by
    rw [mem_singleton.1 hj]
    exact inner
  statics := rfl

theorem lays_growth (h : AnyGrowth s s') : ∃ part, Lays f [] part [] s s' := by
  cases h with
  | emit encodes plain =>
    have inner := Instr.isInner_of_isPlain plain
    have silent := Instr.objectName?_of_isPlain plain
    exact ⟨_, lays_push encodes inner silent⟩
  | refuse | freshVariable | freshLabel | noteType => exact ⟨[], lays_nil rfl rfl rfl rfl rfl rfl⟩

end Lays

/-! ## Runs of statements -/

/-- In the function `f` a step adds what its declarations call for. -/
def Laid {α : Type} (f : Name) (ds : List Declaration) (m : Lower α) : Prop :=
  ∀ s a s', s.currentFunction = some f → m s = .ok a s' → ∃ part news, Lays f ds part news s s'

section Laid

variable {α : Type} {f : Name} {m : Lower α}

theorem laid_growth (h : Follows AnyGrowth m) : Laid f [] m := by
  intro s a s' _ run
  have steps := h.of_ok run
  clear run
  induction steps with
  | refl => exact ⟨[], [], lays_nil rfl rfl rfl rfl rfl rfl⟩
  | tail _ step ih =>
    obtain ⟨part, news, lays⟩ := ih
    obtain ⟨part', lays'⟩ := lays_growth step
    exact ⟨part ++ part', news ++ [], lays.append lays'⟩

end Laid

/-! ## Declarations -/

variable {v : VarDecl} {f : FunctionDecl} {body : List Stmt} {news : List Listed} {l : Listed}

theorem defineObject_eq_ok {name : Name} {isStatic : Bool}
    (run : defineObject name v isStatic s = .ok () s') : ∃ rest l, Provides [.object name isStatic] []
        [⟨.sym, if isStatic then .static else .global, .symbol v.type.encoding.tag name :: rest⟩] [l] s s' ∧
      s'.statics = s.statics := by
  obtain ⟨first, start, bytes, -, fits, encodes, rfl⟩ := defineObject_steps run
  have written := written_push (s := s) encodes
  refine ⟨_, _, ⟨⟨written.code, written.size, written.encodable⟩, rfl, .cons ?_ .nil, ?_,
    pairwise_singleton .., .nil, rfl⟩, rfl⟩
  · refine ⟨rfl, rfl, rfl, [], _, [], (append_nil _).symm, ⟨_, _, rfl⟩, ?_, nofun⟩
    exact (Module.fitWord32_eq_ok fits).2
  · rw [filterMap_cons, Instr.objectName?_define]
    rfl

theorem announceExternal_eq_ok (run : announceExternal v s = .ok () s') :
    Provides [] [] [⟨.sym, .external, [.symbol v.type.encoding.tag v.name]⟩] [] s s' ∧ s'.statics = s.statics := by
  obtain ⟨bytes, encodes, rfl⟩ := emit_eq_ok.1 run
  refine ⟨provides_code (written_push encodes) (fun i hi => ?_) rfl rfl rfl, rfl⟩
  rw [mem_singleton.1 hi]
  rfl

theorem Linking.provides {g : Global} (h : Linking g s s') : Provides [] [g] [] [] s s' ∧ s'.statics = s.statics := by
  obtain ⟨_, _, rfl⟩ := h.same
  exact ⟨⟨written_nil rfl rfl, rfl, .nil, rfl, .nil, h.note.notes, rfl⟩, rfl⟩

theorem laid_declareFunction (f : Name) (g : FunctionDecl) : Laid f [.proto g] (declareFunction g false) := by
  intro s _ s' _ run
  obtain ⟨provided, statics⟩ := (declareFunction_links run).provides
  exact ⟨[], [], provided, forall_mem_nil _, statics⟩

theorem blockLinks_external (h : v.linkage = .external) :
    [Declaration.var v].flatMap Declaration.blockLinks = [v.link false false] ∧
      [Declaration.var v].filterMap Declaration.static? = [] := by
  simp [Declaration.blockLinks, Declaration.static?, h]

theorem blockLinks_static (h : v.linkage = .static) :
    [Declaration.var v].flatMap Declaration.blockLinks = [] ∧
      [Declaration.var v].filterMap Declaration.static? = [v.name] := by
  simp [Declaration.blockLinks, Declaration.static?, h]

theorem laid_localExternal (f : Name) (external : v.linkage = .external) : Laid f [.var v] (localExternal v) := by
  obtain ⟨links, statics⟩ := blockLinks_external external
  intro s _ s' _ run
  obtain ⟨-, t, linked, announced⟩ := localExternal_steps run
  obtain ⟨named, count'⟩ := linked.provides
  obtain ⟨directive, count⟩ := announceExternal_eq_ok announced
  refine ⟨[⟨.sym, .external, [.symbol v.type.encoding.tag v.name]⟩], [], ⟨?_, ?_, ?_⟩⟩
  · rw [Declaration.definitions, statics, links]
    exact named.append directive
  · intro i hi
    rw [mem_singleton.1 hi]
    rfl
  · rw [statics]
    exact count.trans count'

theorem laid_localStatic (f : Name) (static : v.linkage = .static) : Laid f [.var v] (localStatic v) := by
  obtain ⟨links, statics⟩ := blockLinks_static static
  intro s _ s' inside run
  obtain ⟨-, run⟩ := localStatic_steps run
  rw [inside] at run
  obtain ⟨rest, l, provided, count⟩ := defineObject_eq_ok run
  refine ⟨[⟨.sym, .static, .symbol v.type.encoding.tag (staticName f v.name s.statics) :: rest⟩], [l], ⟨?_, ?_, ?_⟩⟩
  · rw [Declaration.definitions, statics, links]
    exact provided.transfer _ _ ⟨rfl, rfl, rfl, rfl⟩ ⟨rfl, rfl, rfl, rfl⟩ (provided.function.trans inside.symm)
  · intro i hi
    rw [mem_singleton.1 hi]
    rfl
  · rw [statics]
    exact count

theorem laid_localAutomatic (f : Name) (v : VarDecl) : Laid f [] (localAutomatic v) := by
  intro s u s' inside run
  obtain ⟨-, t, filled, created⟩ := declareVariable_steps (localAutomatic_steps run).2
  obtain ⟨bytes, encodes, rfl⟩ := emit_eq_ok.1 created
  obtain ⟨part, news, lays⟩ := laid_growth (follows_fillVariable v _) _ () s' (by exact inside) filled
  have bound : ∀ n scopes, Lays f [] [] [] s { s with variableCount := n, scopes := scopes } := fun _ _ =>
    lays_nil rfl rfl rfl rfl rfl rfl
  exact ⟨_, _, (bound _ _).append (Lays.append (lays_push encodes rfl rfl) lays)⟩

theorem laid_localDeclaration (f : Name) (d : Declaration) : Laid f [d] (localDeclaration d) := by
  cases d with
  | proto g => exact laid_declareFunction f g
  | var v =>
    unfold localDeclaration
    simp only
    split
    · rename_i external
      exact laid_localExternal f external
    · rename_i static
      exact laid_localStatic f static
    · rename_i plain
      have none : [Declaration.var v].flatMap Declaration.blockLinks = [] ∧
          [Declaration.var v].filterMap Declaration.static? = [] := by
        simp [Declaration.blockLinks, Declaration.static?, plain]
      intro s a s' inside run
      obtain ⟨part, news, lays⟩ := laid_localAutomatic f v s a s' inside run
      refine ⟨part, news, ⟨?_, lays.inner, ?_⟩⟩
      · rw [Declaration.definitions, none.1, none.2]
        exact lays.toProvides
      · rw [none.2]
        exact lays.statics

/-! ## Statements -/

theorem traces_laid (f : Name) :
    Traces fun ds s s' => s.currentFunction = some f → ∃ part news, Lays f ds part news s s' where
  append first second inside := by
    obtain ⟨part, news, lays⟩ := first inside
    obtain ⟨part', news', lays'⟩ := second (lays.function.trans inside)
    exact ⟨part ++ part', news ++ news', lays.append lays'⟩
  growth grows _ := by
    obtain ⟨part, lays⟩ := lays_growth grows
    exact ⟨part, [], lays⟩
  scope mark encodes _ := by
    rcases mark with rfl | rfl <;> exact ⟨_, _, lays_push encodes rfl rfl⟩
  context _ _ _ _ := ⟨[], [], lays_nil rfl rfl rfl rfl rfl rfl⟩
  declaration run inside := laid_localDeclaration f _ _ () _ inside run

theorem laid_statements (f : Name) (body : List Stmt) : Laid f (Stmt.allDeclarations body) (statements body) :=
  fun s u s' inside run => (traces_laid f).statements body s u s' run inside

/-! ## Functions -/

theorem provides_emit {opcode : Opcode} {qualifier : Qualifier} {operands : List Operand}
    (run : emit opcode qualifier operands s = .ok () s')
    (silent : Instr.objectName? ⟨opcode, qualifier, operands⟩ = none) :
    Provides [] [] [⟨opcode, qualifier, operands⟩] [] s s' ∧ s'.statics = s.statics ∧
      s'.variableCount = s.variableCount := by
  obtain ⟨bytes, encodes, rfl⟩ := emit_eq_ok.1 run
  refine ⟨provides_code (written_push encodes) (fun i hi => ?_) rfl rfl rfl, rfl, rfl⟩
  rw [mem_singleton.1 hi]
  exact silent

theorem bindParameters_eq_ok {loc : Location} {index : Nat} {params : List Param}
    (run : bindParameters loc index params s = .ok () s') :
    Provides [] [] (Instr.parameters s.variableCount index params) [] s s' ∧ s'.statics = s.statics := by
  induction params generalizing s index with
  | nil =>
    obtain ⟨-, rfl⟩ := pure_eq_ok.1 run
    exact ⟨provides_code (written_nil rfl rfl) (forall_mem_nil _) rfl rfl rfl, rfl⟩
  | cons p rest ih =>
    rw [bindParameters_cons] at run
    obtain ⟨_, u, declared, run⟩ := bind_eq_ok.1 run
    obtain ⟨-, t, taken, emitted⟩ := declareVariable_steps declared
    obtain ⟨create, statics₁, count₁⟩ := provides_emit emitted rfl
    obtain ⟨bind, statics₂, count₂⟩ := provides_emit taken rfl
    obtain ⟨more, statics₃⟩ := ih run
    rw [count₂, count₁] at more
    have all := (create.append bind).append more
    refine ⟨all.transfer _ _ ⟨rfl, rfl, rfl, rfl⟩ ⟨rfl, rfl, rfl, rfl⟩ all.function, ?_⟩
    rw [statics₃, statics₂, statics₁]

theorem provides_scopes (scopes : Scopes) : Provides [] [] [] [] s { s with scopes := scopes } :=
  provides_code (written_nil rfl rfl) (forall_mem_nil _) rfl rfl rfl

theorem functionFrame_eq_ok (inside : s.currentFunction = some f.name)
    (run : functionFrame f body s = .ok () s') : ∃ first inner news tail,
      f.frame first inner = .function f.name :: tail ∧ (∀ i ∈ inner, i.isInner = true) ∧
      Provides (Declaration.definitions f.name s.statics (Stmt.allDeclarations body))
        ((Stmt.allDeclarations body).flatMap Declaration.blockLinks) tail news s s' ∧
      s'.statics = s.statics + (TopLevel.define f body).statics.length := by
  obtain ⟨_, _, entered, run⟩ := bind_eq_ok.1 run
  obtain rfl := modify_eq_ok.1 entered
  obtain ⟨_, t₁, prologue, run⟩ := bind_eq_ok.1 run
  obtain ⟨_, _, entered, run⟩ := bind_eq_ok.1 run
  obtain rfl := modify_eq_ok.1 entered
  obtain ⟨_, t₂, bound, run⟩ := bind_eq_ok.1 run
  obtain ⟨_, t₃, scopeBegin, run⟩ := bind_eq_ok.1 run
  obtain ⟨_, t₄, ran, run⟩ := bind_eq_ok.1 run
  obtain ⟨_, t₅, scopeEnd, run⟩ := bind_eq_ok.1 run
  obtain ⟨_, _, left, run⟩ := bind_eq_ok.1 run
  obtain rfl := modify_eq_ok.1 left
  obtain ⟨_, t₆, epilogue, run⟩ := bind_eq_ok.1 run
  obtain ⟨_, t₇, ret, left⟩ := bind_eq_ok.1 run
  obtain rfl := modify_eq_ok.1 left
  obtain ⟨prologue, statics₁, -⟩ := provides_emit prologue rfl
  obtain ⟨params, statics₂⟩ := bindParameters_eq_ok bound
  obtain ⟨scopeBegin, statics₃, -⟩ := provides_emit scopeBegin rfl
  obtain ⟨scopeEnd, statics₅, -⟩ := provides_emit scopeEnd rfl
  obtain ⟨epilogue, statics₆, -⟩ := provides_emit epilogue rfl
  obtain ⟨ret, statics₇, -⟩ := provides_emit ret rfl
  have opening := (((provides_scopes _).append prologue).append ((provides_scopes _).append params)).append scopeBegin
  have closing := (((scopeEnd.append (provides_scopes _)).append epilogue).append ret).append
    (provides_scopes t₇.scopes.exit)
  have start : t₃.statics = s.statics := by rw [statics₃, statics₂]; exact statics₁
  obtain ⟨inner, news, lays⟩ := laid_statements f.name body t₃ () t₄ (opening.function.trans inside) ran
  have all := (opening.append lays.toProvides).append closing
  rw [start] at all
  simp only [nil_append, append_nil, cons_append, append_assoc] at all
  refine ⟨_, inner, news, _, rfl, lays.inner, all, ?_⟩
  rw [statics₇, statics₆, ← start]
  exact statics₅.trans lays.statics

theorem Provides.list {ds : List Definition} {links : List Global} {part : List Instr}
    (h : Provides ds links part news s s')
    (placed : Places s.size part (.function f) l) (objects : ∀ a ∈ news, a.kind = .object) :
    Provides (ds ++ [.function f]) links part (news ++ [l]) s (s'.list l) where
  written := ⟨h.written.code, h.written.size, h.written.encodable⟩
  symbols := by
    rw [reverse_append]
    exact congrArg (List.cons l) h.symbols
  places := rel_append h.places (.cons placed .nil)
  directives := by
    rw [h.directives, filterMap_append]
    exact (append_nil _).symm
  ordered := by
    refine pairwise_append.2 ⟨h.ordered, pairwise_singleton .., fun a ha b _ function => ?_⟩
    rw [objects a ha] at function
    cases function
  links := h.links
  function := h.function

theorem kind_of_statics {f : Name} {first start : Nat} {ds : List Declaration} {code : List Instr}
    (h : List.Forall₂ (Places start code) (Declaration.definitions f first ds) news)
    (mem : l ∈ news) : l.kind = .object := by
  obtain ⟨d, hd, placed⟩ := exists_of_forall₂ h mem
  obtain ⟨name, -, rfl⟩ := mem_map.1 hd
  exact placed.kind

theorem defineFunction_eq_ok (run : defineFunction f body s = .ok () s') : ∃ item news, f.Frame item ∧
      Provides ((TopLevel.define f body).definitions s.statics)
        ((Stmt.allDeclarations body).flatMap Declaration.blockLinks) item news s s' ∧
      s'.statics = s.statics + (TopLevel.define f body).statics.length := by
  obtain ⟨start, stop, t, u, fits, named, frame, fits', rfl⟩ := defineFunction_steps run
  obtain ⟨directive, statics, -⟩ := provides_emit named rfl
  obtain ⟨first, inner, news, tail, framed, hinner, provided, count⟩ := functionFrame_eq_ok rfl frame
  rw [statics] at count
  have all := directive.append (provided.transfer t
    { u with returnType := t.returnType, currentFunction := t.currentFunction }
    ⟨rfl, rfl, rfl, rfl⟩ ⟨rfl, rfl, rfl, rfl⟩ rfl)
  rw [statics] at all
  have frame : f.Frame (.function f.name :: tail) := ⟨first, inner, hinner, framed.symm⟩
  refine ⟨.function f.name :: tail, news ++ [_], frame, all.list ⟨rfl, rfl, ?_, ?_⟩ ?_, count⟩
  · simp only [Definition.binding, Definition.isStatic, decide_eq_true_eq]
  · refine ⟨[], _, [], (append_nil _).symm, frame, (Module.fitWord32_eq_ok fits).2, fun _ => ?_⟩
    have size : u.size = s.size + _ := all.written.size
    have first := (Module.fitWord32_eq_ok fits).2
    have last := (Module.fitWord32_eq_ok fits').2
    have forward : start ≤ stop := by
      rw [UInt32.le_iff_toNat_le, first, last]
      exact size ▸ Nat.le_add_right ..
    rw [UInt32.toNat_sub_of_le _ _ forward, first, last]
    exact size ▸ Nat.add_sub_cancel_left ..
  · exact fun a ha => kind_of_statics provided.places ha

/-! ## Programs -/

theorem globalVariable_eq_ok (run : globalVariable v s = .ok () s') : ∃ item news,
    (TopLevel.declare (.var v)).Shape item ∧
      Provides ((TopLevel.declare (.var v)).definitions s.statics) (TopLevel.declare (.var v)).links item news
        s s' ∧ s'.statics = s.statics := by
  obtain ⟨t, linked, rest⟩ := globalVariable_steps run
  obtain ⟨named, count⟩ := linked.provides
  rcases rest with ⟨defined, run⟩ | ⟨undefined, run⟩
  · have directive : v.directive = if decide (v.linkage = .static) then .static else .global := by
      rw [VarDecl.directive, if_pos defined]
      simp only [decide_eq_true_eq]
    obtain ⟨rest, l, provided, statics⟩ := defineObject_eq_ok run
    rw [← directive] at provided
    rw [TopLevel.definitions, if_pos defined]
    exact ⟨_, [l], ⟨rest, rfl⟩, named.append provided, statics.trans count⟩
  · have undefined : ¬ v.isDefinition = true := Bool.not_eq_true _ ▸ undefined
    have directive : v.directive = .external := if_neg undefined
    obtain ⟨provided, statics⟩ := announceExternal_eq_ok run
    rw [← directive] at provided
    rw [TopLevel.definitions, if_neg undefined]
    exact ⟨_, [], ⟨[], rfl⟩, named.append provided, statics.trans count⟩

theorem topLevel_eq_ok {t : TopLevel} (run : topLevel t s = .ok () s') : ∃ item news, t.Shape item ∧
    Provides (t.definitions s.statics) t.links item news s s' ∧ s'.statics = s.statics + t.statics.length := by
  match t with
  | .declare (.proto f) =>
    obtain ⟨provided, statics⟩ := (declareFunction_links run).provides
    exact ⟨[], [], rfl, provided, statics⟩
  | .declare (.var v) => exact globalVariable_eq_ok run
  | .define f body =>
    obtain ⟨_, _, declared, run⟩ := bind_eq_ok.1 run
    obtain ⟨named, count⟩ := (declareFunction_links declared).provides
    obtain ⟨item, news, frame, provided, statics⟩ := defineFunction_eq_ok run
    rw [count] at provided statics
    exact ⟨item, news, frame, named.append provided, statics⟩

theorem topLevels_eq_ok {ts : List TopLevel} (run : ts.forM topLevel s = .ok () s') : ∃ items news,
    List.Forall₂ TopLevel.Shape ts items ∧
      Provides (Program.definitionsFrom s.statics ts) (Program.links ts) items.flatten news s s' := by
  induction ts generalizing s with
  | nil =>
    obtain ⟨-, rfl⟩ := pure_eq_ok.1 run
    exact ⟨[], [], .nil, provides_code (written_nil rfl rfl) (forall_mem_nil _) rfl rfl rfl⟩
  | cons t ts ih =>
    obtain ⟨_, u, first, rest⟩ := bind_eq_ok.1 run
    obtain ⟨item, news, shape, provided, statics⟩ := topLevel_eq_ok first
    obtain ⟨items, more, shapes, provided'⟩ := ih rest
    rw [statics] at provided'
    exact ⟨item :: items, news ++ more, .cons shape shapes, provided.append provided'⟩

/-- What is made of a program: the code of its pieces, and symbols for what it defines and for the names
that it leaves undefined. -/
structure Produces (p : Program) (s : State) (items : List (List Instr)) (news : List Listed)
    (known : List Global) : Prop where
  code : s.code.reverse = items.flatten
  encodable : Instr.Encodable items.flatten
  shapes : List.Forall₂ TopLevel.Shape p items
  symbols : s.symbols.reverse = news ++ known.reverse.filterMap external?
  places : List.Forall₂ (Places 0 items.flatten) p.definitions news
  directives : items.flatten.filterMap Instr.objectName? = p.definitions.filterMap Definition.object?
  ordered : news.Pairwise Listed.Before
  known : Recorded p.links known

theorem program_eq_ok {p : Program} (run : program p {} = .ok () s) :
    ∃ items news known, Produces p s items news known := by
  obtain ⟨t, _, pieces, -, rfl⟩ := program_steps run
  obtain ⟨items, news, shapes, provided⟩ := topLevels_eq_ok pieces
  refine ⟨items, news, t.globals, ⟨?_, provided.written.encodable, shapes, ?_, provided.places, provided.directives,
    provided.ordered, provided.links.recorded⟩⟩
  · show t.code.reverse = _
    rw [provided.written.code, reverse_append, reverse_reverse]
    rfl
  · show ((t.globals.reverse.filterMap external?).reverse ++ t.symbols).reverse = _
    rw [provided.symbols, reverse_append, reverse_append, reverse_reverse, reverse_reverse]
    rfl

end Cof.Lowering
