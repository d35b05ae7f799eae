/-
  The table of names is a stack of maps.

  The specification is a stack that is never empty, of finite maps from names to symbols.  Entering a scope
  pushes an empty map, leaving one pops a map unless it is the last, and a name is looked up in the
  topmost map that has it.

  The table keeps one log of all bindings ever made, and knows which scopes are open.  What makes the two
  agree are three facts about a table, which every operation keeps:

    * the open scopes have falling numbers from the inside out, and no number above `last` is in use, so
      a scope that is entered is new and has no binding yet;
    * of two bindings in open scopes, the newer one is in the inner scope or in the same;
    * the bindings of an open scope are those of its map.
-/
import Cof.Lowering.State
import Mathlib.Data.Finmap
import Mathlib.Data.List.Forall2

namespace Cof.Scopes

open List

/-! ## Operations and their answers -/

/-- What can be asked of a table. -/
inductive Op where
  | enter
  | exit
  | add (name : Name) (type : CType) (storage : Storage)
  | lookup (name : Name)
  | lookupCurrent (name : Name)

/-- What is answered. -/
inductive Answer where
  | done
  | added (result : Except ScopeError Symbol)
  | found (symbol : Option Symbol)

def Answer.bound? : Answer → Option Symbol
  | .added (.ok symbol) => some symbol
  | _ => none

def run {σ : Type} (step : σ → Op → Answer × σ) (s : σ) : List Op → List Answer × σ
  | [] => ([], s)
  | op :: ops => ((step s op).1 :: (run step (step s op).2 ops).1, (run step (step s op).2 ops).2)

/-- The answer of the table, and the table after it. -/
def perform (t : Scopes) : Op → Answer × Scopes
  | .enter => (.done, t.enter)
  | .exit => (.done, t.exit)
  | .add name type storage => (.added (t.add name type storage).1, (t.add name type storage).2)
  | .lookup name => (.found (t.lookup name), t)
  | .lookupCurrent name => (.found (t.lookupCurrent name), t)

/-! ## The specification -/

abbrev Bindings := Finmap fun _ : Name => Symbol

/-- A stack of maps with at least one map. -/
structure Stack where
  top : Bindings
  below : List Bindings

namespace Stack

def empty : Stack := ⟨∅, []⟩

def height (s : Stack) : Nat := s.below.length + 1

def push (s : Stack) : Stack := ⟨∅, s.top :: s.below⟩

def pop (s : Stack) : Stack :=
  match s.below with
  | [] => s
  | next :: rest => ⟨next, rest⟩

def find? (s : Stack) (name : Name) : Option Symbol := (s.top :: s.below).findSome? (·.lookup name)

def add (s : Stack) (name : Name) (type : CType) (storage : Storage) : Except ScopeError Symbol × Stack :=
  if name ∈ s.top then (.error (.duplicate name), s)
  else
    let symbol : Symbol := ⟨name, type, s.height - 1, storage⟩
    (.ok symbol, { s with top := s.top.insert name symbol })

def perform (s : Stack) : Op → Answer × Stack
  | .enter => (.done, s.push)
  | .exit => (.done, s.pop)
  | .add name type storage => (.added (s.add name type storage).1, (s.add name type storage).2)
  | .lookup name => (.found (s.find? name), s)
  | .lookupCurrent name => (.found (s.top.lookup name), s)

end Stack

/-! ## Scopes of a table -/

def chain (t : Scopes) : List Nat := t.current :: t.outer

def bindingIn (t : Scopes) (scope : Nat) (name : Name) : Option Symbol :=
  (t.log.find? fun e => e.symbol.name == name && e.scope == scope).map (·.symbol)

/-- What the operations keep. -/
structure Ordered (t : Scopes) : Prop where
  falling : t.chain.Pairwise (· > ·)
  chain_le : ∀ scope ∈ t.chain, scope ≤ t.last
  log_le : ∀ e ∈ t.log, e.scope ≤ t.last
  /-- Of two bindings in open scopes the newer one is further inside. -/
  newer : t.log.Pairwise fun new old => new.scope ∈ t.chain → old.scope ∈ t.chain → old.scope ≤ new.scope

variable {scope : Nat} {name : Name} {type : CType} {storage : Storage}

theorem isOpen_iff {t : Scopes} : t.isOpen scope = true ↔ scope ∈ t.chain := by
  rw [isOpen, Bool.or_eq_true, beq_iff_eq, contains_iff_mem, chain, mem_cons]

theorem bindingIn_eq_none {t : Scopes} :
    t.bindingIn scope name = none ↔ ∀ e ∈ t.log, e.symbol.name = name → e.scope ≠ scope := by
  rw [bindingIn, Option.map_eq_none_iff, find?_eq_none]
  simp

theorem Ordered.lookup {t : Scopes} (h : t.Ordered) (name : Name) :
    t.lookup name = t.chain.findSome? (t.bindingIn · name) := by
  cases found : t.log.find? fun e => e.symbol.name == name && t.isOpen e.scope with
  | none =>
    have nowhere : t.chain.findSome? (t.bindingIn · name) = none := by
      refine findSome?_eq_none_iff.2 fun scope mem => bindingIn_eq_none.2 ?_
      rintro e listed rfl rfl
      have := find?_eq_none.1 found e listed
      simp [isOpen_iff.2 mem] at this
    rw [Scopes.lookup, found, nowhere]
    rfl
  | some e =>
    obtain ⟨fits, newer, older, split, others⟩ := find?_eq_some_iff_append.1 found
    rw [Bool.and_eq_true, beq_iff_eq, isOpen_iff] at fits
    obtain ⟨named, inChain⟩ := fits
    have unseen : ∀ x ∈ newer, x.symbol.name = name → x.scope ∉ t.chain := by
      intro x mem same inChain
      have := others x mem
      simp [same, isOpen_iff.2 inChain] at this
    have here : t.bindingIn e.scope name = some e.symbol := by
      have first : (t.log.find? fun x => x.symbol.name == name && x.scope == e.scope) = some e := by
        refine find?_eq_some_iff_append.2 ⟨by simp [named], newer, older, split, fun x mem => ?_⟩
        by_cases same : x.symbol.name = name
        · have : x.scope ≠ e.scope := fun level => unseen x mem same (level ▸ inChain)
          simp [this]
        · simp [same]
      rw [bindingIn, first]
      rfl
    -- Scopes further inside have no binding of the name: a newer one would be the one found, and an
    -- older one would be further outside.
    have inside : ∀ scope ∈ t.chain, e.scope < scope → t.bindingIn scope name = none := by
      intro scope mem further
      refine bindingIn_eq_none.2 fun x listed same => ?_
      rintro rfl
      have behind := h.newer
      rw [split] at listed behind
      rcases mem_append.1 listed with before | rest
      · exact unseen x before same mem
      rcases mem_cons.1 rest with rfl | after
      · omega
      · have := (pairwise_cons.1 (pairwise_append.1 behind).2.1).1 x after inChain mem
        omega
    obtain ⟨inner, outer, parts⟩ := append_of_mem inChain
    have falling := h.falling
    rw [parts] at falling
    rw [Scopes.lookup, found]
    refine (findSome?_eq_some_iff.2 ⟨inner, e.scope, outer, parts, here, fun scope mem => ?_⟩).symm
    refine inside scope (by simp [parts, mem]) ?_
    exact (pairwise_append.1 falling).2.2 scope mem e.scope mem_cons_self

/-! ## The table and the stack -/

/-- A table that stands for a stack. -/
structure Represents (t : Scopes) (s : Stack) : Prop where
  ordered : t.Ordered
  maps : List.Forall₂ (fun scope bindings => ∀ name, Finmap.lookup name bindings = t.bindingIn scope name)
    t.chain (s.top :: s.below)

variable {t : Scopes} {s : Stack}

theorem represents_empty : Represents .empty .empty := by
  refine ⟨⟨pairwise_singleton _ _, ?_, forall_mem_nil _, .nil⟩, .cons (fun name => rfl) .nil⟩
  intro scope mem
  exact Nat.le_of_eq (mem_singleton.1 mem)

theorem Represents.depth (h : Represents t s) : t.depth = s.height - 1 := by
  have lengths := h.maps.length_eq
  rw [chain, length_cons, length_cons] at lengths
  rw [Scopes.depth, Stack.height]
  omega

theorem Represents.lookupCurrent (h : Represents t s) (name : Name) : t.lookupCurrent name = s.top.lookup name := by
  have top := (forall₂_cons.1 h.maps).1 name
  exact top.symm

theorem Represents.lookup (h : Represents t s) (name : Name) : t.lookup name = s.find? name := by
  rw [h.ordered.lookup, Stack.find?]
  have maps := h.maps
  generalize t.chain = scopes at maps
  generalize s.top :: s.below = stack at maps
  induction maps with
  | nil => rfl
  | cons same _ ih => rw [findSome?_cons, findSome?_cons, same name, ih]

theorem Represents.enter (h : Represents t s) : Represents t.enter s.push := by
  have chain : t.enter.chain = (t.last + 1) :: t.chain := rfl
  have fresh : ∀ scope ∈ t.chain, scope < t.last + 1 := fun scope mem =>
    Nat.lt_succ_of_le (h.ordered.chain_le scope mem)
  refine ⟨⟨?_, ?_, ?_, ?_⟩, ?_⟩
  · rw [chain]
    exact pairwise_cons.2 ⟨fresh, h.ordered.falling⟩
  · rw [chain]
    intro scope mem
    rcases mem_cons.1 mem with rfl | mem
    · exact Nat.le_refl _
    · exact Nat.le_of_lt (fresh scope mem)
  · intro e listed
    exact Nat.le_succ_of_le (h.ordered.log_le e listed)
  · -- Nothing is bound in the new scope.
    refine List.Pairwise.imp_of_mem ?_ h.ordered.newer
    intro new old newListed oldListed older newOpen oldOpen
    rw [chain] at newOpen oldOpen
    have := h.ordered.log_le new newListed
    have := h.ordered.log_le old oldListed
    refine older ?_ ?_
    · exact (mem_cons.1 newOpen).resolve_left (by omega)
    · exact (mem_cons.1 oldOpen).resolve_left (by omega)
  · rw [chain]
    refine .cons (fun name => ?_) h.maps
    have unbound : t.enter.bindingIn (t.last + 1) name = none :=
      bindingIn_eq_none.2 fun e listed _ => Nat.ne_of_lt (Nat.lt_succ_of_le (h.ordered.log_le e listed))
    rw [unbound]
    exact Finmap.lookup_empty name

theorem Represents.exit (h : Represents t s) : Represents t.exit s.pop := by
  obtain ⟨log, current, outer, last⟩ := t
  obtain ⟨top, below⟩ := s
  cases outer with
  | nil =>
    cases below with
    | nil => exact h
    | cons next rest =>
      have := h.maps.length_eq
      cases this
  | cons scope outer =>
    cases below with
    | nil =>
      have := h.maps.length_eq
      cases this
    | cons next rest =>
      have inner : ∀ scope', scope' ∈ scope :: outer → scope' ∈ current :: scope :: outer :=
        fun _ => mem_cons_of_mem _
      refine ⟨⟨?_, ?_, h.ordered.log_le, ?_⟩, ?_⟩
      · exact (pairwise_cons.1 h.ordered.falling).2
      · exact fun scope' mem => h.ordered.chain_le scope' (inner scope' mem)
      · refine h.ordered.newer.imp fun older newOpen oldOpen => ?_
        exact older (inner _ newOpen) (inner _ oldOpen)
      · exact (forall₂_cons.1 h.maps).2

def bind (t : Scopes) (symbol : Symbol) : Scopes := { t with log := ⟨t.current, symbol⟩ :: t.log }

theorem add_taken {symbol : Symbol} (taken : t.lookupCurrent name = some symbol)
    (type : CType) (storage : Storage) : t.add name type storage = (.error (.duplicate name), t) := by
  rw [add, taken]

theorem add_free (free : t.lookupCurrent name = none) (type : CType) (storage : Storage) :
    t.add name type storage = (.ok ⟨name, type, t.depth, storage⟩, t.bind ⟨name, type, t.depth, storage⟩) := by
  rw [add, free]
  rfl

theorem bindingIn_bind (t : Scopes) (symbol : Symbol) (scope : Nat) (name : Name) :
    (t.bind symbol).bindingIn scope name =
      if symbol.name = name ∧ t.current = scope then some symbol else t.bindingIn scope name := by
  by_cases here : symbol.name = name ∧ t.current = scope
  · simp [bindingIn, bind, here.1, here.2]
  · have other : (symbol.name == name && t.current == scope) = false := by
      simpa using fun same => (not_and.1 here) same
    rw [if_neg here]
    simp [bindingIn, bind, other]

theorem Represents.bind (h : Represents t s) (symbol : Symbol) :
    Represents (t.bind symbol) { s with top := s.top.insert symbol.name symbol } := by
  have current : t.current ∈ t.chain := mem_cons_self ..
  have falling := pairwise_cons.1 h.ordered.falling
  have maps := forall₂_cons.1 h.maps
  refine ⟨⟨h.ordered.falling, h.ordered.chain_le, ?_, ?_⟩, .cons ?_ ?_⟩
  · exact forall_mem_cons.2 ⟨h.ordered.chain_le _ current, h.ordered.log_le⟩
  · -- The current scope is the innermost, so the new binding is inside of all others.
    refine pairwise_cons.2 ⟨fun old _ _ oldOpen => ?_, h.ordered.newer⟩
    rcases mem_cons.1 oldOpen with same | outside
    · exact Nat.le_of_eq same
    · exact Nat.le_of_lt (falling.1 _ outside)
  · intro name
    rw [bindingIn_bind]
    by_cases same : symbol.name = name
    · rw [if_pos ⟨same, rfl⟩, ← same, Finmap.lookup_insert]
    · rw [if_neg fun both => same both.1, Finmap.lookup_insert_of_ne _ (Ne.symm same)]
      exact maps.1 name
  · -- The scopes around it are not touched.
    have outside := (forall₂_and_left _ _).2 ⟨falling.1, maps.2⟩
    refine outside.imp fun scope bindings both name => ?_
    have other : t.current ≠ scope := Nat.ne_of_gt both.1
    rw [bindingIn_bind, if_neg fun here => other here.2]
    exact both.2 name

theorem Represents.add (h : Represents t s) (name : Name) (type : CType) (storage : Storage) :
    (t.perform (.add name type storage)).1 = (s.perform (.add name type storage)).1 ∧
      Represents (t.perform (.add name type storage)).2 (s.perform (.add name type storage)).2 := by
  have top := h.lookupCurrent name
  cases taken : t.lookupCurrent name with
  | some symbol =>
    have there : name ∈ s.top := by
      rw [← Finmap.lookup_isSome, ← top, taken]
      rfl
    simp only [Scopes.perform, add_taken taken, Stack.perform, Stack.add, if_pos there]
    exact ⟨trivial, h⟩
  | none =>
    have free : name ∉ s.top := by
      rw [← Finmap.lookup_eq_none, ← top, taken]
    simp only [Scopes.perform, add_free taken, Stack.perform, Stack.add, if_neg free, h.depth]
    exact ⟨trivial, h.bind ⟨name, type, s.height - 1, storage⟩⟩

theorem Represents.perform (h : Represents t s) (op : Op) :
    (t.perform op).1 = (s.perform op).1 ∧ Represents (t.perform op).2 (s.perform op).2 := by
  cases op with
  | enter => exact ⟨rfl, h.enter⟩
  | exit => exact ⟨rfl, h.exit⟩
  | add name type storage => exact h.add name type storage
  | lookup name => exact ⟨congrArg Answer.found (h.lookup name), h⟩
  | lookupCurrent name => exact ⟨congrArg Answer.found (h.lookupCurrent name), h⟩

theorem Represents.run (h : Represents t s) (ops : List Op) :
    (run Scopes.perform t ops).1 = (run Stack.perform s ops).1 ∧
      Represents (run Scopes.perform t ops).2 (run Stack.perform s ops).2 := by
  induction ops generalizing t s with
  | nil => exact ⟨rfl, h⟩
  | cons op ops ih =>
    obtain ⟨answer, next⟩ := h.perform op
    obtain ⟨answers, last⟩ := ih next
    refine ⟨?_, last⟩
    rw [Scopes.run, Scopes.run, answer, answers]

/-! ## Everything that was bound -/

theorem exit_symbols (t : Scopes) : t.exit.symbols = t.symbols := by
  obtain ⟨log, current, outer, last⟩ := t
  cases outer <;> rfl

theorem symbols_perform (t : Scopes) (op : Op) :
    (t.perform op).2.symbols = t.symbols ++ (t.perform op).1.bound?.toList := by
  cases op with
  | enter | lookup | lookupCurrent => exact (append_nil _).symm
  | exit => exact (t.exit_symbols).trans (append_nil _).symm
  | add name type storage =>
    cases taken : t.lookupCurrent name with
    | some symbol =>
      simp only [Scopes.perform, add_taken taken]
      exact (append_nil _).symm
    | none =>
      simp only [Scopes.perform, add_free taken, symbols, bind, reverse_cons, map_append]
      rfl

theorem symbols_run (t : Scopes) (ops : List Op) :
    (run Scopes.perform t ops).2.symbols = t.symbols ++ (run Scopes.perform t ops).1.filterMap Answer.bound? := by
  induction ops generalizing t with
  | nil => exact (append_nil _).symm
  | cons op ops ih =>
    have first := t.symbols_perform op
    rw [run, ih, first]
    cases bound : (t.perform op).1.bound? with
    | none => simp [bound]
    | some symbol => simp [bound]

theorem perform_refused {t t' : Scopes} {e : ScopeError}
    (h : t.perform (.add name type storage) = (.added (.error e), t')) : t' = t := by
  cases taken : t.lookupCurrent name with
  | some symbol =>
    simp only [Scopes.perform, add_taken taken] at h
    exact (Prod.mk.inj h).2.symm
  | none =>
    simp only [Scopes.perform, add_free taken] at h
    cases h

section

variable {l l' : Lowering.State} {loc : Location}

/-- A name that is bound already is refused, and the state is as before. -/
theorem bindName_taken {symbol : Symbol} (taken : l.scopes.lookupCurrent name = some symbol) :
    Lowering.bindName name type storage loc l = .error (.fault (.duplicateSymbol name) loc) l := by
  have reads : ∀ f : Lowering.State → Lowering.Lower Unit, (get >>= f) l = f l l := fun _ => rfl
  rw [Lowering.bindName, reads, add_taken taken]
  rfl

theorem bindName_of_free (free : l.scopes.lookupCurrent name = none) (type : CType) (storage : Storage)
    (loc : Location) : Lowering.bindName name type storage loc l =
      .ok () { l with scopes := l.scopes.bind ⟨name, type, l.scopes.depth, storage⟩ } := by
  have reads : ∀ f : Lowering.State → Lowering.Lower Unit, (get >>= f) l = f l l := fun _ => rfl
  rw [Lowering.bindName, reads, add_free free]
  rfl

theorem bindName_refused {e : LowerError} (h : Lowering.bindName name type storage loc l = .error e l') :
    (l.scopes.lookupCurrent name).isSome = true ∧ l' = l := by
  cases taken : l.scopes.lookupCurrent name with
  | some symbol =>
    rw [bindName_taken taken] at h
    cases h
    exact ⟨rfl, rfl⟩
  | none =>
    rw [bindName_of_free taken] at h
    cases h

end

/-- The table answers every sequence of operations as a stack of maps does.  Its depth is the height of
the stack less one, its symbols are those that were added, in order, and a refused name changes nothing,
neither in the table nor in a state that holds it. -/
theorem run_eq_stack (ops : List Op) :
    ∃ answers t s, run Scopes.perform .empty ops = (answers, t) ∧
      run Stack.perform .empty ops = (answers, s) ∧ t.depth = s.height - 1 ∧
      t.symbols = answers.filterMap Answer.bound? ∧
      (∀ name type storage e t', t.perform (.add name type storage) = (.added (.error e), t') → t' = t) ∧
      ∀ (l : Lowering.State) name type storage loc e l', l.scopes = t →
        Lowering.bindName name type storage loc l = .error e l' → name ∈ s.top ∧ l' = l := by
  obtain ⟨answers, last⟩ := represents_empty.run ops
  refine ⟨_, _, _, rfl, Prod.ext answers.symm rfl, last.depth, symbols_run .empty ops,
    fun _ _ _ _ _ => perform_refused, ?_⟩
  intro l name type storage loc e l' holds refused
  obtain ⟨taken, same⟩ := bindName_refused refused
  rw [holds, last.lookupCurrent] at taken
  exact ⟨Finmap.lookup_isSome.1 taken, same⟩

end Cof.Scopes
