/-
  The variables of a statement, watched from its start to its end.

  Code for a statement is put together from stretches, and what is to be known of its variables is put
  together along with it.  There are two things to know.

  Variables are used only while they live.  The table of names forgets a variable when its scope is closed, and the
  instructions that close scopes are added by hand, next to it.  `Lives` relates them: a variable that a piece of
  code creates either still lives at its end, where no scope was closed since, or its scope is closed and
  no name in sight stands for it any more.  Code that follows names what is in sight or numbers anew, so in
  the first case it may use the variable and in the second it cannot.  That a new number is not an old one
  needs that numbers do not wrap around.
-/
import Cof.Proofs.Guarded
import Cof.Proofs.Stretches

namespace Cof

open List

def Declaration.marks (skip : Bool) (d : Declaration) : List Bool := if d.isAutomatic then [skip] else []

/-- For each variable that a `for` loop opens with, that it cannot be skipped. -/
def ForInit.skippable : Option ForInit → List Bool
  | some (.decls _ ds) => ds.flatMap (·.marks false)
  | _ => []

mutual

/-- For each variable that a statement creates, in the order of the text, whether its creation can be
skipped while its name is in sight; `skip` says this of the statement itself. -/
def Stmt.skippable (skip : Bool) : Stmt → List Bool
  | .decls _ ds => ds.flatMap (·.marks skip)
  | .block _ body => Stmt.skippableAll body
  | .ifThen _ _ yes => yes.skippable true
  | .ifElse _ _ yes no => yes.skippable true ++ no.skippable true
  | .whileLoop _ _ body => body.skippable true
  | .doWhile _ body _ => body.skippable skip
  | .forLoop _ init _ _ body => ForInit.skippable init ++ body.skippable false
  | .expr .. | .ret .. | .brk _ | .cont _ | .empty _ => []

def Stmt.skippableAll : List Stmt → List Bool
  | [] => []
  | st :: rest => st.skippable false ++ Stmt.skippableAll rest

end

def TopLevel.skippable : TopLevel → List Bool
  | .declare _ => []
  | .define f body => f.params.map (fun _ => false) ++ Stmt.skippableAll body

def Stmt.isBare : Stmt → Bool
  | .decls .. => true
  | .doWhile _ body _ => body.isBare
  | _ => false

namespace Instr

def creations (code : List Instr) : List UInt32 := code.filterMap created?

variable {i : Instr} {part before after : List Instr}

theorem split_append {part' : List Instr} (h : part ++ part' = before ++ i :: after) :
    (∃ after', part = before ++ i :: after' ∧ after = after' ++ part') ∨
      ∃ before', part' = before' ++ i :: after ∧ before = part ++ before' := by
  rcases append_eq_append_iff.1 h with ⟨more, rfl, rest⟩ | ⟨more, rfl, rest⟩
  · exact .inr ⟨more, rest, rfl⟩
  · cases more with
    | nil => exact .inr ⟨[], rest.symm, by rw [append_nil, append_nil]⟩
    | cons j more =>
      obtain ⟨rfl, rfl⟩ := List.cons.inj rest
      exact .inl ⟨more, rfl, rfl⟩

theorem split_singleton {j : Instr} (h : [j] = before ++ i :: after) : before = [] ∧ j = i ∧ after = [] := by
  cases before with
  | nil =>
    obtain ⟨rfl, rfl⟩ := List.cons.inj h
    exact ⟨rfl, rfl, rfl⟩
  | cons k before =>
    obtain ⟨_, none⟩ := List.cons.inj h
    exact absurd none.symm (append_ne_nil_of_right_ne_nil _ (cons_ne_nil _ _))

end Instr

namespace Lowering

open Instr (WellNested creations Guides)

variable {s s' t t' : State} {part part' : List Instr} {made made' : List (Bool × UInt32)}
variable {Λ : Int32 → Prop} {id : UInt32} {i : Instr}

/-! ## Numbers -/

theorem NewId.not_numbered (h : NewId s s' id) (small : s'.variableCount ≤ 2 ^ 32) :
    ¬ ∃ k < s.variableCount, id = UInt32.ofNat k := by
  rintro ⟨k, before, rfl⟩
  obtain ⟨k', since, below, same⟩ := h
  have below : k < 2 ^ 32 := by omega
  have below' : k' < 2 ^ 32 := by omega
  have numbers := congrArg UInt32.toNat same
  rw [UInt32.toNat_ofNat_of_lt' below, UInt32.toNat_ofNat_of_lt' below'] at numbers
  omega

theorem NewId.sees_of_known (h : NewId s t id) (known : Known t s' id)
    (small : s'.variableCount ≤ 2 ^ 32) : t.scopes.Sees id := by
  rcases known with sees | new
  · exact sees
  · obtain ⟨k, -, below, same⟩ := h
    exact absurd ⟨k, below, same⟩ (new.not_numbered small)

/-! ## Lifetimes -/

/-- What has become of a variable at the end of a piece of code, by what stands behind its creation:
either its scope is still open, or it was closed, and then no name in sight stands for the variable. -/
def Lived (s' : State) (after : List Instr) (id : UInt32) : Prop :=
  WellNested after ∨ (¬ s'.scopes.Sees id ∧ ∃ inner outer,
    after = inner ++ ⟨.scopeEnd, .none, []⟩ :: outer ∧ WellNested inner ∧ ∀ j ∈ outer, id ∉ j.names)

/-- A piece of code in which variables are used only while they live. -/
structure Lives (s s' : State) (part : List Instr) : Prop where
  code : s'.code.reverse = s.code.reverse ++ part
  counted : s.variableCount ≤ s'.variableCount
  paid : Paid s s' part
  sound : Sound s'
  names : ∀ i ∈ part, ∀ id ∈ i.names, Known s s' id
  sight : ∀ id, s'.scopes.Sees id → Known s s' id
  new : ∀ id ∈ creations part, NewId s s' id
  nested : WellNested part
  spans : s'.variableCount ≤ 2 ^ 32 → ∀ before i after id, part = before ++ i :: after →
    i.created? = some id → (∀ j ∈ before, id ∉ j.names) ∧ Lived s' after id

theorem mem_creations {before after : List Instr} (h : i.created? = some id) : id ∈ creations (before ++ i :: after) :=
  mem_filterMap.2 ⟨i, mem_append_right _ (mem_cons_self ..), h⟩

theorem Lives.used (h : Lives s s' part) (mem : i ∈ part) (names : id ∈ i.names) :
    ∃ k < s'.variableCount, id = UInt32.ofNat k := by
  obtain ⟨o, operand, isId⟩ := mem_filterMap.1 names
  exact h.sound.used id (.inl ⟨i, mem_reverse.1 (h.code ▸ mem_append_right _ mem), o, operand, isId⟩)

theorem Stretch.lives {outer : List Int32} (h : Stretch outer s s' part) : Lives s s' part where
  code := h.code
  counted := h.counted
  paid := h.paid
  sound := h.sound
  names := h.names
  sight id sees := .inl ((h.sees id).1 sees)
  new id mem := by
    obtain ⟨i, mem, creates⟩ := mem_filterMap.1 mem
    rw [(h.inner i mem).2] at creates
    cases creates
  nested := by
    have inner := h.inner
    clear h
    induction part with
    | nil => exact .nil
    | cons i part ih =>
      have first := inner i mem_cons_self
      exact .append (.other first.1) (ih fun j mem => inner j (mem_cons_of_mem _ mem))
  spans _ before i after id split creates := by
    rw [(h.inner i (split ▸ mem_append_right _ mem_cons_self)).2] at creates
    cases creates

theorem Creates.lives {type : CType} (h : Creates type s s') :
    Lives s s' [⟨.var, .none, [.var type.encoding (.ofNat s.variableCount), .size type.size]⟩] := by
  have new : NewId s s' (.ofNat s.variableCount) :=
    ⟨s.variableCount, Nat.le_refl _, by rw [h.counted]; exact Nat.lt_succ_self _, rfl⟩
  refine ⟨h.code, by rw [h.counted]; exact Nat.le_succ _, Nat.le_of_eq h.counted, h.sound, ?_, ?_, ?_,
    .other rfl, ?_⟩
  · refine forall_mem_singleton.2 (forall_mem_singleton.2 (.inr new))
  · intro id sees
    rcases (h.sees id).1 sees with before | rfl
    · exact .inl before
    · exact .inr new
  · exact forall_mem_singleton.2 new
  · intro _ before i after id split _
    obtain ⟨rfl, _, rfl⟩ := Instr.split_singleton split
    exact ⟨forall_mem_nil _, .inl .nil⟩

theorem Lives.trans (h : Lives s t part) (h' : Lives t s' part') : Lives s s' (part ++ part') := by
  have later : ∀ {id}, NewId s t id → NewId s s' id := fun new => new.widen (Nat.le_refl _) h'.counted
  have known : ∀ {id}, Known t s' id → (t.scopes.Sees id → Known s s' id) → Known s s' id := by
    rintro id (sees | new) before
    · exact before sees
    · exact .inr (new.widen h.counted (Nat.le_refl _))
  have before : ∀ {id}, Known s t id → Known s s' id := fun known => known.imp_right later
  refine ⟨?_, Nat.le_trans h.counted h'.counted, h.paid.trans h'.paid, h'.sound, ?_, ?_, ?_,
    h.nested.append h'.nested, ?_⟩
  · rw [h'.code, h.code, append_assoc]
  · refine forall_mem_append.2 ⟨fun i mem id names => before (h.names i mem id names), ?_⟩
    exact fun i mem id names => known (h'.names i mem id names) fun sees => before (h.sight id sees)
  · exact fun id sees => known (h'.sight id sees) fun sees => before (h.sight id sees)
  · intro id mem
    rcases mem_append.1 (filterMap_append ▸ mem : id ∈ creations part ++ creations part') with mem | mem
    · exact later (h.new id mem)
    · exact (h'.new id mem).widen h.counted (Nat.le_refl _)
  · intro small ahead i after id split creates
    rcases Instr.split_append split with ⟨after', rfl, rfl⟩ | ⟨before', rfl, rfl⟩
    · have new := h.new id (mem_creations creates)
      obtain ⟨first, lived⟩ := h.spans (Nat.le_trans h'.counted small) ahead i after' id rfl creates
      refine ⟨first, ?_⟩
      rcases lived with unclosed | ⟨unseen, inner, outer, rfl, nested, away⟩
      · exact .inl (unclosed.append h'.nested)
      · -- What was numbered before and is out of sight is not named again.
        have gone : ∀ {id'}, Known t s' id' → id' ≠ id := by
          rintro _ known rfl
          exact unseen (new.sees_of_known known small)
        refine .inr ⟨fun sees => gone (h'.sight id sees) rfl, inner, outer ++ part', ?_, nested, ?_⟩
        · rw [append_assoc, cons_append]
        · refine forall_mem_append.2 ⟨away, fun j mem names => ?_⟩
          exact gone (h'.names j mem id names) rfl
    · have new := h'.new id (mem_creations creates)
      obtain ⟨first, lived⟩ := h'.spans small before' i after id rfl creates
      refine ⟨forall_mem_append.2 ⟨fun j mem names => ?_, first⟩, lived⟩
      exact new.not_numbered small (h.used mem names)

/-- A scope is closed around a piece of code, in the text and for names, and what is numbered in it goes
out of sight. -/
theorem Lives.bracket {n : Bytes} {u : State} (h : Lives (s.push ⟨.scopeBegin, .none, []⟩ n) t part)
    (sound : Sound u) (code : u.code = ⟨.scopeEnd, .none, []⟩ :: t.code) (scopes : u.scopes = t.scopes.exit)
    (counted : u.variableCount = t.variableCount)
    (gone : u.variableCount ≤ 2 ^ 32 → ∀ id, NewId s u id → ¬ u.scopes.Sees id) :
    Lives s u ([⟨.scopeBegin, .none, []⟩] ++ part ++ [⟨.scopeEnd, .none, []⟩]) := by
  have known : ∀ {id}, Known (s.push ⟨.scopeBegin, .none, []⟩ n) t id → Known s u id := fun known =>
    known.imp_right fun new => new.widen (Nat.le_refl _) (Nat.le_of_eq counted.symm)
  have bracketless : creations ([⟨.scopeBegin, .none, []⟩] ++ part ++ [⟨.scopeEnd, .none, []⟩]) = creations part := by
    simp [creations, Instr.created?]
  refine ⟨?_, ?_, ?_, sound, ?_, ?_, ?_, h.nested.scope, ?_⟩
  · rw [code, reverse_cons, h.code, State.push, reverse_cons]
    simp only [append_assoc]
  · exact counted ▸ h.counted
  · have opened : Paid s (s.push ⟨.scopeBegin, .none, []⟩ n) [⟨.scopeBegin, .none, []⟩] := Nat.le_refl _
    exact (opened.trans h.paid).trans (Nat.le_of_eq counted)
  · refine forall_mem_append.2 ⟨forall_mem_append.2 ⟨?_, fun i mem id names => ?_⟩, ?_⟩
    · exact forall_mem_singleton.2 (forall_mem_nil _)
    · exact known (h.names i mem id names)
    · exact forall_mem_singleton.2 (forall_mem_nil _)
  · exact fun id sees => known (h.sight id (scopes ▸ sees : t.scopes.exit.Sees id).of_exit)
  · intro id mem
    rw [bracketless] at mem
    exact (h.new id mem).widen (Nat.le_refl _) (Nat.le_of_eq counted.symm)
  · intro small before x after id split creates
    have new : NewId s u id := by
      refine (h.new id ?_).widen (Nat.le_refl _) (Nat.le_of_eq counted.symm)
      rw [← bracketless, split]
      exact mem_creations creates
    have unseen := gone small id new
    -- It is no bracket that creates the variable.
    rw [append_assoc] at split
    rcases Instr.split_append split with ⟨after', only, -⟩ | ⟨before', rest, rfl⟩
    · obtain ⟨_, rfl, _⟩ := Instr.split_singleton only
      cases creates
    rcases Instr.split_append rest with ⟨after', whole, rfl⟩ | ⟨before'', only, -⟩
    · obtain ⟨first, lived⟩ := h.spans (counted ▸ small) before' x after' id whole creates
      refine ⟨forall_mem_append.2 ⟨forall_mem_singleton.2 (not_mem_nil), first⟩, .inr ⟨unseen, ?_⟩⟩
      rcases lived with unclosed | ⟨_, inner, outer, rfl, nested, away⟩
      · exact ⟨after', [], rfl, unclosed, forall_mem_nil _⟩
      · refine ⟨inner, outer ++ [⟨.scopeEnd, .none, []⟩], ?_, nested, ?_⟩
        · rw [append_assoc, cons_append]
        · exact forall_mem_append.2 ⟨away, forall_mem_singleton.2 (not_mem_nil)⟩
    · obtain ⟨_, rfl, _⟩ := Instr.split_singleton only
      cases creates

theorem Sound.push {i : Instr} {bytes : Bytes} (h : Sound s) (none : i.operands = []) : Sound (s.push i bytes) := by
  refine ⟨h.made, ?_⟩
  rintro id (⟨j, mem, o, operand, isId⟩ | bound)
  · rcases mem_cons.1 mem with rfl | mem
    · rw [none] at operand
      cases operand
    · exact h.used id (.inl ⟨j, mem, o, operand, isId⟩)
  · exact h.used id (.inr bound)

theorem Lives.left (h : Lives s t part) (sound : Sound { t with scopes := t.scopes.exit }) :
    Lives s { t with scopes := t.scopes.exit } part := by
  refine { h with sound := sound, names := h.names, new := h.new, sight := ?_, spans := ?_ }
  · exact fun id sees => h.sight id sees.of_exit
  · intro small before i after id split creates
    obtain ⟨first, lived⟩ := h.spans small before i after id split creates
    exact ⟨first, lived.imp_right fun closed => ⟨fun sees => closed.1 sees.of_exit, closed.2⟩⟩

theorem Lives.outside {labels : LoopLabels} (h : Lives (s.inside labels) t part) : Lives s t.outside part :=
  ⟨h.code, h.counted, h.paid, h.sound.outside, h.names, h.sight, h.new, h.nested, h.spans⟩

/-! ## Marked variables -/

/-- The way from one state to another, with the variables that are created on it, each marked. -/
structure Marked (s s' : State) (part : List Instr) (made : List (Bool × UInt32)) : Prop extends Lives s s' part where
  labels : s.labelCount ≤ s'.labelCount
  loops : s'.loops = s.loops
  keeps : ∀ id, s.scopes.Sees id → s'.scopes.Sees id
  ids : made.map Prod.snd = creations part

theorem Marked.numbered {m : Bool × UInt32} (h : Marked s s' part made) (mem : m ∈ made) : NewId s s' m.2 :=
  h.new m.2 (h.ids ▸ mem_map_of_mem mem)

theorem Marked.trans (h : Marked s t part made) (h' : Marked t s' part' made') :
    Marked s s' (part ++ part') (made ++ made') where
  toLives := h.toLives.trans h'.toLives
  labels := Nat.le_trans h.labels h'.labels
  loops := h'.loops.trans h.loops
  keeps id sees := h'.keeps id (h.keeps id sees)
  ids := by rw [map_append, h.ids, h'.ids, creations, creations, creations, filterMap_append]

/-- A variable that, if it is numbered on the way, is one of those created that cannot be skipped. -/
def Watched (made : List (Bool × UInt32)) (s s' : State) (id : UInt32) : Prop := NewId s s' id → (false, id) ∈ made

/-- What is numbered on one part of a way is not numbered on the other. -/
theorem Watched.split (h : Marked s t part made) {w : State} (h' : Marked w s' part' made')
    (here : w.variableCount = t.variableCount) (small : s'.variableCount ≤ 2 ^ 32)
    (watched : Watched (made ++ made') s s' id) : t.variableCount ≤ 2 ^ 32 ∧ Watched made s t id ∧ Watched made' w s' id := by
  have later : t.variableCount ≤ s'.variableCount := here ▸ h'.counted
  have apart : NewId s t id → ¬ NewId w s' id := by
    rintro ⟨k, _, below, same⟩ new
    exact new.not_numbered small ⟨k, here ▸ below, same⟩
  refine ⟨Nat.le_trans later small, fun new => ?_, fun new => ?_⟩
  · rcases mem_append.1 (watched (new.widen (Nat.le_refl _) later)) with mem | mem
    · exact mem
    · exact absurd (h'.numbered mem) (apart new)
  · rcases mem_append.1 (watched (new.widen (here ▸ h.counted) (Nat.le_refl _))) with mem | mem
    · exact absurd new (apart (h.numbered mem))
    · exact mem

theorem Stretch.marked {outer : List Int32} (h : Stretch outer s s' part) : Marked s s' part [] where
  toLives := h.lives
  labels := h.labels
  loops := h.loops
  keeps id := (h.sees id).2
  ids := (filterMap_eq_nil_iff.2 fun i mem => (h.inner i mem).2).symm

/-! ## Promises -/

/-- The labels with numbers in a range stand for what was promised. -/
def Agrees (promise : Nat → Prop) (first count : Nat) (Λ : Int32 → Prop) : Prop :=
  ∀ n, first ≤ n → n < count → (Λ (.ofNat n) ↔ promise n)

def joined (middle : Nat) (p q : Nat → Prop) (n : Nat) : Prop := if n < middle then p n else q n

variable {p : Nat → Prop} {first count : Nat} {loops W : Prop} {opcode : Opcode} {u : Unit}
  {flags : List Bool} {m : Lower Unit} {item : List Instr}

theorem Agrees.split {q : Nat → Prop} {middle : Nat} (h : Agrees (joined middle p q) first count Λ)
    (before : first ≤ middle) (after : middle ≤ count) : Agrees p first middle Λ ∧ Agrees q middle count Λ := by
  constructor
  · intro n since below
    have whole := h n since (Nat.lt_of_lt_of_le below after)
    rwa [joined, if_pos below] at whole
  · intro n since below
    have whole := h n (Nat.le_trans before since) below
    rwa [joined, if_neg (Nat.not_lt.2 since)] at whole

theorem Agrees.narrow {first' count' : Nat} (h : Agrees p first count Λ)
    (before : first ≤ first') (after : count' ≤ count) : Agrees p first' count' Λ :=
  fun n since below => h n (Nat.le_trans before since) (Nat.lt_of_lt_of_le below after)

/-- What the labels of a loop promise: its start, where it goes on and its end. -/
def loopPromise (first : Nat) (start next done : Prop) (n : Nat) : Prop :=
  if n = first then start else if n = first + 1 then next else done

theorem Agrees.loop {start next done : Prop}
    (h : Agrees (loopPromise first start next done) first count Λ) (three : count = first + 3) :
    (Λ (.ofNat first) ↔ start) ∧ (Λ (.ofNat (first + 1)) ↔ next) ∧ (Λ (.ofNat (first + 2)) ↔ done) := by
  have promised := h first (by omega) (by omega)
  have promised' := h (first + 1) (by omega) (by omega)
  have promised'' := h (first + 2) (by omega) (by omega)
  rw [loopPromise, if_pos rfl] at promised
  rw [loopPromise, if_neg (by omega), if_pos rfl] at promised'
  rw [loopPromise, if_neg (by omega), if_neg (by omega)] at promised''
  exact ⟨promised, promised', promised''⟩

theorem Agrees.new {V : Prop} {l : Int32} (h : Agrees (fun _ => V) s.labelCount s'.labelCount Λ)
    (new : NewLabel s s' l) : Λ l ↔ V := by
  obtain ⟨n, since, below, rfl⟩ := new
  exact h n since below

/-- The labels of the loops around promise no more than what is in sight. -/
def LoopsKeep (Λ : Int32 → Prop) (id : UInt32) (s : State) : Prop :=
  ∀ labels ∈ s.loops, (Λ labels.onContinue → s.scopes.Sees id) ∧ (Λ labels.onBreak → s.scopes.Sees id)

theorem Marked.loopsKeep (h : Marked s t part made) (keep : LoopsKeep Λ id s) : LoopsKeep Λ id t := by
  intro labels mem
  rw [h.loops] at mem
  obtain ⟨next, done⟩ := keep labels mem
  exact ⟨fun promised => h.keeps id (next promised), fun promised => h.keeps id (done promised)⟩

/-- For some promises, and if need be with loops around, code is guided by what is in sight before it, and
`W` is carried out of it. -/
def Flows (loops : Prop) (id : UInt32) (s s' : State) (part : List Instr) (W : Prop) : Prop :=
  ∃ promise, ∀ Λ, Agrees promise s.labelCount s'.labelCount Λ → (loops → LoopsKeep Λ id s) →
    Guides Λ id (s.scopes.Sees id) part W

theorem Flows.append (h : Flows loops id s t part (t.scopes.Sees id))
    (h' : Flows loops id t s' part' W) (marked : Marked s t part made) (labels : t.labelCount ≤ s'.labelCount) :
    Flows loops id s s' (part ++ part') W := by
  obtain ⟨p, guides⟩ := h
  obtain ⟨q, guides'⟩ := h'
  refine ⟨joined t.labelCount p q, fun Λ agrees keep => ?_⟩
  obtain ⟨first, second⟩ := agrees.split marked.labels labels
  exact (guides Λ first keep).append (guides' Λ second fun need => marked.loopsKeep (keep need))

theorem Flows.mono {loops' W' : Prop} (h : Flows loops id s s' part W) (need : loops → loops')
    (after : W' → W) : Flows loops' id s s' part W' := by
  obtain ⟨p, guides⟩ := h
  exact ⟨p, fun Λ agrees keep => (guides Λ agrees fun needed => keep (need needed)).mono (·) after⟩

theorem Stretch.guides {outer : List Int32} (h : Stretch outer s s' part) (watched : Watched [] s s' id)
    (agrees : Agrees (fun _ => s.scopes.Sees id) s.labelCount s'.labelCount Λ)
    (promised : ∀ l ∈ outer, Λ l ↔ s.scopes.Sees id) :
    Guides Λ id (s.scopes.Sees id) part (s'.scopes.Sees id) := by
  have labels : ∀ l, NewLabel s s' l ∨ l ∈ outer → (Λ l ↔ s.scopes.Sees id) := by
    rintro l (new | known)
    · exact agrees.new new
    · exact promised l known
  refine (Instr.guides_quiet (fun i mem names => ?_) (fun i mem l label => labels l (h.defines i mem l label))
    fun i mem l target => (labels l (h.targets i mem l target)).1).mono (·) (h.sees id).1
  rcases h.names i mem id names with sees | new
  · exact sees
  · cases watched new

/-! ## Code that can be watched -/

/-- Code whose variables are marked, and that does something for each of them that is watched. -/
def Tracks (flags : List Bool) (P : UInt32 → List Instr → Prop) (s s' : State) : Prop :=
  ∃ part made, Marked s s' part made ∧ made.map Prod.fst = flags ∧
    (s'.variableCount ≤ 2 ^ 32 → ∀ id, Watched made s s' id → P id part)

/-- Code in which the variables that cannot be skipped are created first.  If it is `steady`, none of them
comes into sight. -/
def Watches (flags : List Bool) (steady loops : Prop) (s s' : State) : Prop :=
  Tracks flags (fun id part => (steady → s'.scopes.Sees id → s.scopes.Sees id) ∧
    Flows loops id s s' part (s'.scopes.Sees id)) s s'

/-- The same, but what comes into sight goes out of sight at the end. -/
def Encloses (flags : List Bool) (loops : Prop) (s s' : State) : Prop :=
  Tracks flags (fun id part => Flows loops id s s' part (s.scopes.Sees id)) s s'

section Watches

variable {flags flags' : List Bool} {steady loops steady' loops' : Prop} {P P' Q : UInt32 → List Instr → Prop}

theorem Tracks.imp (h : Tracks flags P s s')
    (weaken : ∀ {id part made}, Marked s s' part made → P id part → Q id part) : Tracks flags Q s s' := by
  obtain ⟨part, made, marked, same, watch⟩ := h
  exact ⟨part, made, marked, same, fun small id watched => weaken marked (watch small id watched)⟩

theorem Tracks.append (h : Tracks flags P s t) (h' : Tracks flags' P' t s')
    (join : ∀ {id part part' made made'}, Marked s t part made → Marked t s' part' made' →
      P id part → P' id part' → Q id (part ++ part')) : Tracks (flags ++ flags') Q s s' := by
  obtain ⟨part, made, marked, rfl, watch⟩ := h
  obtain ⟨part', made', marked', rfl, watch'⟩ := h'
  refine ⟨part ++ part', made ++ made', marked.trans marked', map_append, fun small id watched => ?_⟩
  obtain ⟨small', first, second⟩ := watched.split marked marked' rfl small
  exact join marked marked' (watch small' id first) (watch' small id second)

theorem Watches.sound (h : Watches flags steady loops s s') : Sound s' := by
  obtain ⟨_, _, marked, _⟩ := h
  exact marked.sound

theorem Watches.mono (h : Watches flags steady loops s s') (still : steady' → steady) (need : loops → loops') :
    Watches flags steady' loops' s s' :=
  h.imp fun _ watch => ⟨fun needed => watch.1 (still needed), watch.2.mono need (·)⟩

theorem Watches.within (h : Watches flags steady False s s') (loops : Prop) : Watches flags steady loops s s' :=
  h.mono (·) False.elim

theorem Watches.trans (h : Watches flags steady loops s t) (h' : Watches flags' steady loops t s') :
    Watches (flags ++ flags') steady loops s s' :=
  h.append h' fun marked marked' first second => ⟨fun need sees => first.1 need (second.1 need sees),
    first.2.append second.2 marked marked'.labels⟩

theorem Watches.encloses (h : Watches flags steady loops s t) (h' : Encloses flags' loops t s') :
    Encloses (flags ++ flags') loops s s' :=
  h.append h' fun marked marked' first second =>
    (first.2.append second marked marked'.labels).mono (·) (marked.keeps _)

theorem Watches.enclosed (h : Watches flags steady loops s s') : Encloses flags loops s s' :=
  h.imp fun marked watch => watch.2.mono (·) (marked.keeps _)

theorem Stretch.watches (h : Stretch [] s s' part) : Watches [] steady loops s s' :=
  ⟨part, [], h.marked, rfl, fun _ id watched => ⟨fun _ => (h.sees id).1, fun _ => s.scopes.Sees id,
    fun _ agrees _ => h.guides watched agrees (forall_mem_nil _)⟩⟩

/-- The variable that is created is marked as one likes; if it can be skipped, it is not watched. -/
theorem Creates.watches {type : CType} (h : Creates type s s') (skip : Bool) :
    Watches [skip] (skip = true) loops s s' := by
  have new : NewId s s' (.ofNat s.variableCount) :=
    ⟨s.variableCount, Nat.le_refl _, by rw [h.counted]; exact Nat.lt_succ_self _, rfl⟩
  refine ⟨_, [(skip, .ofNat s.variableCount)], ⟨h.lives, Nat.le_of_eq h.labels.symm, h.loops,
    fun id sees => (h.sees id).2 (.inl sees), rfl⟩, rfl,
    fun _ id watched => ⟨fun skipped sees => ?_, fun _ => True, fun _ _ _ => ?_⟩⟩
  · refine ((h.sees id).1 sees).resolve_right fun same => ?_
    subst same
    have marked := mem_singleton.1 (watched new)
    rw [skipped] at marked
    cases (Prod.mk.inj marked).1
  · exact (Instr.guides_create _ _ _).mono (·) (h.sees id).1

end Watches

/-! ## Scopes -/

theorem watches_refl (sound : Sound s) (steady loops : Prop) : Watches [] steady loops s s :=
  (Stretch.refl [] sound).watches

theorem Watches.left (h : Watches flags True loops s t) (sound : Sound { t with scopes := t.scopes.exit })
    (restored : ∀ id, t.scopes.exit.Sees id ↔ s.scopes.Sees id) :
    Watches flags True loops s { t with scopes := t.scopes.exit } := by
  obtain ⟨part, made, marked, same, watch⟩ := h
  refine ⟨part, made, ⟨marked.toLives.left sound, marked.labels, marked.loops, fun id => (restored id).2, marked.ids⟩,
    same, fun small id watched => ⟨fun _ => (restored id).1, ?_⟩⟩
  exact (watch small id watched).2.mono (·) fun sees => marked.keeps id ((restored id).1 sees)

/-- A scope whose names are closed together with the brackets around the last part of it. -/
theorem watches_inScope {m' : Lower Unit} {flags' : List Bool} (nests : Nested [] (inScope do m; bracketed m'))
    (sound : Sound s) (run : inScope (do m; bracketed m') s = .ok () s')
    (first : ∀ t u, Sound t → m t = .ok () u → Watches flags False loops t u)
    (second : ∀ t u, Sound t → m' t = .ok () u → Encloses flags' loops t u) :
    Watches (flags ++ flags') True loops s s' := by
  have seen := (nests s () s' sound.made run).scopes
  obtain ⟨_, t₁, entered, run⟩ := bind_eq_ok.1 run
  obtain ⟨_, t₅, run, left⟩ := bind_eq_ok.1 run
  obtain ⟨_, t₂, opening, run⟩ := bind_eq_ok.1 run
  obtain ⟨_, t₃, opened, run⟩ := bind_eq_ok.1 run
  obtain ⟨_, t₄, inner, closed⟩ := bind_eq_ok.1 run
  have enters := sound.entered entered
  obtain ⟨part, made, marked, rfl, watch⟩ := first t₁ t₂ enters.sound opening
  obtain ⟨_, _, rfl⟩ := emit_eq_ok.1 opened
  obtain ⟨part', made', marked', rfl, watch'⟩ := second _ t₄ (marked.sound.push rfl) inner
  obtain ⟨_, _, rfl⟩ := emit_eq_ok.1 closed
  have finish : Sound s' := (marked'.sound.push rfl).piece .exitScope left
  obtain rfl := modify_eq_ok.1 left
  have restored : ∀ id, t₄.scopes.exit.Sees id ↔ s.scopes.Sees id := fun id => seen.sees sound.made
  have way := enters.marked.trans marked
  -- What is in sight behind the scope was numbered before it.
  have gone : t₄.variableCount ≤ 2 ^ 32 → ∀ id, NewId t₂ t₄ id → ¬ t₄.scopes.exit.Sees id := by
    intro small id new sees
    obtain ⟨k, below, same⟩ := sound.used.of_sees ((restored id).1 sees)
    exact new.not_numbered small ⟨k, Nat.lt_of_lt_of_le below way.counted, same⟩
  have lives := way.toLives.trans (marked'.toLives.bracket finish rfl rfl rfl gone)
  refine ⟨_, made ++ made', ⟨lives, Nat.le_trans way.labels marked'.labels, marked'.loops.trans way.loops,
    fun id => (restored id).2, ?_⟩, map_append, fun small id watched => ⟨fun _ => (restored id).1, ?_⟩⟩
  · simp [creations, Instr.created?, marked.ids, marked'.ids]
  obtain ⟨small', watched, watched'⟩ := watched.split way marked' rfl small
  obtain ⟨p, guides⟩ := (watch small' id fun new => watched (new.widen enters.counted (Nat.le_refl _))).2
  obtain ⟨q, guides'⟩ := watch' small id watched'
  refine ⟨joined t₂.labelCount p q, fun Λ agrees keep => ?_⟩
  obtain ⟨agrees, agrees'⟩ := agrees.split way.labels marked'.labels
  have outer := guides Λ (agrees.narrow enters.labels (Nat.le_refl _)) fun need => enters.marked.loopsKeep (keep need)
  have bracket := ((Instr.guides_plain .scopeBegin).append
    (guides' Λ agrees' fun need => way.loopsKeep (keep need))).append (Instr.guides_plain .scopeEnd)
  exact (outer.append bracket).mono (enters.sees id).1 fun sees => way.keeps id ((restored id).1 sees)

theorem watches_bracketed (nests : Nested [] (inScope (bracketed m))) (sound : Sound s)
    (run : inScope (bracketed m) s = .ok () s')
    (inner : ∀ t u, Sound t → m t = .ok () u → Encloses flags loops t u) : Watches flags True loops s s' := by
  show Watches ([] ++ flags) True loops s s'
  refine watches_inScope (m := pure ()) nests sound run (fun t u sound run => ?_) inner
  obtain ⟨_, rfl⟩ := pure_eq_ok.1 run
  exact watches_refl sound _ _

/-! ## Declarations -/

/-- Declarations are counted by the marks of their variables, which are all the same. -/
def marking (skip : Bool) : Ledger (List Bool) where
  one := []
  mul := (· ++ ·)
  link _ := []
  object _ := []
  automatic _ _ := [skip]
  frame f body := (TopLevel.define f body).skippable
  one_mul _ := rfl
  mul_one := append_nil

theorem declaring_watches {skip : Bool} {steady loops : Prop} (still : steady → skip = true) :
    Declaring (marking skip) (fun _ => True) fun flags s s' => Sound s → Watches flags steady loops s s' where
  refl _ sound := watches_refl sound _ _
  trans first second sound := (first sound).trans (second (first sound).sound)
  linking linked sound := (sound.linking linked).watches
  bound type other statics free sound := (sound.bound type other statics free).watches
  announced run sound := (sound.announced run).watches
  defined run sound := by
    obtain ⟨_, stretch⟩ := sound.defined run
    exact stretch.watches
  filled _ run sound := by
    obtain ⟨_, _, creates, stretch⟩ := sound.filled run
    exact ((creates.watches skip).trans stretch.watches).mono still (·)
  taken _ run sound := by
    obtain ⟨_, _, creates, stretch⟩ := sound.taken run
    exact ((creates.watches skip).trans stretch.watches).mono still (·)

theorem watches_localDeclaration {d : Declaration} (skip : Bool) (sound : Sound s)
    (run : localDeclaration d s = .ok () s') : Watches (d.marks skip) (skip = true) False s s' := by
  have marks : (marking skip).declaration d = d.marks skip := by
    cases d with
    | proto f => rfl
    | var v =>
      unfold Declaration.marks Declaration.isAutomatic
      cases linkage : v.linkage <;> simp only [Ledger.declaration, linkage] <;> rfl
  exact marks ▸ (declaring_watches (·)).localDeclaration run sound

theorem watches_localDeclarations {ds : List Declaration} (skip : Bool) (sound : Sound s)
    (run : localDeclarations ds s = .ok () s') :
    Watches (ds.flatMap (·.marks skip)) (skip = true) False s s' := by
  induction ds generalizing s with
  | nil =>
    obtain ⟨_, rfl⟩ := pure_eq_ok.1 run
    exact watches_refl sound _ _
  | cons d ds ih =>
    obtain ⟨_, t, first, rest⟩ := bind_eq_ok.1 run
    have watches := watches_localDeclaration skip sound first
    exact watches.trans (ih watches.sound rest)

theorem watches_forInit {init : Option ForInit} (sound : Sound s) (run : forInit init s = .ok () s') :
    Watches (ForInit.skippable init) False False s s' := by
  match init with
  | none =>
    obtain ⟨_, rfl⟩ := pure_eq_ok.1 run
    exact watches_refl sound _ _
  | some (.expr _ e) =>
    obtain ⟨part, stretch⟩ := sound.discard run
    exact stretch.watches
  | some (.decls _ ds) => exact (watches_localDeclarations false sound run).mono False.elim (·)

/-! ## Branches and loops -/

section Bodies

variable {outer : List Int32} {flags flags' : List Bool}

theorem Marked.outside {labels : LoopLabels} (h : Marked (s.inside labels) s' part made) :
    Marked s s'.outside part made :=
  ⟨h.toLives.outside, h.labels, congrArg List.tail h.loops, h.keeps, h.ids⟩

theorem LoopsKeep.inside {labels : LoopLabels} (h : LoopsKeep Λ id s)
    (next : Λ labels.onContinue → s.scopes.Sees id) (done : Λ labels.onBreak → s.scopes.Sees id) :
    LoopsKeep Λ id (s.inside labels) :=
  forall_mem_cons.2 ⟨⟨next, done⟩, h⟩

/-- Steady code in loops, which goes to labels of the code around it.  They promise what is in sight. -/
def WatchesIn (outer : List Int32) (flags : List Bool) (s s' : State) : Prop :=
  Tracks flags (fun id part => (s'.scopes.Sees id → s.scopes.Sees id) ∧
    ∃ promise, ∀ Λ, Agrees promise s.labelCount s'.labelCount Λ → (∀ l ∈ outer, Λ l ↔ s.scopes.Sees id) →
      LoopsKeep Λ id s → Guides Λ id (s.scopes.Sees id) part (s'.scopes.Sees id)) s s'

theorem WatchesIn.trans (h : WatchesIn outer flags s t) (h' : WatchesIn outer flags' t s') :
    WatchesIn outer (flags ++ flags') s s' := by
  refine h.append h' fun {id} _ _ _ _ marked marked' first second => ?_
  obtain ⟨stays, p, guides⟩ := first
  obtain ⟨stays', q, guides'⟩ := second
  have same : t.scopes.Sees id ↔ s.scopes.Sees id := ⟨stays, marked.keeps id⟩
  refine ⟨fun sees => stays (stays' sees), joined t.labelCount p q, fun Λ agrees promised keep => ?_⟩
  obtain ⟨first, second⟩ := agrees.split marked.labels marked'.labels
  exact (guides Λ first promised keep).append
    (guides' Λ second (fun l mem => (promised l mem).trans same.symm) (marked.loopsKeep keep))

theorem Stretch.watchesIn (h : Stretch outer s s' part) : WatchesIn outer [] s s' :=
  ⟨part, [], h.marked, rfl, fun _ id watched => ⟨(h.sees id).1, fun _ => s.scopes.Sees id,
    fun _ agrees promised _ => h.guides watched agrees promised⟩⟩

theorem Watches.watchesIn (h : Watches flags True True s s') : WatchesIn outer flags s s' := by
  refine h.imp fun _ watch => ?_
  obtain ⟨stays, promise, guides⟩ := watch
  exact ⟨stays trivial, promise, fun Λ agrees _ keep => guides Λ agrees fun _ => keep⟩

theorem Watches.inLoop {start done : Int32} (h : Watches flags True True (s.inside ⟨start, done⟩) s') :
    WatchesIn [start, done] flags s s'.outside := by
  obtain ⟨part, made, marked, same, watch⟩ := h
  refine ⟨part, made, marked.outside, same, fun small id watched => ?_⟩
  obtain ⟨stays, promise, guides⟩ := watch small id watched
  refine ⟨stays trivial, promise, fun Λ agrees promised keep => guides Λ agrees fun _ => ?_⟩
  exact keep.inside (promised start (by simp)).1 (promised done (by simp)).1

theorem WatchesIn.behind (h : WatchesIn outer flags t s') (head : Stretch [] s t part)
    (new : ∀ l ∈ outer, NewLabel s t l) : Watches flags True True s s' := by
  obtain ⟨part', made, marked, rfl, watch⟩ := h
  refine ⟨_, made, head.marked.trans marked, rfl, fun small id watched => ?_⟩
  obtain ⟨_, first, second⟩ := watched.split head.marked marked rfl small
  obtain ⟨stays, promise, guides⟩ := watch small id second
  have before := head.sees id
  refine ⟨fun _ sees => before.1 (stays sees), joined t.labelCount (fun _ => s.scopes.Sees id) promise,
    fun Λ agrees keep => ?_⟩
  obtain ⟨agrees, agrees'⟩ := agrees.split head.labels marked.labels
  exact (head.guides first agrees (forall_mem_nil _)).append
    (guides Λ agrees' (fun l mem => (agrees.new (new l mem)).trans before.symm)
      (head.marked.loopsKeep (keep trivial)))

end Bodies

section Statements

variable {loc : Location} {cond : Expr} {m m' : Lower Unit} {flags flags' : List Bool}

theorem watches_whileLoop (sound : Sound s) (run : whileCode cond m s = .ok () s')
    (inner : ∀ t u, Sound t → m t = .ok () u → Watches flags True True t u) : Watches flags True True s s' := by
  obtain ⟨t, u, part, start, done, test, newStart, newDone, ran, finish⟩ :=
    sound.whileLoop run fun t u sound run => (inner t u sound run).sound
  have body := (inner _ u (test.sound.inside _) ran).inLoop.trans finish.watchesIn
  rw [← append_nil flags]
  exact body.behind test (forall_mem_cons.2 ⟨newStart, forall_mem_singleton.2 newDone⟩)

/-- Each branch is a body on its own; the second starts from where the first was skipped. -/
theorem watches_choice (sound : Sound s) (run : choiceCode cond m m' s = .ok () s')
    (inner : ∀ t u, Sound t → m t = .ok () u → Watches flags True True t u)
    (inner' : ∀ t u, Sound t → m' t = .ok () u → Watches flags' True True t u) :
    Watches (flags ++ flags') True True s s' := by
  obtain ⟨t, u, w, x, part, elseLabel, endLabel, decision, newElse, newEnd, ran, middle, ran', finish⟩ :=
    sound.choice run (fun t u sound run => (inner t u sound run).sound) fun t u sound run =>
      (inner' t u sound run).sound
  have finish : Stretch [elseLabel, endLabel] x s' _ := finish.cover (forall_mem_singleton.2 (.inr (by simp)))
  have first := (inner t u decision.sound ran).watchesIn.trans middle.watchesIn
  have second := (inner' w x middle.sound ran').watchesIn.trans finish.watchesIn
  have branches := (first.trans second).behind decision
    (forall_mem_cons.2 ⟨newElse, forall_mem_singleton.2 newEnd⟩)
  rwa [append_nil, append_nil] at branches

theorem guides_back {V : Prop} {l : Int32} (round : Round) (h : Λ l → V) : Guides Λ id V [round.back l] V := by
  cases round with
  | test cond => exact Instr.guides_branch h
  | step e => exact Instr.guides_jump h

variable {steady loops : Prop}

/-- The body sees what is in sight before the loop, and what is behind it is reached past the body only.  Where a
loop is left, at most that is promised, and no more than before the loop if its test may fail at once.  A body
that is left for loops around it is one that brings nothing into sight. -/
theorem loop_flows {cond : Option Expr} {round : Round} (calm : loops → steady) (sound : Sound s)
    (run : loopCode cond m round s = .ok () s')
    (inner : ∀ t u, Sound t → m t = .ok () u → Watches flags steady loops t u) :
    Tracks flags (fun id part => (steady → s'.scopes.Sees id → s.scopes.Sees id) ∧
      ∀ W, (s.scopes.Sees id → W) → (W → s'.scopes.Sees id) → (cond = none ∨ (W → s.scopes.Sees id)) →
        Flows loops id s s' part W) s s' := by
  obtain ⟨t, t', u, w, pre, post, head, labels, test, untested, ran, step, tail⟩ :=
    sound.loop run fun t u sound run => (inner t u sound run).sound
  obtain ⟨_, made, inside, rfl, watch⟩ := inner _ u (test.sound.inside _) ran
  have marked := inside.outside
  have way₁ := head.marked.trans test.marked
  have way₂ := way₁.trans marked
  have way₃ := way₂.trans step.marked
  refine ⟨_, [] ++ [] ++ made ++ [] ++ [], way₃.trans tail.marked, by simp, fun small id watched => ?_⟩
  obtain ⟨small₃, watched, _⟩ := watched.split way₃ tail.marked rfl small
  obtain ⟨small₂, watched, watched₄⟩ := watched.split way₂ step.marked rfl small₃
  obtain ⟨small₁, watched, watched₃⟩ := watched.split way₁ marked rfl small₂
  obtain ⟨_, _, watched₂⟩ := watched.split head.marked test.marked rfl small₁
  obtain ⟨stays, promise, guides⟩ := watch small₂ id watched₃
  have before := head.sees id
  have tested := (test.sees id).trans before
  have behind : w.scopes.Sees id ↔ u.scopes.Sees id := step.sees id
  have ending := (tail.sees id).trans behind
  refine ⟨fun need sees => tested.1 (stays need (ending.1 sees)), fun W least most early => ?_⟩
  refine ⟨joined t.labelCount (loopPromise s.labelCount (s.scopes.Sees id) (u.scopes.Sees id) W)
    (joined t'.labelCount (fun _ => t.scopes.Sees id) (joined u.labelCount promise fun _ => u.scopes.Sees id)),
    fun Λ agrees keep => ?_⟩
  have labels₃ := Nat.le_trans step.labels tail.labels
  have labels₂ := Nat.le_trans marked.labels labels₃
  obtain ⟨agrees₁, agrees⟩ := agrees.split head.labels (Nat.le_trans test.labels labels₂)
  obtain ⟨agrees₂, agrees⟩ := agrees.split test.labels labels₂
  obtain ⟨agrees₃, agrees₄⟩ := agrees.split marked.labels labels₃
  obtain ⟨start, next, done⟩ := agrees₁.loop labels
  have opens : Guides Λ id (s.scopes.Sees id) [.label (.ofNat s.labelCount)] (t.scopes.Sees id) :=
    (Instr.guides_label start.1).mono (·) fun sees => start.2 (before.1 sees)
  have tests : Guides Λ id (t.scopes.Sees id) pre (t'.scopes.Sees id) := by
    rcases early with none | early
    · obtain ⟨rfl, rfl⟩ := untested none
      exact Instr.guides_nil
    · have promised : W ↔ t.scopes.Sees id := ⟨fun holds => before.2 (early holds), fun sees => least (before.1 sees)⟩
      exact test.guides watched₂ agrees₂ (forall_mem_singleton.2 (done.trans promised))
  have runs := guides Λ agrees₃ fun need => (way₁.loopsKeep (keep need)).inside
    (fun promised => stays (calm need) (next.1 promised))
    fun promised => stays (calm need) (ending.1 (most (done.1 promised)))
  have steps := step.guides watched₄ (agrees₄.narrow (Nat.le_refl _) tail.labels) (forall_mem_singleton.2 next)
  have back : Λ (.ofNat s.labelCount) → w.scopes.Sees id :=
    fun promised => behind.2 (marked.keeps id (tested.2 (start.1 promised)))
  have ends : Guides Λ id (w.scopes.Sees id) [.label (.ofNat (s.labelCount + 2))] W :=
    (Instr.guides_label fun promised => behind.2 (ending.1 (most (done.1 promised)))).mono (·) done.2
  exact (((opens.append tests).append runs).append steps).append ((guides_back round back).append ends)

/-- The body is run first, so what it brings into sight is known behind the loop. -/
theorem watches_doWhile {round : Round} (calm : loops → steady) (sound : Sound s)
    (run : loopCode none m round s = .ok () s')
    (inner : ∀ t u, Sound t → m t = .ok () u → Watches flags steady loops t u) : Watches flags steady loops s s' :=
  (loop_flows calm sound run inner).imp fun marked watch => ⟨watch.1, watch.2 _ (marked.keeps _) (·) (.inl rfl)⟩

theorem encloses_forLoop {test? : Option Expr} {round : Round} (calm : loops → steady) (sound : Sound s)
    (run : loopCode test? m round s = .ok () s')
    (inner : ∀ t u, Sound t → m t = .ok () u → Watches flags steady loops t u) : Encloses flags loops s s' :=
  (loop_flows calm sound run inner).imp fun marked watch => watch.2 _ (·) (marked.keeps _) (.inr (·))

theorem watches_leave {target : LoopLabels → Int32} {what : Unsupported} (sound : Sound s)
    (run : leaveLoop target what loc s = .ok () s')
    (promised : ∀ Λ id, LoopsKeep Λ id s → ∀ labels ∈ s.loops, Λ (target labels) → s.scopes.Sees id) :
    Watches [] True True s s' := by
  obtain ⟨labels, mem, stretch⟩ := sound.leave run
  refine ⟨_, [], stretch.marked, rfl, fun _ id _ => ?_⟩
  refine ⟨fun _ => (stretch.sees id).1, fun _ => True, fun Λ _ keep => ?_⟩
  exact (Instr.guides_jump (promised Λ id (keep trivial) labels mem)).mono (·) (stretch.sees id).1

end Statements

mutual

theorem watches_statement (st : Stmt) (skip : Bool) (s s' : State) (sound : Sound s)
    (run : statement st s = .ok () s') :
    Watches (st.skippable skip) (skip = true ∨ st.isBare = false) (st.isBare = false) s s' := by
  match st with
  | .expr _ e =>
    obtain ⟨part, stretch⟩ := sound.discard run
    exact stretch.watches
  | .block loc body =>
    have nests : Nested [] (statement (.block loc body)) := nested_statement (.block loc body)
    rw [statement_block] at run nests
    have watches : Watches (Stmt.skippableAll body) True True s s' :=
      watches_bracketed nests sound run fun t u sound run => (watches_statements body t u sound run).enclosed
    exact watches.mono (fun _ => trivial) fun _ => rfl
  | .ifThen loc cond yes =>
    rw [statement_ifThen] at run
    rw [Stmt.skippable, ← append_nil (yes.skippable true)]
    refine (watches_choice sound run (fun t u sound run => ?_) fun t u sound run => ?_).mono (fun _ => trivial)
      fun _ => rfl
    · exact (watches_statement yes true t u sound run).mono (fun _ => .inl rfl) fun _ => trivial
    · obtain ⟨_, rfl⟩ := pure_eq_ok.1 run
      exact watches_refl sound _ _
  | .ifElse _ cond yes no =>
    refine (watches_choice sound run (fun t u sound run => ?_) fun t u sound run => ?_).mono (fun _ => trivial)
      fun _ => rfl
    · exact (watches_statement yes true t u sound run).mono (fun _ => .inl rfl) fun _ => trivial
    · exact (watches_statement no true t u sound run).mono (fun _ => .inl rfl) fun _ => trivial
  | .whileLoop _ cond body =>
    refine (watches_whileLoop sound run fun t u sound run => ?_).mono (fun _ => trivial) fun _ => rfl
    exact (watches_statement body true t u sound run).mono (fun _ => .inl rfl) fun _ => trivial
  | .doWhile _ body cond =>
    rw [statement_doWhile] at run
    exact watches_doWhile .inr sound run (watches_statement body skip)
  | .forLoop loc init cond step body =>
    have nests : Nested [] (statement (.forLoop loc init cond step body)) :=
      nested_statement (.forLoop loc init cond step body)
    rw [statement_forLoop] at run nests
    have watches : Watches (ForInit.skippable init ++ body.skippable false) True (body.isBare = false) s s' := by
      refine watches_bracketed nests sound run fun t u sound run => ?_
      obtain ⟨_, w, first, rest⟩ := bind_eq_ok.1 run
      have opens := (watches_forInit sound first).within (body.isBare = false)
      exact opens.encloses (encloses_forLoop .inr opens.sound rest (watches_statement body false))
    exact watches.mono (fun _ => trivial) fun _ => rfl
  | .ret loc value? =>
    obtain ⟨part, stretch⟩ := sound.returnStatement run
    exact stretch.watches
  | .decls _ ds =>
    refine (watches_localDeclarations skip sound run).mono (fun steady => ?_) False.elim
    exact steady.resolve_right Bool.noConfusion
  | .brk loc =>
    refine (watches_leave sound run fun Λ id keep labels mem => ?_).mono (fun _ => trivial) fun _ => rfl
    exact (keep labels mem).2
  | .cont loc =>
    refine (watches_leave sound run fun Λ id keep labels mem => ?_).mono (fun _ => trivial) fun _ => rfl
    exact (keep labels mem).1
  | .empty _ =>
    obtain ⟨_, rfl⟩ := pure_eq_ok.1 run
    exact watches_refl sound _ _

theorem watches_statements (body : List Stmt) (s s' : State) (sound : Sound s) (run : statements body s = .ok () s') :
    Watches (Stmt.skippableAll body) False True s s' := by
  match body with
  | [] =>
    obtain ⟨_, rfl⟩ := pure_eq_ok.1 run
    exact watches_refl sound _ _
  | st :: rest =>
    obtain ⟨_, t, first, later⟩ := bind_eq_ok.1 run
    have watches := watches_statement st false s t sound first
    exact (watches.mono False.elim fun _ => trivial).trans (watches_statements rest t s' watches.sound later)

end

/-! ## Functions -/

theorem marking_parameters (params : List Param) : (marking false).parameters params = params.map fun _ => false := by
  induction params with
  | nil => rfl
  | cons p rest ih => exact congrArg ([false] ++ ·) ih

theorem watches_functionFrame {f : FunctionDecl} {body : List Stmt} (sound : Sound s)
    (run : functionFrame f body s = .ok () s') :
    Watches (TopLevel.define f body).skippable True True s s' := by
  have opening := nested_bindParameters f.loc 0 f.params
  obtain ⟨names, inner⟩ := nested_statements body
  have nests := nested_functionFrame f body
  have nests' := nested_inScope _ (nested_bind opening fun _ => nested_bracketed inner)
  rw [functionFrame_eq] at run nests
  have seen := (nests s () s' sound.made run).scopes
  obtain ⟨_, t, entered, run⟩ := bind_eq_ok.1 run
  obtain ⟨_, u, run, left⟩ := bind_eq_ok.1 run
  obtain ⟨_, w, prologue, run⟩ := bind_eq_ok.1 run
  obtain ⟨_, x, framed, run⟩ := bind_eq_ok.1 run
  obtain ⟨_, y, epilogue, returned⟩ := bind_eq_ok.1 run
  have enters := sound.entered entered
  have first := (Stretch.refl [] enters.sound).emit prologue ⟨rfl, rfl⟩ (forall_mem_nil _)
    (fun l defines => by cases defines) (forall_mem_nil _)
  have second : Watches (TopLevel.define f body).skippable True True w x := by
    refine watches_inScope nests' first.sound framed (fun t u sound run => ?_) fun t u sound run => ?_
    · exact marking_parameters f.params ▸ (declaring_watches False.elim).bindParameters (fun _ _ => trivial) run sound
    · exact (watches_statements body t u sound run).enclosed
  have third := (Stretch.refl [] second.sound).emit epilogue ⟨rfl, rfl⟩ (forall_mem_nil _)
    (fun l defines => by cases defines) (forall_mem_nil _)
  have fourth := third.emit returned ⟨rfl, rfl⟩ (forall_mem_nil _) (fun l defines => by cases defines)
    (forall_mem_nil _)
  have whole := ((enters.trans first).watches.trans second).trans fourth.watches
  rw [nil_append, append_nil] at whole
  have finish : Sound s' := whole.sound.piece .exitScope left
  obtain rfl := modify_eq_ok.1 left
  exact whole.left finish fun id => seen.sees sound.made

theorem filing_watches :
    Filing (marking true) (fun _ => True) fun flags s s' => Sound s → Watches flags True True s s' where
  toDeclaring := declaring_watches fun _ => rfl
  directive run sound := by
    obtain ⟨_, stretch⟩ := sound.directive run
    exact stretch.watches
  resembles same sound := (sound.resembles same).watches
  framed _ run sound := watches_functionFrame sound run

theorem watches_topLevel {t : TopLevel} (sound : Sound s) (run : topLevel t s = .ok () s') :
    Watches t.skippable True True s s' := by
  have marks : (marking true).topLevel t = t.skippable := by
    match t with
    | .declare (.proto f) => rfl
    | .declare (.var v) => exact ite_self ([] : List Bool)
    | .define f body => rfl
  exact marks ▸ filing_watches.topLevel (fun _ _ _ _ _ => trivial) run sound

end Lowering

end Cof
