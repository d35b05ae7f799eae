/-
  Compiling does not depend on layout.

  Two sources with the same tokens may differ in blanks, comments, preprocessor lines, in how a literal is
  spelled, and in the positions of everything.  They compile to the same module, byte for byte, or they
  have the same error, and its message differs only in the line and the column.

  Reading and lowering both commute with moving positions.  Moved all to one place, the tokens of the two
  sources are equal, and so are then the programs, the code and the errors.
-/
import Cof.Proofs.Lexed
import Cof.Proofs.RelabeledCode

namespace Cof

open Lowering

/-! ## Errors and where they are -/

namespace CompileError

def moveTo (loc : Location) : CompileError → CompileError
  | lex e => lex { e with loc }
  | form fault _ => form fault loc
  | lower fault _ => lower fault loc
  | write e => write e

def place (e : CompileError) : String := (e.loc?.map Location.describe).getD ""

end CompileError

theorem Lowering.Fault.message_around (fault : Fault) :
    ∃ before after, ∀ loc, fault.message loc = before ++ loc.describe ++ after := by
  -- Most messages end with the position.
  have ending : ∀ text : String, ∃ before after, ∀ loc : Location,
      text ++ (" at " ++ loc.describe) = before ++ loc.describe ++ after := by
    intro text
    refine ⟨text ++ " at ", "", fun loc => ?_⟩
    rw [String.append_empty, String.append_assoc]
  unfold Fault.message
  cases fault with
  | conflictingDeclaration name why =>
    refine ⟨"conflicting declaration of '" ++ Utf8.lossy name ++ "'" ++ " at ", ": " ++ why.message, fun loc => ?_⟩
    dsimp only
    rw [← String.append_assoc, ← String.append_assoc]
  | _ =>
    dsimp only
    exact ending _

namespace CompileError

theorem message_moveTo (e : CompileError) (unit : String) : ∃ before after, ∀ loc,
    (e.moveTo loc).message unit = before ++ (e.moveTo loc).place ++ after := by
  have split : ∀ before place mark after : String, unit ++ ": " ++ (before ++ place ++ mark ++ after) =
      unit ++ ": " ++ before ++ place ++ (mark ++ after) := by
    intro before place mark after
    simp only [String.append_assoc]
  cases e with
  | lex e =>
    refine ⟨unit ++ ": " ++ "lexical error at ", ": " ++ e.fault.message, fun loc => ?_⟩
    exact split "lexical error at " loc.describe ": " e.fault.message
  | form fault loc =>
    refine ⟨unit ++ ": " ++ "syntax error at ", ": " ++ fault.message, fun loc => ?_⟩
    exact split "syntax error at " loc.describe ": " fault.message
  | lower fault loc =>
    obtain ⟨before, after, same⟩ := fault.message_around
    refine ⟨unit ++ ": " ++ before, after, fun loc => ?_⟩
    show unit ++ ": " ++ fault.message loc = unit ++ ": " ++ before ++ loc.describe ++ after
    rw [same, ← String.append_assoc, ← String.append_assoc]
  | write e =>
    refine ⟨unit ++ ": " ++ e.message, "", fun loc => ?_⟩
    show unit ++ ": " ++ e.message = unit ++ ": " ++ e.message ++ "" ++ ""
    rw [String.append_empty, String.append_empty]

theorem moveTo_self (e : CompileError) : e.moveTo (e.loc?.getD .start) = e := by
  cases e <;> rfl

theorem message_around {e e' : CompileError} (same : ∀ loc, e.moveTo loc = e'.moveTo loc) (unit : String) :
    ∃ before after, e.message unit = before ++ e.place ++ after ∧ e'.message unit = before ++ e'.place ++ after := by
  obtain ⟨before, after, around⟩ := e.message_moveTo unit
  refine ⟨before, after, ?_, ?_⟩
  · have here := around (e.loc?.getD .start)
    rwa [moveTo_self] at here
  · have there := around (e'.loc?.getD .start)
    rwa [same, moveTo_self] at there

theorem moveTo_ofParse (f : Location → Location) (e : ParseError) (loc : Location) :
    (ofParse (e.move f)).moveTo loc = (ofParse e).moveTo loc := by
  cases e <;> rfl

end CompileError

/-! ## Tokens in one place -/

def oneplace (_ : Location) : Location := .start

variable {ts us : List Token} {a b : Bytes} {p q : Program}

theorem move_oneplace (kinds : ts.map (·.kind) = us.map (·.kind)) (loc loc' : Location) :
    (Tokens.mk ts (.eof loc)).move oneplace = (Tokens.mk us (.eof loc')).move oneplace := by
  -- Without position and spelling, a token is its kind.
  have bare : ∀ ts : List Token, ts.map (·.move oneplace) =
      (ts.map (·.kind)).map fun kind => ⟨kind, .start, []⟩ := fun ts => by
    rw [List.map_map]
    rfl
  show Tokens.mk (ts.map (·.move oneplace)) _ = Tokens.mk (us.map (·.move oneplace)) _
  rw [bare, bare, kinds]
  rfl

def moveParse (f : Location → Location) : Except ParseError Program → Except ParseError Program
  | .ok p => .ok (p.relabel (.moving f))
  | .error e => .error (e.move f)

theorem Tokens.program_move (f : Location → Location) (ts : Tokens) :
    (ts.move f).program = moveParse f ts.program := by
  -- The bound on the reader counts tokens, so it is the same for moved ones.
  have length : (ts.move f).ahead.length = ts.ahead.length := List.length_map _
  have moved : Grammar.topLevels (Grammar.enough ts.ahead.length) [] (ts.move f) = _ :=
    (Grammar.makes_program _).moves trivial
  rcases ts.program_cases with ⟨e, rfl, failed⟩ | ⟨guarded, made⟩
  · rfl
  · have guarded' : (ts.move f).Guarded := fun e stop none => by
      have empty : ts.ahead = [] := List.map_eq_nil_iff.1 none
      cases stopped : ts.stop with
      | eof loc => simp [Tokens.move, stopped, Stop.move] at stop
      | error e => exact guarded e stopped empty
    rcases (ts.move f).program_cases with ⟨e, same, _⟩ | ⟨_, made'⟩
    · rw [same] at guarded'
      exact absurd rfl (guarded' e rfl)
    · rw [made', made, length, moved]
      cases Grammar.topLevels (Grammar.enough ts.ahead.length) [] ts <;> rfl

theorem moveParse_oneplace (first : tokenize a = .ok ts)
    (second : tokenize b = .ok us) (kinds : ts.map (·.kind) = us.map (·.kind)) :
    moveParse oneplace (Program.parse a) = moveParse oneplace (Program.parse b) := by
  obtain ⟨tokens, loc, read, rfl⟩ := tokenize_eq_ok first
  obtain ⟨tokens', loc', read', rfl⟩ := tokenize_eq_ok second
  have kinds : tokens.map (·.kind) = tokens'.map (·.kind) := by
    rw [List.map_append, List.map_append] at kinds
    exact List.append_cancel_right kinds
  rw [Program.parse_eq, Program.parse_eq, ← Tokens.program_move, ← Tokens.program_move, read, read',
    move_oneplace kinds loc loc']

/-! ## Lowering in one place -/

theorem keepsItem_moving (f : Location → Location) (t : TopLevel) : (Relabeling.moving f).KeepsItem t := by
  have keeps : ∀ d, (Relabeling.moving f).Keeps d := fun d => by
    cases d with
    | proto f => exact rfl
    | var v => exact fun _ => rfl
  cases t with
  | declare d => exact rfl
  | define d body =>
    refine ⟨rfl, fun p _ => ⟨?_, fun _ => rfl⟩, fun d _ => keeps d⟩
    rw [Param.relabel_moving]
    rfl

theorem Lowering.Fault.relabel_moving (f : Location → Location) (fault : Fault) :
    fault.relabel (.moving f) = fault := by
  cases fault with
  | unsupported what => cases what <;> rfl
  | _ => rfl

theorem CompileError.moveTo_ofLower (f : Location → Location) (e : LowerError) (loc : Location) :
    (ofLower (e.relabel (.moving f))).moveTo loc = (ofLower e).moveTo loc := by
  cases e with
  | write cause => rfl
  | fault cause _ =>
    show CompileError.lower (cause.relabel (.moving f)) loc = .lower cause loc
    rw [Fault.relabel_moving]

theorem program_moving {f g : Location → Location} (same : p.relabel (.moving f) = q.relabel (.moving g)) :
    relabelResult (.moving f) (program p {}) = relabelResult (.moving g) (program q {}) := by
  rw [← program_relabel fun t _ => keepsItem_moving f t, ← program_relabel fun t _ => keepsItem_moving g t, same]

theorem entryPoint_oneplace
    (same : p.relabel (.moving oneplace) = q.relabel (.moving oneplace)) : p.entryPoint = q.entryPoint := by
  rw [← Program.entryPoint_relabel fun t _ => keepsItem_moving oneplace t, same,
    Program.entryPoint_relabel fun t _ => keepsItem_moving oneplace t]

/-! ## Compiling -/

def Alike (x y : Except CompileError Bytes) : Prop :=
  (∃ bytes, x = .ok bytes ∧ y = .ok bytes) ∨ ∃ e e', x = .error e ∧ y = .error e' ∧ ∀ loc, e.moveTo loc = e'.moveTo loc

theorem alike_unread {e e' : ParseError} (same : e.move oneplace = e'.move oneplace) :
    Alike (.error (.ofParse e)) (.error (.ofParse e')) := by
  refine .inr ⟨_, _, rfl, rfl, fun loc => ?_⟩
  rw [← CompileError.moveTo_ofParse oneplace e, same, CompileError.moveTo_ofParse]

theorem module_oneplace {s s' : State} (same : s.relabel (.moving oneplace) = s'.relabel (.moving oneplace))
    (entryPoint : UInt32) : s.module entryPoint = s'.module entryPoint := by
  have unmoved : ∀ t : State, t.module entryPoint = (t.relabel (.moving oneplace)).module entryPoint := fun _ => rfl
  rw [unmoved s, unmoved s', same]

theorem alike_lowered (same : p.relabel (.moving oneplace) = q.relabel (.moving oneplace)) :
    Alike
      (match program p {} with
        | .error e _ => .error (.ofLower e)
        | .ok _ s => (s.module p.entryPoint).mapError .write)
      (match program q {} with
        | .error e _ => .error (.ofLower e)
        | .ok _ s => (s.module q.entryPoint).mapError .write) := by
  -- Results and errors are kept apart, so one program fails exactly if the other does.
  have lowered := program_moving same
  rw [entryPoint_oneplace same]
  cases runP : program p {} with
  | error e s =>
    cases runQ : program q {} with
    | ok _ s' => simp [runP, runQ, relabelResult] at lowered
    | error e' s' =>
      rw [runP, runQ] at lowered
      have errors : e.relabel (.moving oneplace) = e'.relabel (.moving oneplace) := (EStateM.Result.error.inj lowered).1
      refine .inr ⟨_, _, rfl, rfl, fun loc => ?_⟩
      rw [← CompileError.moveTo_ofLower oneplace e, errors, CompileError.moveTo_ofLower]
  | ok _ s =>
    cases runQ : program q {} with
    | error e' s' => simp [runP, runQ, relabelResult] at lowered
    | ok _ s' =>
      rw [runP, runQ] at lowered
      have states : s.relabel (.moving oneplace) = s'.relabel (.moving oneplace) := (EStateM.Result.ok.inj lowered).2
      simp only [module_oneplace states]
      cases s'.module q.entryPoint with
      | ok bytes => exact .inl ⟨bytes, rfl, rfl⟩
      | error e => exact .inr ⟨_, _, rfl, rfl, fun _ => rfl⟩

theorem compile_alike (first : tokenize a = .ok ts)
    (second : tokenize b = .ok us) (kinds : ts.map (·.kind) = us.map (·.kind)) : Alike (compile a) (compile b) := by
  have parsed := moveParse_oneplace first second kinds
  unfold compile
  cases readA : Program.parse a with
  | error e =>
    cases readB : Program.parse b with
    | ok q => simp [readA, readB, moveParse] at parsed
    | error e' =>
      rw [readA, readB] at parsed
      exact alike_unread (Except.error.inj parsed)
  | ok p =>
    cases readB : Program.parse b with
    | error e' => simp [readA, readB, moveParse] at parsed
    | ok q =>
      rw [readA, readB] at parsed
      exact alike_lowered (Except.ok.inj parsed)

/-- Sources with the same tokens compile to the same module, or have the same error, with the same message
but for the line and the column. -/
theorem compile_layout {a b : Bytes} {ts us : List Token} (first : tokenize a = .ok ts)
    (second : tokenize b = .ok us) (kinds : ts.map (·.kind) = us.map (·.kind)) :
    (∃ bytes, compile a = .ok bytes ∧ compile b = .ok bytes) ∨
    ∃ e e', compile a = .error e ∧ compile b = .error e' ∧ (∀ loc, e.moveTo loc = e'.moveTo loc) ∧
      ∀ unit, ∃ before after, e.message unit = before ++ e.place ++ after ∧
        e'.message unit = before ++ e'.place ++ after := by
  rcases compile_alike first second kinds with compiled | ⟨e, e', failed, failed', same⟩
  · exact .inl compiled
  · exact .inr ⟨e, e', failed, failed', same, CompileError.message_around same⟩

/-- A comment, a line end and another spelling of a literal make no difference, neither to a module nor,
but for its position, to an error. -/
theorem compile_layout_comment :
    (∃ bytes, compile (ascii "int x=8;") = .ok bytes ∧ compile (ascii "int/**/x\n=010;") = .ok bytes) ∧
    ∃ e e', compile (ascii "int x") = .error e ∧ compile (ascii "int\nx") = .error e' ∧
      e.loc? = some ⟨1, 6⟩ ∧ e'.loc? = some ⟨2, 2⟩ ∧ e.moveTo .start = e'.moveTo .start := by
  constructor
  · have computed : (tokenize (ascii "int x=8;")).toOption.any (fun ts =>
        (tokenize (ascii "int/**/x\n=010;")).toOption.any fun us =>
          decide (ts.map (·.kind) = us.map (·.kind)) && (compile (ascii "int x=8;")).toOption.isSome) = true := by
      decide +kernel
    obtain ⟨ts, first, holds⟩ := ok_of_any computed
    obtain ⟨us, second, holds⟩ := ok_of_any holds
    rw [Bool.and_eq_true, decide_eq_true_eq] at holds
    rcases compile_layout first second holds.1 with same | ⟨e, e', failed, _⟩
    · exact same
    · simp [failed, Except.toOption] at holds
  · have computed : (tokenize (ascii "int x")).toOption.any (fun ts =>
        (tokenize (ascii "int\nx")).toOption.any fun us =>
          decide (ts.map (·.kind) = us.map (·.kind)) &&
            (match compile (ascii "int x"), compile (ascii "int\nx") with
              | .error e, .error e' => decide (e.loc? = some ⟨1, 6⟩ ∧ e'.loc? = some ⟨2, 2⟩)
              | _, _ => false)) = true := by
      decide +kernel
    obtain ⟨ts, first, holds⟩ := ok_of_any computed
    obtain ⟨us, second, holds⟩ := ok_of_any holds
    rw [Bool.and_eq_true, decide_eq_true_eq] at holds
    obtain ⟨kinds, holds⟩ := holds
    rcases compile_layout first second kinds with ⟨bytes, compiled, _⟩ | ⟨e, e', failed, failed', same, _⟩
    · simp [compiled] at holds
    · simp only [failed, failed', decide_eq_true_eq] at holds
      exact ⟨e, e', failed, failed', holds.1, holds.2, same .start⟩

end Cof
