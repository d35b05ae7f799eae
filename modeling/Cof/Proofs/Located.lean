/-
  Errors lie in the source.

  Positions are made by the lexer only.  Everything after it copies them: readers from tokens into programs
  and errors, lowering from programs into errors.  There is no need to follow them on their way.  Reading
  and lowering commute with moving positions, so let one movement leave the positions of tokens where they
  are and take all others away: the tokens stay the same, hence so does the error, hence its position was
  that of a token (`compile_places`).
-/
import Cof.Diagnostic
import Cof.Proofs.Positions
import Cof.Proofs.Text

namespace Cof

open List

/-! ## Where positions come from -/

def Stop.loc : Stop → Location
  | .eof loc => loc
  | .error e => e.loc

def Tokens.places (ts : Tokens) : List Location := ts.ahead.map (·.loc) ++ [ts.stop.loc]

theorem Tokens.stop_mem_places (ts : Tokens) : ts.stop.loc ∈ ts.places :=
  mem_append_right _ (mem_singleton.2 rfl)

variable {f g : Location → Location} {source : Bytes} {e : CompileError}

theorem Tokens.move_congr {ts : Tokens} (same : ∀ loc ∈ ts.places, f loc = g loc) : ts.move f = ts.move g := by
  have ahead : ts.ahead.map (·.move f) = ts.ahead.map (·.move g) := by
    refine map_congr_left fun t mem => ?_
    have moved := same t.loc (mem_append_left _ (mem_map_of_mem mem))
    rw [Token.move, Token.move, moved]
  have stop : ts.stop.move f = ts.stop.move g := by
    have moved := same _ ts.stop_mem_places
    cases stopped : ts.stop with
    | eof loc =>
      rw [stopped] at moved
      exact congrArg Stop.eof moved
    | error e =>
      rw [stopped] at moved
      exact congrArg (fun loc => Stop.error ⟨e.fault, loc⟩) moved
  rw [Tokens.move, Tokens.move, ahead, stop]

/-- Leave the positions of tokens where they are, and take all others to one of them. -/
def Tokens.attract (ts : Tokens) (loc : Location) : Location := if loc ∈ ts.places then loc else ts.stop.loc

theorem Tokens.attract_mem (ts : Tokens) (loc : Location) : ts.attract loc ∈ ts.places := by
  unfold attract
  split
  · assumption
  · exact ts.stop_mem_places

theorem Tokens.attract_of_mem (ts : Tokens) {loc : Location} (mem : loc ∈ ts.places) : ts.attract loc = id loc :=
  if_pos mem

def CompileError.move (f : Location → Location) : CompileError → CompileError
  | lex e => lex (e.move f)
  | form fault loc => form fault (f loc)
  | lower fault loc => lower fault (f loc)
  | write e => write e

theorem CompileError.loc?_move (f : Location → Location) (e : CompileError) : (e.move f).loc? = e.loc?.map f := by
  cases e <;> rfl

theorem moveParse_congr (same : ∀ loc ∈ (Tokens.ofSource source).places, f loc = g loc) :
    moveParse f (Program.parse source) = moveParse g (Program.parse source) := by
  rw [Program.parse_eq, ← Tokens.program_move, ← Tokens.program_move, Tokens.move_congr same]

theorem CompileError.move_ofParse (f : Location → Location) (e : ParseError) :
    (ofParse e).move f = ofParse (e.move f) := by
  cases e <;> rfl

theorem CompileError.move_ofLower (f : Location → Location) (e : LowerError) :
    (ofLower e).move f = ofLower (e.relabel (.moving f)) := by
  cases e with
  | write cause => rfl
  | fault cause loc =>
    show CompileError.lower cause (f loc) = .lower (cause.relabel (.moving f)) (f loc)
    rw [Lowering.Fault.relabel_moving]

theorem CompileError.move_congr
    (failed : compile source = .error e) (same : ∀ loc ∈ (Tokens.ofSource source).places, f loc = g loc) :
    e.move f = e.move g := by
  have parsed := moveParse_congr same
  unfold compile at failed
  cases read : Program.parse source with
  | error cause =>
    rw [read] at failed parsed
    rw [← Except.error.inj failed, move_ofParse, move_ofParse]
    exact congrArg ofParse (Except.error.inj parsed)
  | ok p =>
    rw [read] at failed parsed
    have lowered := program_moving (Except.ok.inj parsed)
    cases run : Lowering.program p {} with
    | error cause s =>
      rw [run] at lowered
      simp only [run] at failed
      rw [← Except.error.inj failed, move_ofLower, move_ofLower]
      exact congrArg ofLower (EStateM.Result.error.inj lowered).1
    | ok _ s =>
      -- An error of writing is nowhere.
      simp only [run] at failed
      cases written : s.module p.entryPoint with
      | ok bytes =>
        rw [written] at failed
        cases failed
      | error cause =>
        rw [written] at failed
        rw [← Except.error.inj failed]
        rfl

theorem compile_places {loc : Location} (failed : compile source = .error e) (place : e.loc? = some loc) :
    loc ∈ (Tokens.ofSource source).places := by
  have moved := CompileError.move_congr failed fun loc mem => (Tokens.ofSource source).attract_of_mem mem
  have same := congrArg CompileError.loc? moved
  rw [CompileError.loc?_move, CompileError.loc?_move, place] at same
  rw [← show _ = loc from Option.some.inj same]
  exact Tokens.attract_mem _ loc

/-! ## Positions in a source -/

/-- The position of a byte of a source, or of its end. -/
def Location.In (source : Bytes) (loc : Location) : Prop :=
  ∃ before behind, source = before ++ behind ∧ loc = .after .start before

theorem Lexes.in_source {before : Bytes} {ts : List Token} {stop : Stop} (h : Lexes source before ts stop) :
    ∀ loc ∈ (Tokens.mk ts stop).places, loc.In source := by
  induction h with
  | eof => exact forall_mem_singleton.2 ⟨source, [], (append_nil _).symm, rfl⟩
  | error whole => exact forall_mem_singleton.2 ⟨_, _, whole, rfl⟩
  | token whole _ _ _ ih =>
    rw [append_assoc] at whole
    exact forall_mem_cons.2 ⟨⟨_, _, whole, rfl⟩, ih⟩

theorem compile_in_source {loc : Location}
    (failed : compile source = .error e) (place : e.loc? = some loc) : loc.In source :=
  (Tokens.lexes source).in_source loc (compile_places failed place)

namespace Diagnostic

theorem getElem?_lines_zero (source : Bytes) : (lines source)[0]? = some (source.takeWhile (· != '\n'.toUInt8)) := by
  unfold lines
  induction source with
  | nil => rfl
  | cons b source ih =>
    rw [splitOn_cons_eq_if_modifyHead, takeWhile_cons, bne]
    cases b == '\n'.toUInt8 with
    | true => rfl
    | false =>
      rw [if_neg Bool.false_ne_true, List.getElem?_modifyHead_zero, ih]
      rfl

theorem length_lines (source : Bytes) : (lines source).length = source.count '\n'.toUInt8 + 1 := by
  unfold lines
  induction source with
  | nil => rfl
  | cons b source ih =>
    rw [splitOn_cons_eq_if_modifyHead, count_cons]
    split
    · rw [length_cons, ih]
    · rw [length_modifyHead, ih]

/-- The line that the end of a front of the source is on.  By induction on the front from its end, since
that is where its last line changes. -/
theorem getElem?_lines (before behind : Bytes) :
    (lines (before ++ behind))[before.count '\n'.toUInt8]? =
      some (lastLine before ++ behind.takeWhile (· != '\n'.toUInt8)) := by
  induction before using List.reverseRecOn generalizing behind with
  | nil => exact getElem?_lines_zero behind
  | append_singleton text b ih =>
    rw [lastLine_concat, append_assoc, singleton_append, count_append]
    by_cases newline : b = '\n'.toUInt8
    · subst newline
      have count : text.count '\n'.toUInt8 + [('\n'.toUInt8 : UInt8)].count '\n'.toUInt8 = (lines text).length := by
        rw [length_lines, count_singleton_self]
      have split : lines (text ++ '\n'.toUInt8 :: behind) = lines text ++ lines behind :=
        splitOn_append_cons_self text behind
      rw [if_pos rfl, count, split, List.getElem?_append_right (Nat.le_refl _), Nat.sub_self, getElem?_lines_zero]
      rfl
    · have none : [b].count '\n'.toUInt8 = 0 := by
        rw [count_eq_zero, mem_singleton]
        exact fun same => newline same.symm
      have inside : (b != '\n'.toUInt8) = true := bne_iff_ne.2 newline
      rw [if_neg newline, none, Nat.add_zero, ih, takeWhile_cons, if_pos inside, append_assoc]
      rfl

theorem line_of_in {source : Bytes} {loc : Location} (h : loc.In source) :
    1 ≤ loc.line ∧ 1 ≤ loc.column ∧
      ∃ piece, (lines source)[loc.line - 1]? = some piece ∧ loc.column ≤ piece.length + 1 := by
  obtain ⟨before, behind, rfl, rfl⟩ := h
  rw [Location.line_after_start, Location.column_after_start, Nat.add_sub_cancel_left]
  refine ⟨Nat.le_add_right _ _, Nat.le_add_right _ _, _, getElem?_lines before behind, ?_⟩
  rw [length_append]
  omega

end Diagnostic

/-! ## What is shown of a line

  Carriage returns at the end of a line are dropped before it is decoded.  They could as well be dropped
  after: a carriage return is never part of a longer character, and no longer character is one. -/

namespace Utf8

/-- What is known of a character that is still owed bytes: none of them is below 0x80, and it comes to at
least 0x80. -/
structure Pending.Sound (p : Pending) : Prop where
  lo : 0x80 ≤ p.lo.toNat
  value : 2 ≤ p.value ∨ 1 < p.owed ∧ 2 ≤ p.value * 64 + (p.lo.toNat - 0x80)

theorem ofNat_eq_return {n : Nat} (h : Char.ofNat n = '\r') : n = 13 := by
  by_cases valid : n.isValidChar
  · rw [Char.ofNat, dif_pos valid] at h
    exact congrArg Char.toNat h
  · rw [Char.ofNat, dif_neg valid] at h
    cases congrArg Char.toNat h

def Lead.Sound (b : UInt8) : Lead → Prop
  | .whole c => c = '\r' → b = '\r'.toUInt8
  | .opens p => p.Sound
  | .bad => True

variable {b : UInt8} {p : Pending} {pending : Option Pending} {bs : Bytes}

theorem Lead.sound_ite {c : Prop} [Decidable c] {x y : Lead} (hx : c → x.Sound b) (hy : ¬ c → y.Sound b) :
    Lead.Sound b (if c then x else y) := by
  split
  · exact hx ‹_›
  · exact hy ‹_›

/-- The first byte of a longer character holds enough of its bits, or the range of the second byte does. -/
theorem lead_sound (b : UInt8) : (lead b).Sound b := by
  unfold lead
  refine Lead.sound_ite (fun _ same => UInt8.toNat_inj.1 (ofNat_eq_return same)) fun _ => ?_
  refine Lead.sound_ite (fun _ => trivial) fun _ => ?_
  refine Lead.sound_ite (fun _ => ⟨Nat.le_refl 0x80, .inl (by dsimp only; omega)⟩) fun _ => ?_
  refine Lead.sound_ite (fun _ => ⟨by decide, .inr (by decide)⟩) fun _ => ?_
  refine Lead.sound_ite (fun _ => ⟨by decide, .inr (by decide)⟩) fun _ => ?_
  refine Lead.sound_ite (fun _ => ⟨Nat.le_refl 0x80, .inr (by dsimp only; omega)⟩) fun _ => ?_
  refine Lead.sound_ite (fun _ => ⟨by decide, .inr (by decide)⟩) fun _ => ?_
  refine Lead.sound_ite (fun _ => ⟨Nat.le_refl 0x80, .inr (by dsimp only; omega)⟩) fun _ => ?_
  exact Lead.sound_ite (fun _ => ⟨by decide, .inr (by decide)⟩) fun _ => trivial

/-- What reading one byte comes to: some pieces (newest first) and perhaps a character begun. -/
structure Takes (pending : Option Pending) (b : UInt8) (new : List (Option Char)) (pending' : Option Pending) :
    Prop where
  next : ∀ read bs, piecesFrom read pending (b :: bs) = piecesFrom (new ++ read) pending' bs
  sound : ∀ p, pending' = some p → p.Sound
  /-- A carriage return is read from its own byte only. -/
  last : pending' = none → ∃ piece more, new = piece :: more ∧ (piece = some '\r' → b = '\r'.toUInt8)

theorem sound_none : ∀ p, (none : Option Pending) = some p → p.Sound := nofun

theorem takes_between (b : UInt8) : ∃ new pending', Takes none b new pending' := by
  have sound := lead_sound b
  cases first : lead b with
  | whole c =>
    rw [first] at sound
    refine ⟨[some c], none, fun read bs => ?_, sound_none, fun _ => ⟨_, _, rfl, fun same => ?_⟩⟩
    · rw [piecesFrom, first]
      rfl
    · exact sound (Option.some.inj same)
  | opens p =>
    rw [first] at sound
    refine ⟨[], some p, fun read bs => piecesFrom_opens first read bs, fun q same => ?_, fun none => by cases none⟩
    rw [← Option.some.inj same]
    exact sound
  | bad =>
    refine ⟨[none], none, fun read bs => ?_, sound_none, fun _ => ⟨_, _, rfl, fun same => by cases same⟩⟩
    rw [piecesFrom, first]
    rfl

/-- A byte that a character can not take is read as if nothing had been begun, behind an ill-formed part. -/
theorem piecesFrom_refused (refused : ¬ (p.lo ≤ b ∧ b ≤ p.hi)) (read : List (Option Char)) (bs : Bytes) :
    piecesFrom read (some p) (b :: bs) = piecesFrom (none :: read) none (b :: bs) := by
  simp only [piecesFrom, if_neg refused]

theorem takes_inside (sound : p.Sound) (b : UInt8) : ∃ new pending', Takes (some p) b new pending' := by
  by_cases range : p.lo ≤ b ∧ b ≤ p.hi
  · have above : p.lo.toNat ≤ b.toNat := UInt8.le_iff_toNat_le.1 range.1
    have value := sound.value
    by_cases last : p.owed ≤ 1
    · refine ⟨[some (.ofNat (p.value * 64 + (b.toNat - 0x80)))], none, fun read bs => ?_, sound_none,
        fun _ => ⟨_, _, rfl, fun same => ?_⟩⟩
      · rw [piecesFrom, if_pos range, if_pos last]
        rfl
      · have := ofNat_eq_return (Option.some.inj same)
        omega
    · refine ⟨[], some ⟨p.owed - 1, 0x80, 0xBF, p.value * 64 + (b.toNat - 0x80)⟩, fun read bs => ?_,
        fun q same => ?_, fun none => by cases none⟩
      · rw [piecesFrom, if_pos range, if_neg last]
        rfl
      · rw [← Option.some.inj same]
        refine ⟨Nat.le_refl 0x80, .inl ?_⟩
        dsimp only
        omega
  · obtain ⟨new, pending', next, sound', ends⟩ := takes_between b
    refine ⟨new ++ [none], pending', fun read bs => ?_, sound', fun none => ?_⟩
    · rw [piecesFrom_refused range, next, append_assoc]
      rfl
    · obtain ⟨piece, more, rfl, own⟩ := ends none
      exact ⟨piece, more ++ [_], rfl, own⟩

theorem takes (sound : ∀ p, pending = some p → p.Sound) (b : UInt8) : ∃ new pending', Takes pending b new pending' := by
  cases pending with
  | none => exact takes_between b
  | some p => exact takes_inside (sound p rfl) b

theorem piecesFrom_return (sound : ∀ p, pending = some p → p.Sound) (read : List (Option Char)) (bs : Bytes) :
    piecesFrom read pending (bs ++ ['\r'.toUInt8]) = piecesFrom read pending bs ++ [some '\r'] := by
  induction bs generalizing read pending with
  | nil =>
    have alone : ∀ read, piecesFrom read none ['\r'.toUInt8] = read.reverse ++ [some '\r'] := fun read => by
      rw [← reverse_cons]
      rfl
    cases pending with
    | none => exact alone read
    | some p =>
      have refused : ¬ (p.lo ≤ '\r'.toUInt8 ∧ '\r'.toUInt8 ≤ p.hi) := fun range => by
        have above : p.lo.toNat ≤ 13 := UInt8.le_iff_toNat_le.1 range.1
        have low := (sound p rfl).lo
        omega
      exact (piecesFrom_refused refused read []).trans (alone _)
  | cons b bs ih =>
    obtain ⟨new, pending', step⟩ := takes sound b
    rw [cons_append, step.next, step.next, ih step.sound]

theorem getLast?_piecesFrom (sound : ∀ p, pending = some p → p.Sound)
    {read : List (Option Char)} (ends : bs.getLast? ≠ some '\r'.toUInt8)
    (before : bs = [] → pending = none → read.head? ≠ some (some '\r')) :
    (piecesFrom read pending bs).getLast? ≠ some (some '\r') := by
  induction bs generalizing read pending with
  | nil =>
    cases pending with
    | none =>
      rw [piecesFrom, getLast?_reverse]
      exact before rfl rfl
    | some p =>
      rw [piecesFrom, getLast?_reverse]
      intro last
      cases last
  | cons b bs ih =>
    obtain ⟨new, pending', step⟩ := takes sound b
    rw [step.next]
    refine ih step.sound ?_ fun none done same => ?_
    · intro last
      cases bs with
      | nil => cases last
      | cons c bs => exact ends (by rw [getLast?_cons_cons, last])
    · obtain ⟨piece, more, rfl, own⟩ := step.last done
      rw [none] at ends
      exact ends (congrArg some (own (Option.some.inj same)))

theorem lossy_returns (bs : Bytes) (n : Nat) :
    lossy (bs ++ List.replicate n '\r'.toUInt8) = lossy bs ++ repeated '\r' n := by
  have pieces_returns : pieces (bs ++ List.replicate n '\r'.toUInt8) = pieces bs ++ List.replicate n (some '\r') := by
    induction n with
    | zero => rw [replicate_zero, replicate_zero, append_nil, append_nil]
    | succ n ih =>
      rw [replicate_succ', replicate_succ', ← append_assoc, ← append_assoc, ← ih]
      exact piecesFrom_return sound_none [] _
  rw [lossy, lossy, pieces_returns, map_append, map_replicate, String.ofList_append]
  rfl

theorem getLast?_lossy (h : bs.getLast? ≠ some '\r'.toUInt8) : (lossy bs).toList.getLast? ≠ some '\r' := by
  intro last
  rw [lossy, String.toList_ofList, getLast?_map, Option.map_eq_some_iff] at last
  obtain ⟨piece, last, shown⟩ := last
  cases piece with
  | none => cases shown
  | some c =>
    have c_eq : c = '\r' := shown
    rw [c_eq] at last
    have start : ([] : List (Option Char)).head? ≠ some (some '\r') := fun same => by cases same
    exact getLast?_piecesFrom sound_none h (fun _ _ => start) last

end Utf8

namespace Diagnostic

/-- A text without the carriage returns at its end. -/
structure Trimmed (text shown : String) : Prop where
  returns : ∃ n, text = shown ++ repeated '\r' n
  ends : shown.toList.getLast? ≠ some '\r'

theorem trimmed_trimEnd (line : Bytes) : Trimmed (Utf8.lossy line) (Utf8.lossy (trimEnd line)) := by
  have returns : (line.reverse.takeWhile (· == '\r'.toUInt8)).reverse =
      List.replicate (line.reverse.takeWhile (· == '\r'.toUInt8)).length '\r'.toUInt8 := by
    rw [← reverse_replicate]
    refine congrArg List.reverse (eq_replicate_of_mem fun b mem => ?_)
    exact beq_iff_eq.1 (of_mem_takeWhile (p := (· == '\r'.toUInt8)) mem)
  have whole : line = trimEnd line ++ (line.reverse.takeWhile (· == '\r'.toUInt8)).reverse := by
    rw [trimEnd, ← reverse_append, takeWhile_append_dropWhile, reverse_reverse]
  refine ⟨⟨(line.reverse.takeWhile (· == '\r'.toUInt8)).length, ?_⟩, Utf8.getLast?_lossy fun last => ?_⟩
  · rw [← Utf8.lossy_returns, ← returns, ← whole]
  · rw [trimEnd, getLast?_reverse] at last
    have stops := head?_dropWhile_not (· == '\r'.toUInt8) line.reverse
    rw [last] at stops
    cases stops

def margin (loc : Location) : String := repeated ' ' (toString loc.line).length

def heading (e : CompileError) (unit : String) (loc : Location) : String :=
  s!"error[{kind e}]: {headline e}\n" ++ margin loc ++ s!" --> {unit}:{loc.line}:{loc.column}\n"
    ++ margin loc ++ "  |\n"

theorem render_eq {e : CompileError} {loc : Location} (place : e.loc? = some loc) (unit : String) (source : Bytes) :
    e.render unit source = heading e unit loc ++ (toString loc.line ++ " | " ++ lineText source loc.line ++ "\n")
      ++ (margin loc ++ "  | " ++ repeated ' ' (loc.column - 1) ++ "^\n") := by
  unfold CompileError.render
  rw [place]
  dsimp only [context, heading, margin]
  simp only [String.append_assoc]

end Diagnostic

/-- An error that has a position has it in the source: on one of its lines, at a byte of it or behind the
last.  It is shown under that line, with the caret under that column. -/
theorem compile_error_located {source : Bytes} {e : CompileError} {loc : Location}
    (failed : compile source = .error e) (place : e.loc? = some loc) (unit : String) :
    1 ≤ loc.line ∧ loc.line ≤ (Diagnostic.lines source).length ∧ 1 ≤ loc.column ∧
    ∃ piece shown, (Diagnostic.lines source)[loc.line - 1]? = some piece ∧ loc.column ≤ 1 + piece.length ∧
      Diagnostic.Trimmed (Utf8.lossy piece) shown ∧
      e.render unit source =
        Diagnostic.heading e unit loc ++ (toString loc.line ++ " | " ++ shown ++ "\n")
          ++ (Diagnostic.margin loc ++ "  | " ++ repeated ' ' (loc.column - 1) ++ "^\n") := by
  obtain ⟨line, column, piece, found, inside⟩ := Diagnostic.line_of_in (compile_in_source failed place)
  obtain ⟨bound, _⟩ := List.getElem?_eq_some_iff.1 found
  have shown : Diagnostic.lineText source loc.line = Utf8.lossy (Diagnostic.trimEnd piece) := by
    rw [Diagnostic.lineText, found, Option.getD_some]
  refine ⟨line, by omega, column, piece, Utf8.lossy (Diagnostic.trimEnd piece), found, by omega,
    Diagnostic.trimmed_trimEnd piece, ?_⟩
  rw [Diagnostic.render_eq place, shown]

/-- A name that is not declared, on a line that ends with a carriage return. -/
theorem compile_error_located_return :
    compile (ascii "int f() \x7b\r\n  return x;\r\n\x7d") = .error (.lower (.undefinedVariable (ascii "x")) ⟨2, 10⟩) ∧
      2 ≤ (Diagnostic.lines (ascii "int f() \x7b\r\n  return x;\r\n\x7d")).length ∧
      ∃ shown, Diagnostic.Trimmed (Utf8.lossy (ascii "  return x;\r")) shown ∧
        (CompileError.lower (.undefinedVariable (ascii "x")) ⟨2, 10⟩).render "a.c"
            (ascii "int f() \x7b\r\n  return x;\r\n\x7d") =
          Diagnostic.heading (.lower (.undefinedVariable (ascii "x")) ⟨2, 10⟩) "a.c" ⟨2, 10⟩
            ++ ("2 | " ++ shown ++ "\n") ++ ("   | " ++ repeated ' ' 9 ++ "^\n") := by
  have failed : compile (ascii "int f() \x7b\r\n  return x;\r\n\x7d") =
      .error (.lower (.undefinedVariable (ascii "x")) ⟨2, 10⟩) := by decide +kernel
  obtain ⟨_, inside, _, piece, shown, found, _, trimmed, rendered⟩ := compile_error_located failed rfl "a.c"
  have line : (Diagnostic.lines (ascii "int f() \x7b\r\n  return x;\r\n\x7d"))[1]? = some (ascii "  return x;\r") := by
    decide +kernel
  obtain rfl : piece = ascii "  return x;\r" := Option.some.inj (found.symm.trans line)
  exact ⟨failed, inside, shown, trimmed, rendered⟩

end Cof
