/-
  What stands between tokens.

  Between two tokens a source holds blanks, line ends, comments and preprocessor lines.  `Trivia` says what
  one such stretch is, with all that stands before it and behind it in the source: where a comment ends
  depends on what comes next, and a `#` opens a preprocessor line only behind blanks.  A `Gap` is a sequence
  of stretches.
-/
import Cof.Token.Stream
import Mathlib.Data.List.Induction

namespace Cof

open List

/-! ## Lines -/

def OneLine (text : Bytes) : Prop := ∀ b ∈ text, b ≠ '\n'.toUInt8

def EndsLine (text : Bytes) : Prop := ∀ b, text.head? = some b → b = '\n'.toUInt8

def lastLine (text : Bytes) : Bytes := (text.reverse.takeWhile (· != '\n'.toUInt8)).reverse

theorem OneLine.append {s t : Bytes} (hs : OneLine s) (ht : OneLine t) : OneLine (s ++ t) := by
  intro b mem
  rcases mem_append.1 mem with mem | mem
  · exact hs b mem
  · exact ht b mem

theorem OneLine.cons {b : UInt8} {t : Bytes} (hb : b ≠ '\n'.toUInt8) (ht : OneLine t) : OneLine (b :: t) :=
  forall_mem_cons.2 ⟨hb, ht⟩

@[simp] theorem oneLine_nil : OneLine [] := forall_mem_nil _

theorem lastLine_concat (text : Bytes) (b : UInt8) :
    lastLine (text ++ [b]) = if b = '\n'.toUInt8 then [] else lastLine text ++ [b] := by
  unfold lastLine
  rw [reverse_append, reverse_singleton, singleton_append, takeWhile_cons]
  by_cases newline : b = '\n'.toUInt8
  · simp [newline]
  · simp [newline]

namespace Location

theorem after_concat (loc : Location) (text : Bytes) (b : UInt8) :
    loc.after (text ++ [b]) = (loc.after text).step b := by
  rw [after_append]
  rfl

theorem line_after_start (text : Bytes) : (start.after text).line = 1 + text.count '\n'.toUInt8 := by
  induction text using List.reverseRecOn with
  | nil => rfl
  | append_singleton text b ih =>
    rw [after_concat, count_append, count_singleton, step]
    by_cases newline : b = '\n'.toUInt8
    · simp only [newline, if_pos, ih, beq_self_eq_true]
      omega
    · simp [newline, ih]

theorem column_after_start (text : Bytes) : (start.after text).column = 1 + (lastLine text).length := by
  induction text using List.reverseRecOn with
  | nil => rfl
  | append_singleton text b ih =>
    rw [after_concat, lastLine_concat, step]
    by_cases newline : b = '\n'.toUInt8
    · rw [if_pos newline, if_pos newline]
      rfl
    · rw [if_neg newline, if_neg newline, ih, length_append]
      rfl

end Location

/-! ## Gaps -/

/-- One thing that is skipped, behind one text and in front of another. -/
inductive Trivia (before : Bytes) : Bytes → Bytes → Prop
  | blank {b : UInt8} {behind : Bytes} (found : isBlank b = true ∨ b = '\n'.toUInt8) : Trivia before [b] behind
  | lineComment {text behind : Bytes} (oneLine : OneLine text) (ends : EndsLine behind) :
      Trivia before (ascii "//" ++ text) behind
  /-- A preprocessor line.  Only blanks stand before it on its line. -/
  | directive {text behind : Bytes} (first : ∀ b ∈ lastLine before, isBlank b = true)
      (oneLine : OneLine text) (ends : EndsLine behind) : Trivia before (ascii "#" ++ text) behind
  | blockComment {text behind : Bytes} (inner : ¬ ascii "*/" <:+: text) :
      Trivia before (ascii "/*" ++ text ++ ascii "*/") behind
  /-- A comment that is not closed, up to the end of the source. -/
  | openComment {text : Bytes} (inner : ¬ ascii "*/" <:+: text) : Trivia before (ascii "/*" ++ text) []

/-- Any number of things that are skipped, behind one text and in front of another. -/
inductive Gap : Bytes → Bytes → Bytes → Prop
  | nil (before behind : Bytes) : Gap before [] behind
  | cons {before text gap behind : Bytes} (head : Trivia before text (gap ++ behind))
      (tail : Gap (before ++ text) gap behind) : Gap before (text ++ gap) behind

/-- Two bytes do not start a gap, unless they are a `#` that opens a preprocessor line. -/
structure Solid (b : UInt8) (rest : Bytes) : Prop where
  newline : b ≠ '\n'.toUInt8
  blank : isBlank b = false
  comment : b = '/'.toUInt8 → startsWith rest '/' = false ∧ startsWith rest '*' = false

/-! ## The loops of skipping -/

theorem skip_line {line rest : Bytes} (oneLine : OneLine line) (ends : EndsLine rest) (loc : Location)
    (lineStart : Bool) : skip .line loc (line ++ rest) = skip (.blanks lineStart) (loc.after line) rest := by
  induction line generalizing loc with
  | nil =>
    cases rest with
    | nil => rfl
    | cons b rest => rw [nil_append, Location.after_nil, skip, skip, if_pos (ends b rfl), if_pos (ends b rfl)]
  | cons b line ih =>
    obtain ⟨other, oneLine⟩ := forall_mem_cons.1 oneLine
    rw [cons_append, skip, if_neg other, ih oneLine, Location.after_cons]

variable {text : Bytes}

theorem startsWith_iff {c : Char} : startsWith text c = true ↔ ∃ rest, text = c.toUInt8 :: rest := by
  unfold startsWith
  cases text with
  | nil => simp
  | cons b rest => simp

theorem skip_block {inner behind : Bytes} (unclosed : ¬ ascii "*/" <:+: inner) (other : startsWith behind '/' = false)
    (loc : Location) : skip .block loc (inner ++ behind) = skip .block (loc.after inner) behind := by
  induction inner generalizing loc with
  | nil => rfl
  | cons b inner ih =>
    have stays : ¬ (b = '*'.toUInt8 && startsWith (inner ++ behind) '/') = true := by
      rw [Bool.and_eq_true, decide_eq_true_eq]
      rintro ⟨rfl, slash⟩
      cases inner with
      | nil => rw [nil_append, other] at slash; cases slash
      | cons c inner =>
        obtain ⟨_, same⟩ := startsWith_iff.1 slash
        obtain ⟨rfl, -⟩ := List.cons.inj same
        exact unclosed ⟨[], inner, rfl⟩
    rw [cons_append, skip, if_neg stays, ih fun later => unclosed (infix_cons later)]
    rfl

/-! ## Gaps are passed -/

def BlankSoFar (before : Bytes) : Prop := ∀ b ∈ lastLine before, isBlank b = true

variable {before behind : Bytes} {lineStart : Bool}

/-- The first loop passes one stretch and is entered again behind it.  It knows that there are only blanks on
the line so far if it knew this before. -/
theorem skip_trivia (h : Trivia before text behind)
    (marked : BlankSoFar before → text.head? = some '#'.toUInt8 → lineStart = true) (loc : Location) :
    ∃ lineStart', skip (.blanks lineStart) loc (text ++ behind) = skip (.blanks lineStart') (loc.after text) behind ∧
      ((lineStart = true → BlankSoFar before) → lineStart' = true → BlankSoFar (before ++ text)) ∧
      ((BlankSoFar before → lineStart = true) → BlankSoFar (before ++ text) → lineStart' = true) := by
  obtain ⟨start, known⟩ : ∃ start : Bool, start = true ↔ BlankSoFar (before ++ text) := by
    classical exact ⟨decide _, decide_eq_true_iff⟩
  cases h with
  | @blank b _ found =>
    unfold BlankSoFar
    rw [lastLine_concat]
    by_cases newline : b = '\n'.toUInt8
    · rw [if_pos newline]
      refine ⟨true, ?_, fun _ _ => forall_mem_nil _, fun _ _ => rfl⟩
      rw [singleton_append, skip, if_pos newline]
      rfl
    · have blank := found.resolve_right newline
      rw [if_neg newline, forall_mem_append]
      refine ⟨lineStart, ?_, fun known start => ⟨known start, forall_mem_singleton.2 blank⟩,
        fun known so => known so.1⟩
      rw [singleton_append, skip, if_neg newline, if_pos blank]
      rfl
  | @lineComment line _ oneLine ends =>
    refine ⟨start, ?_, fun _ => known.1, fun _ => known.2⟩
    rw [Location.after_append, ← skip_line oneLine ends]
    rfl
  | @directive line _ first oneLine ends =>
    obtain rfl := marked first rfl
    refine ⟨start, ?_, fun _ => known.1, fun _ => known.2⟩
    rw [Location.after_append, ← skip_line oneLine ends]
    rfl
  | @openComment inner unclosed =>
    refine ⟨start, ?_, fun _ => known.1, fun _ => known.2⟩
    exact (skip_block unclosed rfl (loc.after (ascii "/*"))).trans (by rw [Location.after_append]; rfl)
  | @blockComment inner _ unclosed =>
    refine ⟨false, ?_, fun _ => nofun, fun _ so => ?_⟩
    · have entered : skip (.blanks lineStart) loc (ascii "/*" ++ inner ++ ascii "*/" ++ behind) =
          skip .block (loc.after (ascii "/*")) (inner ++ (ascii "*/" ++ behind)) := by
        rw [append_assoc, append_assoc]
        rfl
      rw [entered, skip_block unclosed rfl, Location.after_append, Location.after_append]
      rfl
    · have slash : '/'.toUInt8 ∈ lastLine (before ++ (ascii "/*" ++ inner ++ ['*'.toUInt8]) ++ ['/'.toUInt8]) := by
        rw [lastLine_concat]
        exact mem_append_right _ mem_cons_self
      have := so _ (by simpa [ascii] using slash)
      cases this

theorem skip_gap {gap : Bytes} (h : Gap before gap behind) (lineStart : Bool)
    (known : BlankSoFar before → lineStart = true) (loc : Location) : ∃ lineStart', skip (.blanks lineStart) loc (gap ++ behind) =
      skip (.blanks lineStart') (loc.after gap) behind := by
  induction h generalizing loc lineStart with
  | nil => exact ⟨lineStart, rfl⟩
  | cons head _ ih =>
    obtain ⟨_, skipped, -, known'⟩ := skip_trivia head (fun so _ => known so) loc
    obtain ⟨lineStart', rest⟩ := ih _ (known' known) _
    exact ⟨lineStart', by rw [append_assoc, skipped, rest, Location.after_append]⟩

/-! ## Gaps are found -/

theorem exists_line (text : Bytes) : ∃ line rest, text = line ++ rest ∧ OneLine line ∧ EndsLine rest := by
  induction text with
  | nil => exact ⟨[], [], rfl, oneLine_nil, nofun⟩
  | cons b text ih =>
    by_cases newline : b = '\n'.toUInt8
    · refine ⟨[], b :: text, rfl, oneLine_nil, ?_⟩
      rintro _ ⟨⟩
      exact newline
    · obtain ⟨line, rest, rfl, oneLine, ends⟩ := ih
      exact ⟨b :: line, rest, rfl, oneLine.cons newline, ends⟩

theorem exists_inner (closed : ascii "*/" <:+: text) :
    ∃ inner rest, text = inner ++ ascii "*/" ++ rest ∧ ¬ ascii "*/" <:+: inner := by
  induction text with
  | nil => exact absurd closed (by decide)
  | cons b text ih =>
    by_cases first : ascii "*/" <+: b :: text
    · obtain ⟨rest, same⟩ := first
      exact ⟨[], rest, same.symm, by decide⟩
    · obtain ⟨inner, rest, rfl, unclosed⟩ := ih ((infix_cons_iff.1 closed).resolve_left first)
      refine ⟨b :: inner, rest, rfl, fun inside => ?_⟩
      rcases infix_cons_iff.1 inside with front | later
      · refine first (front.trans ?_)
        rw [append_assoc]
        exact prefix_append (b :: inner) _
      · exact unclosed later

theorem exists_trivia (loc : Location) (text : Bytes) (first : lineStart = true → BlankSoFar before) :
    (skip (.blanks lineStart) loc text = (loc, text) ∧ ∀ b rest, text = b :: rest → Solid b rest) ∨
    ∃ stretch rest, text = stretch ++ rest ∧ stretch ≠ [] ∧ Trivia before stretch rest ∧
      (stretch.head? = some '#'.toUInt8 → lineStart = true) := by
  cases text with
  | nil => exact .inl ⟨by rw [skip], nofun⟩
  | cons b text =>
    by_cases blank : isBlank b = true ∨ b = '\n'.toUInt8
    · refine .inr ⟨[b], text, rfl, cons_ne_nil _ _, .blank blank, ?_⟩
      rintro ⟨⟩
      rcases blank with blank | newline
      · cases blank
      · cases newline
    obtain ⟨blank, newline⟩ := not_or.1 blank
    by_cases slashes : b = '/'.toUInt8 ∧ startsWith text '/' = true
    · obtain ⟨rfl, slash⟩ := slashes
      obtain ⟨rest, rfl⟩ := startsWith_iff.1 slash
      obtain ⟨line, rest, rfl, oneLine, ends⟩ := exists_line rest
      exact .inr ⟨ascii "//" ++ line, rest, rfl, cons_ne_nil _ _, .lineComment oneLine ends, nofun⟩
    by_cases opens : b = '/'.toUInt8 ∧ startsWith text '*' = true
    · obtain ⟨rfl, star⟩ := opens
      obtain ⟨rest, rfl⟩ := startsWith_iff.1 star
      by_cases closed : ascii "*/" <:+: rest
      · obtain ⟨inner, rest, rfl, unclosed⟩ := exists_inner closed
        refine .inr ⟨ascii "/*" ++ inner ++ ascii "*/", rest, ?_, cons_ne_nil _ _, .blockComment unclosed, nofun⟩
        simp [ascii]
      · refine .inr ⟨ascii "/*" ++ rest, [], ?_, cons_ne_nil _ _, .openComment closed, nofun⟩
        simp [ascii]
    by_cases marked : b = '#'.toUInt8 ∧ lineStart = true
    · obtain ⟨rfl, start⟩ := marked
      obtain ⟨line, rest, rfl, oneLine, ends⟩ := exists_line text
      exact .inr ⟨ascii "#" ++ line, rest, rfl, cons_ne_nil _ _, .directive (first start) oneLine ends,
        fun _ => start⟩
    refine .inl ⟨?_, ?_⟩
    · rw [skip, if_neg newline, if_neg blank, if_neg (by simpa using slashes), if_neg (by simpa using opens),
        if_neg (by simpa using marked)]
    · rintro _ _ ⟨⟩
      refine ⟨newline, by simpa using blank, fun slash => ⟨?_, ?_⟩⟩
      · simpa [slash] using slashes
      · simpa [slash] using opens

theorem skip_blanks (before : Bytes) (loc : Location) (text : Bytes) (lineStart : Bool)
    (first : lineStart = true → BlankSoFar before) :
    ∃ gap rest, text = gap ++ rest ∧ skip (.blanks lineStart) loc text = (loc.after gap, rest) ∧
      Gap before gap rest ∧ ∀ b more, rest = b :: more → Solid b more := by
  rcases exists_trivia loc text first with ⟨stops, solid⟩ | ⟨stretch, rest, rfl, nonempty, trivia, marked⟩
  · exact ⟨[], text, rfl, stops, .nil _ _, solid⟩
  · have shorter : rest.length < (stretch ++ rest).length := by
      have := length_pos_iff.2 nonempty
      rw [length_append]
      omega
    obtain ⟨lineStart', skipped, first', -⟩ := skip_trivia trivia (fun _ => marked) loc
    obtain ⟨gap, rest', rfl, skipped', tail, solid⟩ :=
      skip_blanks (before ++ stretch) (loc.after stretch) rest lineStart' (first' first)
    refine ⟨stretch ++ gap, rest', by rw [append_assoc], ?_, .cons trivia tail, solid⟩
    rw [skipped, skipped', Location.after_append]
termination_by text.length

end Cof
