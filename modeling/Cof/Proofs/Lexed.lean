/-
  The tokens of a source.

  Asking for one token after another takes a source apart: a gap, the bytes of a token, a gap, the bytes of
  the next, and so on to the end of the source or to the first place where there is no token.  `Lexes` is
  this reading of a source, told without a lexer, with what is known of each token: where it stands, that
  its bytes are on one line, and that it would be read again from these bytes (`Spelled`).
-/
import Cof.Proofs.Scanned

namespace Cof

open List

/-! ## What is known of a token -/

def Blanks (text : Bytes) : Prop := ∀ b ∈ text, isBlank b = true ∨ b = '\n'.toUInt8

/-- The bytes of a token, in front of others. -/
structure Spelled (kind : TokenKind) (raw behind : Bytes) : Prop where
  nonempty : raw ≠ []
  oneLine : OneLine raw
  kind_ne : kind ≠ .eof
  /-- A punctuator is the longest one that stands here. -/
  longest : ∀ p, kind = .punct p → raw = p.bytes ∧
    ∀ q : Punct, q.bytes <+: raw ++ behind → q.bytes.length ≤ p.bytes.length
  /-- The token is read from its own bytes, wherever they stand between blanks. -/
  again : ∀ loc spaces tail, Blanks spaces → Parted tail →
    Lexer.next ⟨loc, spaces ++ (raw ++ tail)⟩ =
      (.ok ⟨kind, loc.after spaces, raw⟩, ⟨(loc.after spaces).right raw.length, tail⟩)

variable {text body rest source : Bytes} {b first : UInt8} {kind : TokenKind} {ts : List Token}

theorem startsWith_eq_false {c : Char} : startsWith text c = false ↔ Stops (· == c.toUInt8) text := by
  unfold startsWith
  cases text with
  | nil => simp [Stops]
  | cons b text => simp [Stops]

theorem Solid.parted {tail : Bytes} (h : Solid b (body ++ rest)) (parted : Parted tail) : Solid b (body ++ tail) := by
  refine ⟨h.newline, h.blank, fun slash => ?_⟩
  obtain ⟨line, block⟩ := h.comment slash
  rw [startsWith_eq_false] at line block
  exact ⟨startsWith_eq_false.2 (line.append (parted.stops (by decide))),
    startsWith_eq_false.2 (block.append (parted.stops (by decide)))⟩

theorem skip_solid (solid : Solid b rest) (unmarked : b ≠ '#'.toUInt8)
    (lineStart : Bool) (loc : Location) : skip (.blanks lineStart) loc (b :: rest) = (loc, b :: rest) := by
  have line : ¬ (b = '/'.toUInt8 && startsWith rest '/') = true := by
    rw [Bool.and_eq_true, decide_eq_true_eq]
    rintro ⟨slash, starts⟩
    rw [(solid.comment slash).1] at starts
    cases starts
  have block : ¬ (b = '/'.toUInt8 && startsWith rest '*') = true := by
    rw [Bool.and_eq_true, decide_eq_true_eq]
    rintro ⟨slash, starts⟩
    rw [(solid.comment slash).2] at starts
    cases starts
  have directive : ¬ (b = '#'.toUInt8 && lineStart) = true := by
    rw [Bool.and_eq_true, decide_eq_true_eq]
    exact fun marked => unmarked marked.1
  rw [skip, if_neg solid.newline, if_neg (by rw [solid.blank]; decide), if_neg line, if_neg block, if_neg directive]

theorem Blanks.gap {spaces : Bytes} (blanks : Blanks spaces) (before behind : Bytes) : Gap before spaces behind := by
  induction spaces generalizing before with
  | nil => exact .nil ..
  | cons b spaces ih =>
    obtain ⟨found, blanks⟩ := forall_mem_cons.1 blanks
    exact .cons (.blank found) (ih blanks _)

/-- No blank opens a preprocessor line, so they may as well stand behind something. -/
theorem skip_spaces {spaces : Bytes} (blanks : Blanks spaces) (lineStart : Bool) (loc : Location) (text : Bytes) :
    ∃ lineStart', skip (.blanks lineStart) loc (spaces ++ text) = skip (.blanks lineStart') (loc.after spaces) text :=
  skip_gap (blanks.gap (ascii "#") text) lineStart (fun blank => by cases blank _ (mem_singleton_self _)) loc

theorem Lexer.next_of_token {loc loc' : Location} {more : Bytes}
    (skipped : skip (.blanks (loc.column == 1)) loc text = (loc', first :: (body ++ more)))
    (read : Scan.token first (body ++ more) = .ok (kind, (first :: body).length)) : Lexer.next ⟨loc, text⟩ =
      (.ok ⟨kind, loc', first :: body⟩, ⟨loc'.right (first :: body).length, more⟩) := by
  unfold next
  simp only [skipped, read]
  rw [← cons_append, take_left, drop_left]

theorem spelled_of_token {length : Nat} (solid : Solid first rest) (read : Scan.token first rest = .ok (kind, length)) :
    ∃ body more, rest = body ++ more ∧ length = (first :: body).length ∧ Spelled kind (first :: body) more := by
  obtain ⟨body, more, rfl, rfl, line, again⟩ := Scan.token_reads read
  refine ⟨body, more, rfl, rfl, by simp, line, Scan.token_ne_eof read, ?_, ?_⟩
  · rintro p rfl
    obtain ⟨found, length⟩ := Scan.token_punct read
    obtain ⟨front, longest⟩ := Punct.ofText?_eq_some found
    refine ⟨?_, longest⟩
    -- Both are the front of the text of the same length.
    exact (prefix_of_prefix_length_le (prefix_append ..) front (Nat.le_of_eq length)).eq_of_length length
  · intro loc spaces tail blanks parted
    have unmarked := Scan.token_ne_hash read
    obtain ⟨lineStart, skipped⟩ := skip_spaces blanks (loc.column == 1) loc (first :: body ++ tail)
    refine Lexer.next_of_token ?_ (again tail parted)
    rw [skipped]
    exact skip_solid (solid.parted parted) unmarked lineStart _

/-! ## One call -/

namespace Lexer

/-- The lexer has come through a front of the source. -/
structure At (source before : Bytes) (l : Lexer) : Prop where
  whole : source = before ++ l.ahead
  loc : l.loc = Location.start.after before

/-- What a call behind a front of the source answers and leaves. -/
inductive Step (source before : Bytes) : Except LexError Token × Lexer → Prop
  | eof {gap : Bytes} (whole : source = before ++ gap) (between : Gap before gap []) :
      Step source before (.ok ⟨.eof, .after .start source, []⟩, ⟨.after .start source, []⟩)
  | token {gap raw more : Bytes} {kind : TokenKind} (whole : source = before ++ gap ++ raw ++ more)
      (between : Gap before gap (raw ++ more)) (spelled : Spelled kind raw more) :
      Step source before (.ok ⟨kind, .after .start (before ++ gap), raw⟩, ⟨.after .start (before ++ gap ++ raw), more⟩)
  /-- The error is reported on the line where the text starts that is no token. -/
  | error {gap body more : Bytes} {fault : LexFault} {loc : Location} (whole : source = before ++ gap ++ body ++ more)
      (between : Gap before gap (body ++ more)) (nonempty : body ++ more ≠ []) :
      Step source before (.error ⟨fault, .after .start (before ++ gap ++ body)⟩, ⟨loc, []⟩)

theorem next_step {source before : Bytes} {l : Lexer} (placed : l.At source before) : Step source before l.next := by
  obtain ⟨loc, ahead⟩ := l
  obtain ⟨whole, rfl⟩ := placed
  -- In the first column nothing stands before on the line.
  have first : ((Location.start.after before).column == 1) = true → ∀ b ∈ lastLine before, isBlank b = true := by
    rw [beq_iff_eq, Location.column_after_start]
    intro column
    rw [length_eq_zero_iff.1 (by omega : (lastLine before).length = 0)]
    exact forall_mem_nil _
  obtain ⟨gap, rest, rfl, skipped, between, solid⟩ := skip_blanks before (Location.start.after before) ahead _ first
  rw [← Location.after_append] at skipped
  cases rest with
  | nil =>
    rw [append_nil] at whole
    subst whole
    unfold next
    simp only [skipped]
    exact .eof rfl between
  | cons first rest =>
    cases read : Scan.token first rest with
    | ok found =>
      obtain ⟨kind, length⟩ := found
      obtain ⟨body, more, rfl, rfl, spelled⟩ := spelled_of_token (solid _ _ rfl) read
      rw [next_of_token skipped read, ← Location.after_eq_right _ _ spelled.oneLine, ← Location.after_append]
      exact .token (by rw [whole]; simp) between spelled
    | error e =>
      obtain ⟨body, more, same, offset, line⟩ := Scan.token_blames read
      unfold next
      simp only [skipped, read]
      rw [offset, ← Location.after_eq_right _ _ line, ← Location.after_append]
      rw [same] at between whole
      exact .error (by rw [whole]; simp) between (by rw [← same]; simp)

def answer (l : Lexer) : Nat → Except LexError Token
  | 0 => l.next.1
  | n + 1 => l.next.2.answer n

theorem answer_nil (loc : Location) (n : Nat) : answer ⟨loc, []⟩ n = .ok ⟨.eof, loc, []⟩ := by
  have next : Lexer.next ⟨loc, []⟩ = (.ok ⟨.eof, loc, []⟩, ⟨loc, []⟩) := by
    unfold Lexer.next
    simp only [skip]
  induction n with
  | zero => rw [answer, next]
  | succ n ih => rw [answer, next, ih]

end Lexer

/-! ## Readings -/

/-- The tokens of a source behind a front of it, and what stops them. -/
inductive Lexes (source : Bytes) : Bytes → List Token → Stop → Prop
  | eof {before gap : Bytes} (whole : source = before ++ gap) (between : Gap before gap []) :
      Lexes source before [] (.eof (.after .start source))
  | error {before gap body more : Bytes} {fault : LexFault} (whole : source = before ++ gap ++ body ++ more)
      (between : Gap before gap (body ++ more)) (nonempty : body ++ more ≠ []) :
      Lexes source before [] (.error ⟨fault, .after .start (before ++ gap ++ body)⟩)
  | token {before gap raw more : Bytes} {kind : TokenKind} {ts : List Token} {stop : Stop}
      (whole : source = before ++ gap ++ raw ++ more) (between : Gap before gap (raw ++ more))
      (spelled : Spelled kind raw more) (rest : Lexes source (before ++ gap ++ raw) ts stop) :
      Lexes source before (⟨kind, .after .start (before ++ gap), raw⟩ :: ts) stop

def Stop.answer : Stop → Except LexError Token
  | .eof loc => .ok ⟨.eof, loc, []⟩
  | .error e => .error e

namespace Lexer

/-- Calls in a row answer with these tokens and then with what stops them, and nothing is left. -/
inductive Calls : Lexer → List Token → Stop → Prop
  | stop {l : Lexer} {stop : Stop} {loc : Location} (next : l.next = (stop.answer, ⟨loc, []⟩)) : Calls l [] stop
  | token {l l' : Lexer} {t : Token} {ts : List Token} {stop : Stop} (next : l.next = (.ok t, l'))
      (kind : t.kind ≠ .eof) (rest : Calls l' ts stop) : Calls l (t :: ts) stop

namespace Calls

variable {l : Lexer} {ts : List Token} {stop : Stop}

theorem answer_token (h : l.Calls ts stop) {i : Nat} (inside : i < ts.length) : l.answer i = .ok ts[i] := by
  induction h generalizing i with
  | stop => cases inside
  | token next _ _ ih =>
    cases i with
    | zero => rw [answer, next, List.getElem_cons_zero]
    | succ i => rw [answer, next, List.getElem_cons_succ, ih]

theorem answer_stop (h : l.Calls ts stop) : l.answer ts.length = stop.answer := by
  induction h with
  | stop next => rw [length_nil, answer, next]
  | token next _ _ ih => rw [length_cons, answer, next, ih]

theorem answer_later (h : l.Calls ts stop) {n : Nat} (later : ts.length < n) :
    ∃ loc, l.answer n = .ok ⟨.eof, loc, []⟩ := by
  induction h generalizing n with
  | stop next =>
    cases n with
    | zero => cases later
    | succ n => exact ⟨_, by rw [answer, next, answer_nil]⟩
  | token next _ _ ih =>
    cases n with
    | zero => cases later
    | succ n =>
      rw [answer, next]
      exact ih (Nat.lt_of_succ_lt_succ later)

theorem read (h : l.Calls ts stop) (limit : Nat) (enough : ts.length < limit) (done : List Token) :
    Tokens.read done limit l = ⟨done.reverse ++ ts, stop⟩ := by
  induction h generalizing limit done with
  | stop next =>
    rename_i stop _
    cases limit with
    | zero => cases enough
    | succ limit =>
      rw [Tokens.read, next, append_nil]
      cases stop <;> rfl
  | token next kind _ ih =>
    cases limit with
    | zero => cases enough
    | succ limit =>
      rw [Tokens.read, next]
      dsimp only
      rw [if_neg kind, ih limit (Nat.lt_of_succ_lt_succ enough), reverse_cons, append_assoc,
        singleton_append]

theorem unique {ts' : List Token} {stop' : Stop} (h : l.Calls ts stop) (h' : l.Calls ts' stop') :
    ts = ts' ∧ stop = stop' := by
  have same := (h.read (ts.length + ts'.length + 1) (by omega) []).symm.trans (h'.read _ (by omega) [])
  exact Tokens.mk.inj same

end Calls

theorem lexes {source before : Bytes} {l : Lexer} (placed : l.At source before) :
    ∃ ts stop, Lexes source before ts stop ∧ l.Calls ts stop ∧ ts.length ≤ l.ahead.length := by
  have step := next_step placed
  generalize called : l.next = result at step
  cases step with
  | eof whole between => exact ⟨[], _, .eof whole between, .stop called, Nat.zero_le _⟩
  | error whole between nonempty => exact ⟨[], _, .error whole between nonempty, .stop called, Nat.zero_le _⟩
  | token whole between spelled =>
    rename_i gap raw more kind
    have ahead : l.ahead = gap ++ raw ++ more := by
      have same := placed.whole.symm.trans whole
      rw [append_assoc, append_assoc] at same
      rw [append_cancel_left same, append_assoc]
    have shorter : more.length < l.ahead.length := by
      have := length_pos_iff.2 spelled.nonempty
      rw [ahead, length_append, length_append]
      omega
    obtain ⟨ts, stop, read, calls, length⟩ := lexes (l := ⟨_, more⟩) ⟨whole, rfl⟩
    refine ⟨_, stop, .token whole between spelled read, .token called spelled.kind_ne calls, ?_⟩
    rw [length_cons]
    exact Nat.lt_of_le_of_lt length shorter
termination_by l.ahead.length

theorem lexes_ofSource (source : Bytes) :
    ∃ ts stop, Lexes source [] ts stop ∧ (ofSource source).Calls ts stop ∧ ts.length ≤ source.length ∧
      Tokens.ofSource source = ⟨ts, stop⟩ := by
  have atStart : At source [] (ofSource source) := ⟨rfl, rfl⟩
  obtain ⟨ts, stop, read, calls, length⟩ := lexes atStart
  exact ⟨ts, stop, read, calls, length, calls.read _ (Nat.lt_succ_of_le length) []⟩

end Lexer

theorem Tokens.lexes (source : Bytes) : Lexes source [] (ofSource source).ahead (ofSource source).stop := by
  obtain ⟨ts, stop, read, _, _, same⟩ := Lexer.lexes_ofSource source
  rw [same]
  exact read

theorem tokenize_eq_ok (h : tokenize source = .ok ts) :
    ∃ tokens loc, Tokens.ofSource source = ⟨tokens, .eof loc⟩ ∧ ts = tokens ++ [⟨.eof, loc, []⟩] := by
  unfold tokenize at h
  split at h
  · rename_i tokens loc read
    exact ⟨tokens, loc, read, (Except.ok.inj h).symm⟩
  · cases h

theorem tokenize_eq_error {e : LexError} :
    tokenize source = .error e ↔ ∃ tokens, Tokens.ofSource source = ⟨tokens, .error e⟩ := by
  unfold tokenize
  constructor
  · intro h
    split at h
    · cases h
    · rename_i tokens e' read
      exact ⟨tokens, by rw [read, Except.error.inj h]⟩
  · rintro ⟨tokens, read⟩
    rw [read]

/-! ## Places in the source -/

def slice (source : Bytes) (start stop : Nat) : Bytes := (source.take stop).drop start

/-- A token with the place of its first byte and the place behind its last. -/
structure Span where
  token : Token
  start : Nat
  stop : Nat

/-- A token stands at its place. -/
structure Span.Stands (source : Bytes) (s : Span) : Prop where
  nonempty : s.start < s.stop
  inside : s.stop ≤ source.length
  kind : s.token.kind ≠ .eof
  oneLine : OneLine (slice source s.start s.stop)
  raw : s.token.raw = slice source s.start s.stop
  lexeme : s.token.lexeme = Utf8.lossy (slice source s.start s.stop)
  /-- Lines are counted by the line ends before, columns by the bytes before on the line. -/
  line : s.token.loc.line = 1 + (source.take s.start).count '\n'.toUInt8
  column : s.token.loc.column = 1 + (lastLine (source.take s.start)).length
  /-- A punctuator is the longest one that the source goes on with. -/
  longest : ∀ p, s.token.kind = .punct p → slice source s.start s.stop = p.bytes ∧
    ∀ q : Punct, q.bytes <+: source.drop s.start → q.bytes.length ≤ p.bytes.length

/-- There is nothing but a gap between two places. -/
structure Between (source : Bytes) (start stop : Nat) : Prop where
  ordered : start ≤ stop
  inside : stop ≤ source.length
  gap : Gap (source.take start) (slice source start stop) (source.drop stop)

/-- From one place to another there are these tokens, one behind the other, and gaps. -/
def Tiles (source : Bytes) : Nat → List Span → Nat → Prop
  | start, [], stop => Between source start stop
  | start, s :: rest, stop => Between source start s.start ∧ s.Stands source ∧ Tiles source s.stop rest stop

section Places

variable {source before text behind : Bytes}

theorem slice_eq (whole : source = before ++ text ++ behind) :
    slice source before.length (before ++ text).length = text := by
  rw [slice, whole, take_left, drop_left]

theorem between_of_gap (whole : source = before ++ text ++ behind) (gap : Gap before text behind) :
    Between source before.length (before ++ text).length := by
  refine ⟨by simp, by simp [whole], ?_⟩
  rw [slice_eq whole, whole, drop_left, append_assoc, take_left]
  exact gap

theorem stands_of_spelled {kind : TokenKind} (whole : source = before ++ text ++ behind)
    (spelled : Spelled kind text behind) :
    Span.Stands source ⟨⟨kind, .after .start before, text⟩, before.length, (before ++ text).length⟩ := by
  have front : source.take before.length = before := by rw [whole, append_assoc, take_left]
  have rest : source.drop before.length = text ++ behind := by rw [whole, append_assoc, drop_left]
  have bytes := slice_eq whole
  constructor
  · have := length_pos_iff.2 spelled.nonempty
    simp only [length_append]
    omega
  · simp [whole]
  · exact spelled.kind_ne
  · dsimp only
    rw [bytes]
    exact spelled.oneLine
  · exact bytes.symm
  · dsimp only
    rw [bytes]
    rfl
  · dsimp only
    rw [front, Location.line_after_start]
  · dsimp only
    rw [front, Location.column_after_start]
  · dsimp only
    rw [bytes, rest]
    exact spelled.longest

end Places

/-- Where reading stops: at the end of the source, or in front of text that is no token. -/
def Stop.StandsAt (source : Bytes) (place : Nat) : Stop → Prop
  | .eof loc => place = source.length ∧ loc = .after .start source
  | .error _ => place < source.length

theorem Lexes.tiles {before : Bytes} {stop : Stop} (h : Lexes source before ts stop) :
    ∃ spans place, spans.map (·.token) = ts ∧ Tiles source before.length spans place ∧ stop.StandsAt source place := by
  induction h with
  | eof whole between =>
    rename_i before gap
    rw [← append_nil (before ++ gap)] at whole
    refine ⟨[], _, rfl, between_of_gap whole between, ?_, rfl⟩
    rw [whole, append_nil]
  | error whole between nonempty =>
    rename_i before gap body more _
    rw [append_assoc] at whole
    refine ⟨[], _, rfl, between_of_gap whole between, ?_⟩
    have positive := length_pos_iff.2 nonempty
    have length := congrArg List.length whole
    show (before ++ gap).length < source.length
    simp only [length_append] at positive length ⊢
    omega
  | token whole between spelled _ ih =>
    obtain ⟨spans, place, tokens, tiles, stands⟩ := ih
    refine ⟨_ :: spans, place, ?_, ⟨?_, stands_of_spelled whole spelled, tiles⟩, stands⟩
    · rw [map_cons, tokens]
    · rw [append_assoc] at whole
      exact between_of_gap whole between

theorem Tiles.ordered {source : Bytes} {start stop : Nat} {spans : List Span} (h : Tiles source start spans stop) :
    (∀ s ∈ spans, start ≤ s.start) ∧ spans.Pairwise fun s t => s.stop ≤ t.start := by
  induction spans generalizing start with
  | nil => exact ⟨forall_mem_nil _, .nil⟩
  | cons s spans ih =>
    obtain ⟨between, stands, rest⟩ := h
    obtain ⟨behind, ordered⟩ := ih rest
    refine ⟨forall_mem_cons.2 ⟨between.ordered, fun t mem => ?_⟩, .cons behind ordered⟩
    have := behind t mem
    have := between.ordered
    have := stands.nonempty
    omega

/-- Calls in a row take a source apart into tokens and gaps, up to the end of the source or the first error.
The tokens stand in ranges of bytes one behind the other, at most as many as there are bytes, and after
them every call answers with the end of the source. -/
theorem Lexer.answers_tile (source : Bytes) : ∃ (spans : List Span) (place : Nat) (stop : Stop),
    Tiles source 0 spans place ∧ spans.Pairwise (fun s t => s.stop ≤ t.start) ∧
    spans.length ≤ source.length ∧
    (∀ i (h : i < spans.length), (ofSource source).answer i = .ok spans[i].token) ∧
    (ofSource source).answer spans.length = stop.answer ∧ stop.StandsAt source place ∧
    ∀ n, spans.length < n → ∃ loc, (ofSource source).answer n = .ok ⟨.eof, loc, []⟩ := by
  obtain ⟨ts, stop, read, calls, length, _⟩ := lexes_ofSource source
  obtain ⟨spans, place, rfl, tiles, stands⟩ := read.tiles
  rw [List.length_map] at length
  refine ⟨spans, place, stop, tiles, tiles.ordered.2, length, fun i h => ?_, ?_, stands, fun n later => ?_⟩
  · rw [calls.answer_token (by rwa [List.length_map]), List.getElem_map]
  · rw [← calls.answer_stop, List.length_map]
  · exact calls.answer_later (by rwa [List.length_map])

end Cof
