/-
  Tokens stay tokens when they are moved apart.

  A token is read from its own bytes.  So the bytes of the tokens of a source can be written down again with
  any blanks and line ends between them: the same tokens are read from that text.  No two of them grow
  together, since something stands between them, and none of them opens a comment or a preprocessor line,
  since each was a token where it stood before.
-/
import Cof.Proofs.Lexed

namespace Cof

open List

/-- Texts joined by runs of spaces, tabs and line ends, none of them empty. -/
inductive Joined : List Bytes → Bytes → Prop
  | nil : Joined [] []
  | single (raw : Bytes) : Joined [raw] raw
  | cons {raw next spaces text : Bytes} {raws : List Bytes} (nonempty : spaces ≠ [])
      (allowed : ∀ b ∈ spaces, b = ' '.toUInt8 ∨ b = '\t'.toUInt8 ∨ b = '\n'.toUInt8)
      (rest : Joined (next :: raws) text) : Joined (raw :: next :: raws) (raw ++ (spaces ++ text))

variable {spaces : Bytes}

theorem blanks_of_allowed
    (allowed : ∀ b ∈ spaces, b = ' '.toUInt8 ∨ b = '\t'.toUInt8 ∨ b = '\n'.toUInt8) : Blanks spaces := by
  intro b mem
  rcases allowed b mem with rfl | rfl | rfl
  · exact .inl rfl
  · exact .inl rfl
  · exact .inr rfl

theorem Blanks.parted (h : Blanks spaces) (nonempty : spaces ≠ []) (text : Bytes) : Parted (spaces ++ text) := by
  cases spaces with
  | nil => exact absurd rfl nonempty
  | cons b spaces =>
    rintro _ ⟨⟩
    exact h b (mem_cons_self ..)

theorem Joined.uncons {raw text : Bytes} {raws : List Bytes} (h : Joined (raw :: raws) text) :
    ∃ spaces rest, text = raw ++ (spaces ++ rest) ∧ Blanks spaces ∧ Parted (spaces ++ rest) ∧ Joined raws rest := by
  cases h with
  | single => exact ⟨[], [], (append_nil _).symm, forall_mem_nil _, nofun, .nil⟩
  | cons nonempty allowed rest =>
    have blanks := blanks_of_allowed allowed
    exact ⟨_, _, rfl, blanks, blanks.parted nonempty _, rest⟩

theorem Lexes.spelled {source before : Bytes} {ts : List Token} {stop : Stop} (h : Lexes source before ts stop) :
    ∀ t ∈ ts, ∃ behind, Spelled t.kind t.raw behind := by
  induction h with
  | eof | error => exact forall_mem_nil _
  | token _ _ spelled _ ih => exact forall_mem_cons.2 ⟨⟨_, spelled⟩, ih⟩

namespace Lexer

variable {spaces : Bytes} {ts : List Token}

theorem next_blanks (blanks : Blanks spaces) (loc : Location) :
    next ⟨loc, spaces⟩ = (.ok ⟨.eof, loc.after spaces, []⟩, ⟨loc.after spaces, []⟩) := by
  obtain ⟨lineStart, skipped⟩ := skip_spaces blanks (loc.column == 1) loc []
  rw [append_nil, skip] at skipped
  unfold next
  simp only [skipped]

theorem calls_joined {text : Bytes} (spelled : ∀ t ∈ ts, ∃ behind, Spelled t.kind t.raw behind)
    (joined : Joined (ts.map (·.raw)) text) (blanks : Blanks spaces) (loc : Location) :
    ∃ us loc', Calls ⟨loc, spaces ++ text⟩ us (.eof loc') ∧ us.map (·.kind) = ts.map (·.kind) ∧
      us.map (·.raw) = ts.map (·.raw) := by
  induction ts generalizing text spaces loc with
  | nil =>
    cases joined
    rw [append_nil]
    exact ⟨[], _, .stop (next_blanks blanks loc), rfl, rfl⟩
  | cons t ts ih =>
    obtain ⟨⟨behind, first⟩, spelled⟩ := forall_mem_cons.1 spelled
    obtain ⟨spaces', rest, rfl, blanks', parted, joined⟩ := joined.uncons
    have next := first.again loc spaces _ blanks parted
    obtain ⟨us, loc', calls, kinds, raws⟩ := ih spelled joined blanks' _
    refine ⟨_ :: us, loc', .token next first.kind_ne calls, ?_, ?_⟩
    · rw [map_cons, map_cons, kinds]
    · rw [map_cons, map_cons, raws]

theorem tokenize_of_calls {source : Bytes} {loc : Location}
    (calls : (ofSource source).Calls ts (.eof loc)) : tokenize source = .ok (ts ++ [⟨.eof, loc, []⟩]) := by
  obtain ⟨ts', stop, _, calls', _, read⟩ := lexes_ofSource source
  obtain ⟨rfl, rfl⟩ := calls.unique calls'
  unfold tokenize
  rw [read]

end Lexer

/-- The bytes of the tokens of a source, joined by any blanks, have the same tokens. -/
theorem tokenize_joined {source text : Bytes} {ts : List Token} (read : tokenize source = .ok ts)
    (joined : Joined (ts.dropLast.map (·.raw)) text) :
    ∃ us, tokenize text = .ok us ∧ us.map (·.kind) = ts.map (·.kind) ∧ us.map (·.raw) = ts.map (·.raw) := by
  obtain ⟨tokens, loc, found, rfl⟩ := tokenize_eq_ok read
  rw [List.dropLast_concat] at joined
  have reading := Tokens.lexes source
  rw [found] at reading
  obtain ⟨us, loc', calls, kinds, raws⟩ := Lexer.calls_joined reading.spelled joined (List.forall_mem_nil _) .start
  refine ⟨_, Lexer.tokenize_of_calls calls, ?_, ?_⟩
  · rw [List.map_append, List.map_append, kinds]
    rfl
  · rw [List.map_append, List.map_append, raws]
    rfl

/-- Two signs that stood together stay two signs, and a comment is no longer needed to part them. -/
theorem tokenize_joined_signs : ∃ us, tokenize (ascii "a ++\n+ \tb") = .ok us ∧
    us.map (·.raw) = [ascii "a", ascii "++", ascii "+", ascii "b", []] := by
  have read : tokenize (ascii "a+++/**/b") = .ok
      [⟨.ident (ascii "a"), ⟨1, 1⟩, ascii "a"⟩, ⟨.punct .plusPlus, ⟨1, 2⟩, ascii "++"⟩,
        ⟨.punct .plus, ⟨1, 4⟩, ascii "+"⟩, ⟨.ident (ascii "b"), ⟨1, 9⟩, ascii "b"⟩, ⟨.eof, ⟨1, 10⟩, []⟩] := by
    decide
  have joined : Joined [ascii "a", ascii "++", ascii "+", ascii "b"] (ascii "a ++\n+ \tb") := by
    have last : Joined [ascii "+", ascii "b"] (ascii "+" ++ ([0x20, 0x09] ++ ascii "b")) :=
      .cons (List.cons_ne_nil _ _)
        (List.forall_mem_cons.2 ⟨.inl rfl, List.forall_mem_singleton.2 (.inr (.inl rfl))⟩) (.single _)
    have middle : Joined [ascii "++", ascii "+", ascii "b"] (ascii "++" ++ ([0x0a] ++ _)) :=
      .cons (List.cons_ne_nil _ _) (List.forall_mem_singleton.2 (.inr (.inr rfl))) last
    have first : Joined (ascii "a" :: _) (ascii "a" ++ ([0x20] ++ _)) :=
      .cons (List.cons_ne_nil _ _) (List.forall_mem_singleton.2 (.inl rfl)) middle
    exact first
  obtain ⟨us, again, _, raws⟩ := tokenize_joined read joined
  exact ⟨us, again, raws⟩

end Cof
