import MmkvGo.Lib.OrdRel
import MmkvGo.Lib.Slices
import MmkvGo.Wire.Region

/-!
The parsers of the region, with the places their values have in the buffer.  In the source a value of the dict is
`c.buf[c.pos : c.pos+n]`, a slice of the buffer that was parsed and not a copy of its bytes; `parseSpans` and
`parseSpansGreedy` are `parseDict` and `parseDictGreedy` with those offsets kept, and `parseSpans_shows` says that the
bytes at the offsets are the values that `parseDict` returns.
-/

namespace MmkvGo.Wire

open MmkvGo.Lib Std

/-- A part of a buffer. -/
structure Span where
  off : ℕ
  len : ℕ
  deriving DecidableEq

/-- The values of a dict as parts of the buffer. -/
abbrev Spans := ExtTreeMap Bytes Span

/-- Where a value stands that was read from a buffer of `total` bytes with `rest` left to read. -/
def spanOf (total : ℕ) (val rest : Bytes) : Span := ⟨total - rest.length - val.length, val.length⟩

/-- One round of the loop, as `replayOne`. -/
def spanOne (total : ℕ) (s : Spans) (buf : Bytes) : Except Err (Spans × Bytes) :=
  match readBytes buf with
  | .error e => .error e
  | .ok (key, rest) =>
    if key = [] then .ok (s, rest)
    else
      match readBytes rest with
      | .error e => .error e
      | .ok (val, rest) => .ok (if val = [] then s.erase key else s.insert key (spanOf total val rest), rest)

/-- The loop of `parseDict`. -/
def spanLoop (total : ℕ) : ℕ → Spans → Bytes → Except Err Spans
  | 0, s, _ => .ok s
  | n + 1, s, buf =>
    if buf = [] then .ok s
    else
      match spanOne total s buf with
      | .error e => .error e
      | .ok (s, rest) => spanLoop total n s rest

/-- The loop of `parseDictGreedy`. -/
def spanLoopGreedy (total : ℕ) : ℕ → Spans → Bytes → Spans
  | 0, s, _ => s
  | n + 1, s, buf =>
    if buf = [] then s
    else
      match spanOne total s buf with
      | .error _ => s
      | .ok (s, rest) => spanLoopGreedy total n s rest

/-- `parseDict`. -/
def parseSpans (plain : Bytes) : Except Err Spans :=
  if plain = [] then .ok ∅
  else
    match readVarint64 plain with
    | .error e => .error e
    | .ok (_, rest) => spanLoop plain.length rest.length ∅ rest

/-- `parseDictGreedy`. -/
def parseSpansGreedy (plain : Bytes) : Spans :=
  if plain = [] then ∅
  else
    match readVarint64 plain with
    | .error _ => ∅
    | .ok (_, rest) => spanLoopGreedy plain.length rest.length ∅ rest

/-! ### The bytes at the offsets -/

/-- The bytes of `buf` at `s` are `v`. -/
def Span.Shows (buf : Bytes) (s : Span) (v : Bytes) : Prop :=
  s.off + s.len ≤ buf.length ∧ slice buf s.off (s.off + s.len) = v

lemma shows_spanOf (pre val rest : Bytes) :
    (spanOf (pre ++ (val ++ rest)).length val rest).Shows (pre ++ (val ++ rest)) val := by
  have hoff : (pre ++ (val ++ rest)).length - rest.length - val.length = pre.length := by
    simp only [List.length_append]
    omega
  simp only [Span.Shows, spanOf, hoff]
  refine ⟨by simp, ?_⟩
  rw [slice, ← List.append_assoc, ← List.length_append, List.take_left, List.drop_left]

lemma readBytes_suffix {buf val rest : Bytes} (h : readBytes buf = .ok (val, rest)) : val ++ rest <:+ buf := by
  obtain ⟨n, mid, hv, -, rfl, rfl⟩ := readBytes_ok h
  obtain ⟨pre, rfl, -⟩ := Leb128.decode_split hv
  exact ⟨pre, by rw [List.take_append_drop]⟩

section Shows

variable {plain buf rest : Bytes} {s : Spans} {m m' : Dict}

theorem spanOne_shows (hsuffix : buf <:+ plain) (hs : OrdMap.Related (Span.Shows plain) s m)
    (h : replayOne m buf = .ok (m', rest)) :
    ∃ s', spanOne plain.length s buf = .ok (s', rest) ∧ OrdMap.Related (Span.Shows plain) s' m' ∧ rest <:+ plain := by
  rcases replayOne_cases h with ⟨hk, rfl⟩ | ⟨key, mid, val, hne, hk, hv, rfl⟩
  · exact ⟨s, by simp [spanOne, hk], hs, (readBytes_suffix hk).trans hsuffix⟩
  · have hmid : mid <:+ plain := ((List.suffix_append ..).trans (readBytes_suffix hk)).trans hsuffix
    have hval : val ++ rest <:+ plain := (readBytes_suffix hv).trans hmid
    refine ⟨if val = [] then s.erase key else s.insert key (spanOf plain.length val rest),
      by simp [spanOne, hk, hne, hv], ?_, (List.suffix_append ..).trans hval⟩
    rw [applyPair]
    split
    · exact hs.erase key
    · obtain ⟨pre, rfl⟩ := hval
      exact hs.insert (shows_spanOf pre val rest) key

theorem spanLoop_shows {n : ℕ} (hsuffix : buf <:+ plain) (hs : OrdMap.Related (Span.Shows plain) s m)
    (h : replay n m buf = .ok m') :
    ∃ s', spanLoop plain.length n s buf = .ok s' ∧ OrdMap.Related (Span.Shows plain) s' m' := by
  induction n generalizing s m buf with
  | zero =>
    cases h
    exact ⟨s, rfl, hs⟩
  | succ n ih =>
    rw [replay] at h
    rw [spanLoop]
    split at h
    · next hnil =>
      cases h
      exact ⟨s, if_pos hnil, hs⟩
    · next hne =>
      split at h
      · cases h
      · next m₁ rest hone =>
        obtain ⟨s₁, hone', hs₁, hrest⟩ := spanOne_shows hsuffix hs hone
        rw [if_neg hne, hone']
        exact ih hrest hs₁ h

lemma spanOne_error {e : Err} (total : ℕ) (s : Spans) (h : replayOne m buf = .error e) : spanOne total s buf = .error e := by
  unfold replayOne at h
  unfold spanOne
  cases hk : readBytes buf with
  | error e₁ =>
    rw [hk] at h
    cases h
    rfl
  | ok p =>
    obtain ⟨key, mid⟩ := p
    rw [hk] at h
    dsimp only at h ⊢
    by_cases hnil : key = []
    · rw [if_pos hnil] at h
      cases h
    · rw [if_neg hnil] at h ⊢
      cases hv : readBytes mid with
      | error e₁ =>
        rw [hv] at h
        cases h
        rfl
      | ok p =>
        rw [hv] at h
        cases h

theorem spanLoopGreedy_shows {n : ℕ} (hsuffix : buf <:+ plain) (hs : OrdMap.Related (Span.Shows plain) s m) :
    OrdMap.Related (Span.Shows plain) (spanLoopGreedy plain.length n s buf) (replayGreedy n m buf) := by
  induction n generalizing s m buf with
  | zero => exact hs
  | succ n ih =>
    rw [spanLoopGreedy, replayGreedy]
    by_cases hnil : buf = []
    · rw [if_pos hnil, if_pos hnil]
      exact hs
    · rw [if_neg hnil, if_neg hnil]
      cases hone : replayOne m buf with
      | error e =>
        rw [spanOne_error _ s hone]
        exact hs
      | ok p =>
        obtain ⟨m₁, rest⟩ := p
        obtain ⟨s₁, hone', hs₁, hrest⟩ := spanOne_shows hsuffix hs hone
        rw [hone']
        exact ih hrest hs₁

/-- **The offsets that the tolerant parser keeps.** -/
theorem parseSpansGreedy_shows (plain : Bytes) :
    OrdMap.Related (Span.Shows plain) (parseSpansGreedy plain) (parseDictGreedy plain) := by
  rw [parseSpansGreedy, parseDictGreedy]
  by_cases hnil : plain = []
  · rw [if_pos hnil, if_pos hnil]
    exact OrdMap.related_empty
  · rw [if_neg hnil, if_neg hnil]
    cases hv : readVarint64 plain with
    | error e => exact OrdMap.related_empty
    | ok p =>
      obtain ⟨v, rest⟩ := p
      obtain ⟨pre, hpre, -⟩ := Leb128.decode_split hv
      exact spanLoopGreedy_shows ⟨pre, hpre.symm⟩ OrdMap.related_empty

lemma parseSpans_of_varint {v : UInt64} (h : readVarint64 plain = .ok (v, rest)) :
    parseSpans plain = spanLoop plain.length rest.length ∅ rest := by
  have hne : plain ≠ [] := by
    rintro rfl
    cases h
  rw [parseSpans, if_neg hne, h]

/-- **The offsets that the parser keeps show the values that `parseDict` returns.** -/
theorem parseSpans_shows (h : parseDict plain = .ok m) :
    ∃ s, parseSpans plain = .ok s ∧ OrdMap.Related (Span.Shows plain) s m := by
  by_cases hnil : plain = []
  · subst hnil
    cases h
    exact ⟨∅, rfl, OrdMap.related_empty⟩
  · cases hv : readVarint64 plain with
    | error e =>
      rw [parseDict, if_neg hnil, hv] at h
      cases h
    | ok p =>
      obtain ⟨v, rest⟩ := p
      obtain ⟨pre, hpre, -⟩ := Leb128.decode_split hv
      rw [parseDict_of_varint hv, replayAll] at h
      rw [parseSpans_of_varint hv]
      exact spanLoop_shows ⟨pre, hpre.symm⟩ OrdMap.related_empty h

lemma spanLoop_error {n : ℕ} {e : Err} (hsuffix : buf <:+ plain) (hs : OrdMap.Related (Span.Shows plain) s m)
    (h : replay n m buf = .error e) : spanLoop plain.length n s buf = .error e := by
  induction n generalizing s m buf with
  | zero => cases h
  | succ n ih =>
    rw [replay] at h
    rw [spanLoop]
    split at h
    · cases h
    · next hne =>
      rw [if_neg hne]
      split at h
      · next e' hone =>
        cases h
        rw [spanOne_error _ s hone]
      · next m₁ rest hone =>
        obtain ⟨s₁, hone', hs₁, hrest⟩ := spanOne_shows hsuffix hs hone
        rw [hone']
        exact ih hrest hs₁ h

lemma parseSpans_error {e : Err} (h : parseDict plain = .error e) : parseSpans plain = .error e := by
  have hnil : plain ≠ [] := by
    rintro rfl
    cases h
  cases hv : readVarint64 plain with
  | error e' =>
    rw [parseDict, if_neg hnil, hv] at h
    cases h
    rw [parseSpans, if_neg hnil, hv]
  | ok p =>
    obtain ⟨v, rest⟩ := p
    obtain ⟨pre, hpre, -⟩ := Leb128.decode_split hv
    rw [parseDict_of_varint hv, replayAll] at h
    rw [parseSpans_of_varint hv]
    exact spanLoop_error ⟨pre, hpre.symm⟩ OrdMap.related_empty h

end Shows

end MmkvGo.Wire
