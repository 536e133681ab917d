import MmkvGo.Wire.Region

/-!
The tolerant parser against the strict one (`reader.go`).  `parseDictGreedy` stops at the first pair that is malformed;
`replayGreedy_stops` says where that is in the log, and that no longer piece of the log is accepted.  So what it returns
is what `parseDict` returns of the longest prefix that it accepts.
-/

namespace MmkvGo.Wire

open MmkvGo.Lib

/-- `parseDict` accepts the bytes. -/
def Accepted (b : Bytes) : Prop := ∃ d, parseDict b = .ok d

/-- `p` is the longest prefix of `b` that `parseDict` accepts. -/
structure LongestAccepted (p b : Bytes) : Prop where
  sub : p <+: b
  accepted : Accepted p
  longest : ∀ q, q <+: b → Accepted q → q.length ≤ p.length

lemma LongestAccepted.unique {p q b : Bytes} (hp : LongestAccepted p b) (hq : LongestAccepted q b) : p = q := by
  have hlen : p.length = q.length := Nat.le_antisymm (hq.longest p hp.sub hp.accepted) (hp.longest q hq.sub hq.accepted)
  rcases List.prefix_or_prefix_of_prefix hp.sub hq.sub with h | h
  · exact h.eq_of_length hlen
  · exact (h.eq_of_length hlen.symm).symm

/-! ### Where the loop stops -/

lemma replayAll_of_replayOne_error {m d : Dict} {t x : Bytes} {e : Err} (h : replayOne m t = .error e) (hx : x <+: t)
    (hok : replayAll m x = .ok d) : x = [] := by
  by_contra hne
  obtain ⟨y, rfl⟩ := hx
  cases hone : replayOne m x with
  | error e' =>
    rw [replayAll_error hne hone] at hok
    cases hok
  | ok r =>
    rw [replayOne_append hone y] at h
    cases h

/-- **The tolerant loop stops at a boundary of pairs**: what it replayed is a piece that the strict loop accepts with the
same map, and it ends where the log does or where the next round fails. -/
lemma replayGreedy_stops {n : ℕ} {m : Dict} {buf : Bytes} (hn : buf.length ≤ n) :
    ∃ p t, buf = p ++ t ∧ replayAll m p = .ok (replayGreedy n m buf) ∧
      (t = [] ∨ ∃ e, replayOne (replayGreedy n m buf) t = .error e) := by
  induction n generalizing m buf with
  | zero =>
    obtain rfl : buf = [] := List.length_eq_zero_iff.1 (by omega)
    exact ⟨[], [], rfl, rfl, .inl rfl⟩
  | succ n ih =>
    by_cases hbuf : buf = []
    · subst hbuf
      exact ⟨[], [], rfl, rfl, .inl rfl⟩
    rw [replayGreedy, if_neg hbuf]
    cases hone : replayOne m buf with
    | error e => exact ⟨[], buf, rfl, rfl, .inr ⟨e, hone⟩⟩
    | ok r =>
      obtain ⟨m₁, rest⟩ := r
      have hlt := replayOne_length_lt hone
      obtain ⟨p, t, rfl, hp, ht⟩ := @ih m₁ rest (by omega)
      obtain ⟨one, rfl, hpre⟩ := replayOne_split hone
      have hround : replayOne m (one ++ p) = .ok (m₁, p) := replayOne_append hpre p
      exact ⟨one ++ p, t, by rw [List.append_assoc], by rw [replayAll_cons hround, hp], ht⟩

lemma split_of_accepted {q : Bytes} (hne : q ≠ []) {d : Dict} (h : parseDict q = .ok d) :
    ∃ v log, readVarint64 q = .ok (v, log) ∧ replayAll ∅ log = .ok d := by
  cases hq : readVarint64 q with
  | error e =>
    rw [parseDict, if_neg hne, hq] at h
    cases h
  | ok r =>
    obtain ⟨v, log⟩ := r
    rw [parseDict_of_varint hq] at h
    exact ⟨v, log, rfl, h⟩

lemma replayAll_of_accepted {b rest q : Bytes} {v : UInt64} (hv : readVarint64 b = .ok (v, rest)) (hq : q <+: b)
    (hne : q ≠ []) {d : Dict} (h : parseDict q = .ok d) :
    ∃ log, log <+: rest ∧ q.length + rest.length = b.length + log.length ∧ replayAll ∅ log = .ok d := by
  obtain ⟨v', log, hq', hall⟩ := split_of_accepted hne h
  obtain ⟨t, rfl⟩ := hq
  have heq := hv.symm.trans (Leb128.decode_append hq' t)
  simp only [Except.ok.injEq, Prod.mk.injEq] at heq
  obtain ⟨-, rfl⟩ := heq
  exact ⟨log, List.prefix_append log t, by simp only [List.length_append]; omega, hall⟩

lemma nil_of_accepted {b q : Bytes} {e : Err} (hv : readVarint64 b = .error e) (hq : q <+: b)
    (hacc : Accepted q) : q = [] := by
  by_contra hne
  obtain ⟨d, hd⟩ := hacc
  obtain ⟨v, log, hq', -⟩ := split_of_accepted hne hd
  obtain ⟨t, rfl⟩ := hq
  cases hv.symm.trans (Leb128.decode_append hq' t)

/-- Where the tolerant loop stops, no longer log is replayed: it would go on with a round that fails. -/
lemma length_le_of_stops {m m' d : Dict} {p t log : Bytes} (hp : replayAll m p = .ok m')
    (ht : t = [] ∨ ∃ e, replayOne m' t = .error e) (hlog : log <+: p ++ t) (hall : replayAll m log = .ok d) :
    log.length ≤ p.length := by
  rcases List.prefix_or_prefix_of_prefix hlog (List.prefix_append p t) with h | ⟨x, rfl⟩
  · exact h.length_le
  · rw [replayAll_append hp x] at hall
    rw [List.prefix_append_right_inj] at hlog
    rcases ht with rfl | ⟨e, he⟩
    · simp [List.prefix_nil.1 hlog]
    · simp [replayAll_of_replayOne_error he hlog hall]

/-- **The tolerant parser has a longest accepted prefix to show.** -/
lemma exists_longestAccepted (b : Bytes) :
    ∃ p, LongestAccepted p b ∧ parseDict p = .ok (parseDictGreedy b) := by
  have hnil : ∀ q : Bytes, q = [] → q.length ≤ ([] : Bytes).length := fun q hq => by rw [hq]
  by_cases hb : b = []
  · subst hb
    exact ⟨[], ⟨List.prefix_rfl, ⟨∅, rfl⟩, fun q hq _ => hnil q (List.prefix_nil.1 hq)⟩, rfl⟩
  rw [parseDictGreedy, if_neg hb]
  cases hv : readVarint64 b with
  | error e =>
    exact ⟨[], ⟨List.nil_prefix, ⟨∅, rfl⟩, fun q hq hacc => hnil q (nil_of_accepted hv hq hacc)⟩, rfl⟩
  | ok r =>
    obtain ⟨v, rest⟩ := r
    obtain ⟨p, t, hrest, hp, ht⟩ := @replayGreedy_stops rest.length ∅ rest le_rfl
    obtain ⟨pre, rfl, hpre⟩ := Leb128.decode_split hv
    have hhead : readVarint64 (pre ++ p) = .ok (v, p) := Leb128.decode_append hpre p
    have hparse : parseDict (pre ++ p) = .ok (replayGreedy rest.length ∅ rest) := by
      rw [parseDict_of_varint hhead, hp]
    refine ⟨pre ++ p, ⟨⟨t, by rw [List.append_assoc, ← hrest]⟩, ⟨_, hparse⟩, fun q hq hacc => ?_⟩, hparse⟩
    by_cases hne : q = []
    · simp [hne]
    obtain ⟨d, hd⟩ := hacc
    obtain ⟨log, hlog, hlen, hall⟩ := replayAll_of_accepted hv hq hne hd
    have hle := length_le_of_stops hp ht (hrest ▸ hlog) hall
    simp only [List.length_append] at hlen ⊢
    omega

/-- **Greedy decode is strict decode of the longest good prefix.**  Every byte string has a longest prefix that
`parseDict` accepts, `parseDictGreedy` returns what `parseDict` does of it, and on bytes that are accepted as a whole the
two agree. -/
theorem parseDictGreedy_eq_longest (b : Bytes) :
    (∃ p, LongestAccepted p b) ∧ (∀ p, LongestAccepted p b → parseDict p = .ok (parseDictGreedy b)) ∧
      ∀ d, parseDict b = .ok d → parseDictGreedy b = d := by
  obtain ⟨p, hp, hparse⟩ := exists_longestAccepted b
  refine ⟨⟨p, hp⟩, fun q hq => by rw [hq.unique hp, hparse], fun d hd => ?_⟩
  -- accepted as a whole, `b` is its own longest prefix
  have hself : LongestAccepted b b := ⟨List.prefix_rfl, ⟨d, hd⟩, fun q hq _ => hq.length_le⟩
  rw [hp.unique hself, hd] at hparse
  exact (Except.ok.inj hparse).symm

end MmkvGo.Wire
