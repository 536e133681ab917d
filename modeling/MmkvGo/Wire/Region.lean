import MmkvGo.Lib.OrdMap
import MmkvGo.Wire.Coded
import Mathlib.Data.List.Nodup

/-!
The KV-log region (`encode.go`, `reader.go`): a placeholder varint, then the pairs of the log one after the
other.  `encodeRegion` writes it, `parseDict` replays it into a map, last write wins, an empty value being
a deletion; `parseDictGreedy` replays as much as is well formed.

The loop of both parsers runs on a counter that starts at the length of the buffer.  `replayAll_cons` is the
loop without the counter, and the two facts everything else rests on are `replayAll_append` (the log
is replayed piece by piece) and `parseDict_encodeRegion` (what is encoded is parsed back).
-/

namespace MmkvGo.Wire

open MmkvGo.Lib Std

/-- The in-memory map from keys to value blobs. -/
abbrev Dict := ExtTreeMap Bytes Bytes

/-- `itemSizeHolder`: a number whose varint takes four bytes. -/
def itemSizeHolder : UInt32 := 0x200000

/-- `itemSizeHolderBytes`. -/
def itemSizeHolderBytes : Bytes := writeRawVarint32 itemSizeHolder

/-- One pair of the log: the key and the value blob, each length-delimited. -/
def pairBytes (key blob : Bytes) : Bytes := writeData key ++ writeData blob

/-- `encodeRegion`: the placeholder and the pairs of `blob` in the given order of keys. -/
def encodeRegion (order : List Bytes) (blob : Dict) : Bytes :=
  itemSizeHolderBytes ++ order.flatMap fun k => pairBytes k (blob[k]?.getD [])

/-- One round of the loop of `parseDict` and `parseDictGreedy`: a key and, unless it is empty, its value. -/
def replayOne (m : Dict) (buf : Bytes) : Except Err (Dict × Bytes) :=
  match readBytes buf with
  | .error e => .error e
  | .ok (key, rest) =>
    -- an empty key is skipped, and what follows is read as the next key
    if key = [] then .ok (m, rest)
    else
      match readBytes rest with
      | .error e => .error e
      -- an empty value deletes
      | .ok (val, rest) => .ok (if val = [] then m.erase key else m.insert key val, rest)

/-- The loop of `parseDict`. -/
def replay : ℕ → Dict → Bytes → Except Err Dict
  | 0, m, _ => .ok m
  | n + 1, m, buf =>
    if buf = [] then .ok m
    else
      match replayOne m buf with
      | .error e => .error e
      | .ok (m, rest) => replay n m rest

/-- The loop of `parseDictGreedy`: the first malformed pair ends it. -/
def replayGreedy : ℕ → Dict → Bytes → Dict
  | 0, m, _ => m
  | n + 1, m, buf =>
    if buf = [] then m
    else
      match replayOne m buf with
      | .error _ => m
      | .ok (m, rest) => replayGreedy n m rest

/-- `parseDict`. -/
def parseDict (plain : Bytes) : Except Err Dict :=
  if plain = [] then .ok ∅
  else
    match readVarint64 plain with
    | .error e => .error e
    | .ok (_, rest) => replay rest.length ∅ rest

/-- `parseDictGreedy`. -/
def parseDictGreedy (plain : Bytes) : Dict :=
  if plain = [] then ∅
  else
    match readVarint64 plain with
    | .error _ => ∅
    | .ok (_, rest) => replayGreedy rest.length ∅ rest

/-- Keys and values are non-empty: what a map must satisfy for its region to replay to it. -/
def WF (d : Dict) : Prop := ∀ k v : Bytes, d[k]? = some v → k ≠ [] ∧ v ≠ []

/-! ### The loop without the counter -/

/-- The effect of one pair on the map: an empty value deletes. -/
def applyPair (d : Dict) (key blob : Bytes) : Dict := if blob = [] then d.erase key else d.insert key blob

/-- **What a round does**: it skips an empty key, or applies a pair. -/
theorem replayOne_cases {m m' : Dict} {buf rest : Bytes} (h : replayOne m buf = .ok (m', rest)) :
    readBytes buf = .ok ([], rest) ∧ m' = m ∨
      ∃ key mid val, key ≠ [] ∧ readBytes buf = .ok (key, mid) ∧ readBytes mid = .ok (val, rest) ∧
        m' = applyPair m key val := by
  unfold replayOne at h
  split at h
  · cases h
  · next key mid hk =>
    split at h
    · next he =>
      cases h
      exact .inl ⟨by rw [hk, he], rfl⟩
    · next hne =>
      split at h
      · cases h
      · next val rest hv =>
        cases h
        exact .inr ⟨key, mid, val, hne, hk, hv, rfl⟩

lemma replayOne_of_emptyKey {buf rest : Bytes} (m : Dict) (h : readBytes buf = .ok ([], rest)) :
    replayOne m buf = .ok (m, rest) := by
  simp [replayOne, h]

lemma replayOne_of_pair {key mid val buf rest : Bytes} (m : Dict) (hne : key ≠ []) (hk : readBytes buf = .ok (key, mid))
    (hv : readBytes mid = .ok (val, rest)) : replayOne m buf = .ok (applyPair m key val, rest) := by
  simp [replayOne, hk, hne, hv, applyPair]

theorem replayOne_length_lt {m m' : Dict} {buf rest : Bytes} (h : replayOne m buf = .ok (m', rest)) :
    rest.length < buf.length := by
  rcases replayOne_cases h with ⟨hk, -⟩ | ⟨key, mid, val, -, hk, hv, -⟩
  · exact readBytes_length_lt hk
  · exact Nat.lt_trans (readBytes_length_lt hv) (readBytes_length_lt hk)

theorem replayOne_append {m m' : Dict} {buf rest : Bytes} (h : replayOne m buf = .ok (m', rest)) (t : Bytes) :
    replayOne m (buf ++ t) = .ok (m', rest ++ t) := by
  rcases replayOne_cases h with ⟨hk, rfl⟩ | ⟨key, mid, val, hne, hk, hv, rfl⟩
  · exact replayOne_of_emptyKey _ (readBytes_append hk t)
  · exact replayOne_of_pair m hne (readBytes_append hk t) (readBytes_append hv t)

theorem replayOne_split {m m' : Dict} {buf rest : Bytes} (h : replayOne m buf = .ok (m', rest)) :
    ∃ pre, buf = pre ++ rest ∧ replayOne m pre = .ok (m', []) := by
  rcases replayOne_cases h with ⟨hk, rfl⟩ | ⟨key, mid, val, hne, hk, hv, rfl⟩
  · obtain ⟨pre, rfl, hpre⟩ := readBytes_split hk
    exact ⟨pre, rfl, replayOne_of_emptyKey _ hpre⟩
  · obtain ⟨kpre, rfl, hkpre⟩ := readBytes_split hk
    obtain ⟨vpre, rfl, hvpre⟩ := readBytes_split hv
    exact ⟨kpre ++ vpre, by rw [List.append_assoc], replayOne_of_pair m hne (readBytes_append hkpre vpre) hvpre⟩

theorem replay_counter {n k : ℕ} {m : Dict} {buf : Bytes} (hn : buf.length ≤ n) (hk : buf.length ≤ k) :
    replay n m buf = replay k m buf := by
  induction n generalizing k m buf with
  | zero =>
    obtain rfl : buf = [] := List.length_eq_zero_iff.1 (by omega)
    cases k <;> rfl
  | succ n ih =>
    cases buf with
    | nil => cases k <;> rfl
    | cons b buf =>
      simp only [List.length_cons] at hn hk
      obtain ⟨k, rfl⟩ : ∃ k', k = k' + 1 := ⟨k - 1, by omega⟩
      simp only [replay, reduceCtorEq, if_false]
      cases hone : replayOne m (b :: buf) with
      | error e => rfl
      | ok r =>
        have hlt : r.2.length < buf.length + 1 := replayOne_length_lt hone
        exact ih (by omega) (by omega)

/-- The log `buf` replayed onto `m`. -/
def replayAll (m : Dict) (buf : Bytes) : Except Err Dict := replay buf.length m buf

@[simp] lemma replayAll_nil (m : Dict) : replayAll m [] = .ok m := rfl

theorem replayAll_cons {m m' : Dict} {buf rest : Bytes} (h : replayOne m buf = .ok (m', rest)) :
    replayAll m buf = replayAll m' rest := by
  have hlt := replayOne_length_lt h
  obtain ⟨n, hn⟩ : ∃ n, buf.length = n + 1 := ⟨buf.length - 1, by omega⟩
  have hne : buf ≠ [] := by
    rintro rfl
    simp at hlt
  rw [replayAll, hn, replay, if_neg hne, h]
  exact replay_counter (by omega) le_rfl

lemma replayAll_error {m : Dict} {buf : Bytes} {e : Err} (hne : buf ≠ []) (h : replayOne m buf = .error e) :
    replayAll m buf = .error e := by
  obtain ⟨n, hn⟩ : ∃ n, buf.length = n + 1 :=
    ⟨buf.length - 1, by have := List.length_pos_iff.2 hne; omega⟩
  rw [replayAll, hn, replay, if_neg hne, h]

/-- **The log is replayed piece by piece.** -/
theorem replayAll_append {m m' : Dict} {a : Bytes} (h : replayAll m a = .ok m') (b : Bytes) :
    replayAll m (a ++ b) = replayAll m' b := by
  induction hn : a.length using Nat.strong_induction_on generalizing m a with
  | _ n ih =>
    by_cases ha : a = []
    · subst ha
      cases h
      rfl
    · cases hone : replayOne m a with
      | error e =>
        rw [replayAll_error ha hone] at h
        cases h
      | ok r =>
        obtain ⟨m₁, rest⟩ := r
        have hlt := replayOne_length_lt hone
        rw [replayAll_cons hone] at h
        rw [replayAll_cons (replayOne_append hone b)]
        exact ih rest.length (by omega) h rfl

lemma parseDict_nil : parseDict [] = .ok ∅ := rfl

theorem parseDict_of_varint {plain rest : Bytes} {v : UInt64} (h : readVarint64 plain = .ok (v, rest)) :
    parseDict plain = replayAll ∅ rest := by
  have hne : plain ≠ [] := by
    rintro rfl
    cases h
  rw [parseDict, if_neg hne, h]
  rfl

lemma parseDict_itemSizeHolderBytes : parseDict itemSizeHolderBytes = .ok ∅ := by decide

/-! ### One pair -/

theorem replayOne_pair {key blob : Bytes} (d : Dict) (hk : key ≠ []) (hkl : key.length < 2 ^ 32)
    (hbl : blob.length < 2 ^ 32) (rest : Bytes) :
    replayOne d (pairBytes key blob ++ rest) = .ok (applyPair d key blob, rest) := by
  rw [pairBytes, List.append_assoc]
  exact replayOne_of_pair d hk (readBytes_writeData hkl _) (readBytes_writeData hbl rest)

/-- **What follows a region that `parseDict` accepts** is replayed onto its map, whoever wrote the region. -/
theorem parseDict_append {r : Bytes} {d : Dict} (hr : r ≠ []) (h : parseDict r = .ok d) (b : Bytes) :
    parseDict (r ++ b) = replayAll d b := by
  cases hv : readVarint64 r with
  | error e => rw [parseDict, if_neg hr, hv] at h; cases h
  | ok p =>
    obtain ⟨v, rest⟩ := p
    have hv' : readVarint64 (r ++ b) = .ok (v, rest ++ b) := Leb128.decode_append hv _
    rw [parseDict_of_varint hv] at h
    rw [parseDict_of_varint hv', replayAll_append h]

/-- **A pair appended to a region** that `parseDict` accepts, whoever wrote it. -/
theorem parseDict_append_pair {r : Bytes} {d : Dict} {key blob : Bytes} (hr : r ≠ []) (h : parseDict r = .ok d)
    (hk : key ≠ []) (hkl : key.length < 2 ^ 32) (hbl : blob.length < 2 ^ 32) :
    parseDict (r ++ pairBytes key blob) = .ok (applyPair d key blob) := by
  have hone := replayOne_pair d hk hkl hbl []
  rw [List.append_nil] at hone
  rw [parseDict_append hr h, replayAll_cons hone, replayAll_nil]

/-! ### Maps with non-empty keys and values -/

lemma wf_empty : WF ∅ := by
  intro k v h
  simp at h

theorem WF.insert {d : Dict} (h : WF d) {key blob : Bytes} (hk : key ≠ []) (hb : blob ≠ []) :
    WF (d.insert key blob) := by
  intro k v hkv
  rw [ExtTreeMap.getElem?_insert] at hkv
  split at hkv
  · next he =>
    cases hkv
    rw [← LawfulEqCmp.compare_eq_iff_eq.1 he]
    exact ⟨hk, hb⟩
  · exact h k v hkv

theorem WF.ne_nil_of_contains {d : Dict} (h : WF d) {key : Bytes} (hc : d.contains key = true) : key ≠ [] := by
  rw [ExtTreeMap.contains_iff_mem, ExtTreeMap.mem_iff_isSome_getElem?] at hc
  obtain ⟨v, hv⟩ := Option.isSome_iff_exists.1 hc
  exact (h key v hv).1

theorem WF.erase {d : Dict} (h : WF d) (key : Bytes) : WF (d.erase key) := by
  intro k v hkv
  rw [ExtTreeMap.getElem?_erase] at hkv
  split at hkv
  · cases hkv
  · exact h k v hkv

theorem WF.applyPair {d : Dict} (h : WF d) {key blob : Bytes} (hk : key ≠ []) : WF (applyPair d key blob) := by
  rw [Wire.applyPair]
  split
  · exact h.erase key
  · next hb => exact h.insert hk hb

theorem WF.foldl_erase {d : Dict} (h : WF d) (keys : List Bytes) : WF (keys.foldl (fun d k => d.erase k) d) := by
  induction keys generalizing d with
  | nil => exact h
  | cons k keys ih => exact ih (h.erase k)

theorem WF.map_append {d : Dict} (h : WF d) (bs : Bytes) : WF (d.map fun _ v => v ++ bs) := by
  intro k v hv
  rw [ExtTreeMap.getElem?_map, Option.map_eq_some_iff] at hv
  obtain ⟨u, hu, rfl⟩ := hv
  exact ⟨(h k u hu).1, by simp [(h k u hu).2]⟩

theorem replayOne_wf {m m' : Dict} {buf rest : Bytes} (hm : WF m) (h : replayOne m buf = .ok (m', rest)) :
    WF m' := by
  rcases replayOne_cases h with ⟨-, rfl⟩ | ⟨key, mid, val, hne, -, -, rfl⟩
  · exact hm
  · exact hm.applyPair hne

theorem replay_wf {n : ℕ} {m m' : Dict} {buf : Bytes} (hm : WF m) (h : replay n m buf = .ok m') : WF m' := by
  induction n generalizing m buf with
  | zero =>
    cases h
    exact hm
  | succ n ih =>
    rw [replay] at h
    split at h
    · cases h
      exact hm
    · split at h
      · cases h
      · next hone => exact ih (replayOne_wf hm hone) h

theorem parseDict_wf {plain : Bytes} {d : Dict} (h : parseDict plain = .ok d) : WF d := by
  unfold parseDict at h
  split at h
  · cases h
    exact wf_empty
  · split at h
    · cases h
    · exact replay_wf wf_empty h

theorem replayGreedy_wf {n : ℕ} {m : Dict} {buf : Bytes} (hm : WF m) : WF (replayGreedy n m buf) := by
  induction n generalizing m buf with
  | zero => exact hm
  | succ n ih =>
    rw [replayGreedy]
    split
    · exact hm
    · split
      · exact hm
      · next hone => exact ih (replayOne_wf hm hone)

theorem parseDictGreedy_wf (plain : Bytes) : WF (parseDictGreedy plain) := by
  unfold parseDictGreedy
  split
  · exact wf_empty
  · split
    · exact wf_empty
    · exact replayGreedy_wf wf_empty

/-! ### Values come from the log -/

lemma getElem?_applyPair (d : Dict) (key blob k : Bytes) :
    (applyPair d key blob)[k]? = if key = k then (if blob = [] then none else some blob) else d[k]? := by
  rw [applyPair]
  split
  · simp only [ExtTreeMap.getElem?_erase, LawfulEqCmp.compare_eq_iff_eq]
  · simp only [ExtTreeMap.getElem?_insert, LawfulEqCmp.compare_eq_iff_eq]

lemma replayOne_value {m m' : Dict} {buf rest : Bytes} (h : replayOne m buf = .ok (m', rest)) {k v : Bytes}
    (hv : m'[k]? = some v) : m[k]? = some v ∨ v.length ≤ buf.length := by
  rcases replayOne_cases h with ⟨-, rfl⟩ | ⟨key, mid, val, -, hk, hval, rfl⟩
  · exact .inl hv
  · have hlt := readBytes_length_lt hk
    have hle := readBytes_length_add_lt hval
    rw [getElem?_applyPair] at hv
    split at hv
    · split at hv
      · cases hv
      · cases hv
        exact .inr (by omega)
    · exact .inl hv

lemma replay_value {n : ℕ} {m m' : Dict} {buf : Bytes} (h : replay n m buf = .ok m') {k v : Bytes}
    (hv : m'[k]? = some v) : m[k]? = some v ∨ v.length ≤ buf.length := by
  induction n generalizing m buf with
  | zero =>
    cases h
    exact .inl hv
  | succ n ih =>
    rw [replay] at h
    split at h
    · cases h
      exact .inl hv
    · split at h
      · cases h
      · next m₁ rest hone =>
        have hlt := replayOne_length_lt hone
        rcases ih h with hm | hle
        · exact replayOne_value hone hm
        · exact .inr (by omega)

/-- **No value is longer than the region it was read from.** -/
theorem parseDict_length_le {plain : Bytes} {d : Dict} (h : parseDict plain = .ok d) {k v : Bytes}
    (hv : d[k]? = some v) : v.length ≤ plain.length := by
  unfold parseDict at h
  split at h
  · cases h
    simp at hv
  · split at h
    · cases h
    · next rest hread =>
      have hlt : rest.length < plain.length := Leb128.decode_length_lt hread
      rcases replay_value h hv with hm | hle
      · simp at hm
      · omega

/-! ### What is encoded is parsed back -/

theorem replayAll_pairs {f : Bytes → Bytes} {order : List Bytes} (m : Dict)
    (h : ∀ k ∈ order, k ≠ [] ∧ k.length < 2 ^ 32 ∧ (f k).length < 2 ^ 32) :
    replayAll m (order.flatMap fun k => pairBytes k (f k)) =
      .ok (order.foldl (fun m k => applyPair m k (f k)) m) := by
  induction order generalizing m with
  | nil => rfl
  | cons k order ih =>
    obtain ⟨hk, hkl, hfl⟩ := h k (by simp)
    rw [List.flatMap_cons, replayAll_cons (replayOne_pair m hk hkl hfl _), List.foldl_cons]
    exact ih _ fun k' hk' => h k' (List.mem_cons_of_mem _ hk')

/-- **What `encodeRegion` writes, `parseDict` reads**, in whatever order the keys are written. -/
theorem parseDict_encodeRegion {order : List Bytes} {d : Dict} (hwf : WF d) (hnd : order.Nodup)
    (hmem : ∀ k, k ∈ order ↔ k ∈ d)
    (hlen : ∀ k v : Bytes, d[k]? = some v → k.length < 2 ^ 32 ∧ v.length < 2 ^ 32) :
    parseDict (encodeRegion order d) = .ok d := by
  -- every key of the enumeration has its value in the map
  have hval : ∀ k ∈ order, d[k]? = some (d[k]?.getD []) := by
    intro k hk
    have := (hmem k).1 hk
    rw [ExtTreeMap.mem_iff_isSome_getElem?] at this
    obtain ⟨v, hv⟩ := Option.isSome_iff_exists.1 this
    rw [hv, Option.getD_some]
  rw [encodeRegion, itemSizeHolderBytes, parseDict_of_varint (readVarint64_varint32 itemSizeHolder _),
    replayAll_pairs]
  · congr 1
    have hfold : ∀ (l : List Bytes) (m : Dict), (∀ k ∈ l, k ∈ order) →
        l.foldl (fun m k => applyPair m k (d[k]?.getD [])) m =
          (l.map fun k => (k, d[k]?.getD [])).foldl (fun m p => m.insert p.1 p.2) m := by
      intro l
      induction l with
      | nil => intro m _; rfl
      | cons k l ih =>
        intro m hl
        have hne := (hwf k _ (hval k (hl k (by simp)))).2
        rw [List.foldl_cons, List.map_cons, List.foldl_cons, applyPair, if_neg hne]
        exact ih _ fun k' hk' => hl k' (List.mem_cons_of_mem _ hk')
    rw [hfold order ∅ fun _ h => h]
    apply OrdMap.foldl_insert_eq
    · rw [List.pairwise_map]
      exact hnd.imp fun h he => h (LawfulEqCmp.compare_eq_iff_eq.1 he)
    · intro k v
      simp only [List.mem_map, Prod.mk.injEq]
      constructor
      · rintro ⟨k', hk', rfl, rfl⟩
        exact hval k' hk'
      · intro hv
        refine ⟨k, (hmem k).2 ?_, rfl, by rw [hv, Option.getD_some]⟩
        rw [ExtTreeMap.mem_iff_isSome_getElem?, hv]
        rfl
  · intro k hk
    exact ⟨(hwf k _ (hval k hk)).1, (hlen k _ (hval k hk)).1, (hlen k _ (hval k hk)).2⟩

/-! ### The region of a whole map -/

/-- The region a full write-back produces: the pairs in the order of the keys. -/
def regionOf (d : Dict) : Bytes := encodeRegion d.keys d

/-- The number of bytes of one entry in a region. -/
def pairSize (p : Bytes × Bytes) : ℕ := (pairBytes p.1 p.2).length

lemma length_itemSizeHolderBytes : itemSizeHolderBytes.length = 4 := by decide

lemma length_pairBytes (k v : Bytes) : (pairBytes k v).length = pairSize (k, v) := rfl

lemma le_pairSize (k v : Bytes) : k.length + v.length + 2 ≤ pairSize (k, v) := by
  have h : ∀ b : Bytes, b.length + 1 ≤ (writeData b).length := by
    intro b
    have : 0 < (Leb128.encode 5 (UInt32.ofNat b.length).toNat).length := Leb128.length_encode_pos 4 _
    rw [writeData, List.length_append, writeRawVarint32]
    omega
  have h₁ := h k
  have h₂ := h v
  simp only [pairSize, pairBytes, List.length_append]
  omega

theorem regionOf_eq (d : Dict) :
    regionOf d = itemSizeHolderBytes ++ d.toList.flatMap fun p => pairBytes p.1 p.2 := by
  rw [regionOf, encodeRegion, ← ExtTreeMap.map_fst_toList_eq_keys, List.flatMap_map]
  congr 1
  refine List.flatMap_congr fun p hp => ?_
  have : d[p.1]? = some p.2 := ExtTreeMap.mem_toList_iff_getElem?_eq_some.1 hp
  rw [this, Option.getD_some]

theorem length_regionOf (d : Dict) : (regionOf d).length = 4 + OrdMap.weight pairSize d := by
  rw [regionOf_eq, List.length_append, length_itemSizeHolderBytes, List.length_flatMap]
  rfl

/-- A field that was read takes no less of the log than it is reckoned at. -/
def Reckoned (field size : Bytes → ℕ) : Prop :=
  ∀ {buf b rest : Bytes}, readBytes buf = .ok (b, rest) → field b + size rest ≤ size buf

/-- What the fields of an entry are reckoned at. -/
def entrySize (field : Bytes → ℕ) (p : Bytes × Bytes) : ℕ := field p.1 + field p.2

section Reckoned

variable {field size : Bytes → ℕ} (hread : Reckoned field size)

lemma weight_applyPair_le (m : Dict) (key val : Bytes) :
    OrdMap.weight (entrySize field) (applyPair m key val) ≤
      OrdMap.weight (entrySize field) m + (field key + field val) := by
  rw [applyPair]
  split
  · exact Nat.le_trans (OrdMap.weight_erase_le _ m key) (Nat.le_add_right ..)
  · exact OrdMap.weight_insert_le _ m key val

include hread

lemma replayOne_weight {m m' : Dict} {buf rest : Bytes} (h : replayOne m buf = .ok (m', rest)) :
    OrdMap.weight (entrySize field) m' + size rest ≤ OrdMap.weight (entrySize field) m + size buf := by
  rcases replayOne_cases h with ⟨hk, rfl⟩ | ⟨key, mid, val, -, hk, hv, rfl⟩
  · have := hread hk
    omega
  · have h₁ := hread hk
    have h₂ := hread hv
    have h₃ : OrdMap.weight (entrySize field) (applyPair m key val) ≤ _ := weight_applyPair_le m key val
    omega

/-- **No entry comes from nothing**: what the map has gained is covered by the log. -/
theorem replay_weight {n : ℕ} {m m' : Dict} {buf : Bytes} (h : replay n m buf = .ok m') :
    OrdMap.weight (entrySize field) m' ≤ OrdMap.weight (entrySize field) m + size buf := by
  induction n generalizing m buf with
  | zero =>
    cases h
    exact Nat.le_add_right ..
  | succ n ih =>
    rw [replay] at h
    split at h
    · cases h
      exact Nat.le_add_right ..
    · split at h
      · cases h
      · next hone =>
        have := replayOne_weight hread hone
        have := ih h
        omega

theorem replayGreedy_weight (n : ℕ) (m : Dict) (buf : Bytes) :
    OrdMap.weight (entrySize field) (replayGreedy n m buf) ≤ OrdMap.weight (entrySize field) m + size buf := by
  induction n generalizing m buf with
  | zero => exact Nat.le_add_right ..
  | succ n ih =>
    rw [replayGreedy]
    split
    · exact Nat.le_add_right ..
    · split
      · exact Nat.le_add_right ..
      · next m₁ rest hone =>
        have := replayOne_weight hread hone
        have := ih m₁ rest
        omega

end Reckoned

lemma reckoned_length : Reckoned (fun b => (writeData b).length) List.length := length_writeData_add_le

lemma length_regionOf_eq (d : Dict) :
    (regionOf d).length = 4 + OrdMap.weight (entrySize fun b => (writeData b).length) d := by
  have hsize : pairSize = entrySize fun b => (writeData b).length := by
    funext p
    rw [pairSize, pairBytes, List.length_append, entrySize]
  rw [length_regionOf, hsize]

lemma replay_length_regionOf {n : ℕ} {m m' : Dict} {buf : Bytes} (h : replay n m buf = .ok m') :
    (regionOf m').length ≤ (regionOf m).length + buf.length := by
  have := replay_weight reckoned_length h
  rw [length_regionOf_eq, length_regionOf_eq]
  omega

/-- **The region of a map is no longer than the log it was read from**, up to the placeholder. -/
theorem length_regionOf_parseDict {plain : Bytes} {d : Dict} (h : parseDict plain = .ok d) :
    (regionOf d).length ≤ plain.length + 4 := by
  have hempty : (regionOf (∅ : Dict)).length = 4 := by decide
  unfold parseDict at h
  split at h
  · cases h
    omega
  · split at h
    · cases h
    · next rest hread =>
      have hlt : rest.length < plain.length := Leb128.decode_length_lt hread
      have := replay_length_regionOf h
      omega

/-- A region that starts with the placeholder of this library is no shorter than that of the map it is read to. -/
theorem length_regionOf_parseDict_of_prefix {plain : Bytes} {d : Dict} (hp : itemSizeHolderBytes <+: plain)
    (h : parseDict plain = .ok d) : (regionOf d).length ≤ plain.length := by
  have hempty : (regionOf (∅ : Dict)).length = 4 := by decide
  obtain ⟨log, rfl⟩ := hp
  rw [List.length_append, length_itemSizeHolderBytes]
  rw [itemSizeHolderBytes, parseDict_of_varint (readVarint64_varint32 itemSizeHolder log)] at h
  have := replay_length_regionOf h
  omega

lemma itemSizeHolderBytes_prefix_regionOf (d : Dict) : itemSizeHolderBytes <+: regionOf d := by
  rw [regionOf_eq]
  exact List.prefix_append ..

lemma replayGreedy_length_regionOf (n : ℕ) (m : Dict) (buf : Bytes) :
    (regionOf (replayGreedy n m buf)).length ≤ (regionOf m).length + buf.length := by
  have := replayGreedy_weight reckoned_length n m buf
  rw [length_regionOf_eq, length_regionOf_eq]
  omega

theorem length_regionOf_parseDictGreedy (plain : Bytes) :
    (regionOf (parseDictGreedy plain)).length ≤ plain.length + 4 := by
  have hempty : (regionOf (∅ : Dict)).length = 4 := by decide
  unfold parseDictGreedy
  split
  · omega
  · split
    · omega
    · next rest hread =>
      have hlt : rest.length < plain.length := Leb128.decode_length_lt hread
      have := replayGreedy_length_regionOf rest.length ∅ rest
      omega

theorem pairSize_le_regionOf {d : Dict} {k v : Bytes} (h : d[k]? = some v) :
    4 + pairSize (k, v) ≤ (regionOf d).length := by
  have := ((OrdMap.toList_perm_erase h).map pairSize).sum_eq
  rw [length_regionOf, OrdMap.weight, this, List.map_cons, List.sum_cons]
  omega

/-- **A full write-back is parsed back.** -/
theorem parseDict_regionOf {d : Dict} (hwf : WF d) (hlen : (regionOf d).length < 2 ^ 32) :
    parseDict (regionOf d) = .ok d := by
  apply parseDict_encodeRegion hwf
  · exact d.nodup_keys
  · exact fun k => ExtTreeMap.mem_keys
  · intro k v h
    have h₁ := pairSize_le_regionOf h
    have h₂ := le_pairSize k v
    omega

/-! ### An empty key

The encoder writes an empty key with its value; the parser reads no value after it.  From there on every field is read as
what the next one is: the value as a key, the next key as its value, and so on to the end, where a value is missing. -/

lemma replayOne_emptyKey (d : Dict) (blob rest : Bytes) :
    replayOne d (pairBytes [] blob ++ rest) = .ok (d, writeData blob ++ rest) := by
  rw [pairBytes, List.append_assoc]
  exact replayOne_of_emptyKey d (readBytes_writeData (by simp) _)

theorem replayAll_misframed {f : Bytes → Bytes} {order : List Bytes} (d : Dict) {blob : Bytes} (hb : blob ≠ [])
    (hbl : blob.length < 2 ^ 32)
    (h : ∀ k ∈ order, f k ≠ [] ∧ k.length < 2 ^ 32 ∧ (f k).length < 2 ^ 32) :
    replayAll d (writeData blob ++ order.flatMap fun k => pairBytes k (f k)) = .error .unexpectedEOF := by
  induction order generalizing d blob with
  | nil =>
    have hread : readBytes (writeData blob ++ []) = .ok (blob, []) := readBytes_writeData hbl []
    refine replayAll_error (by simp [writeData, hb]) ?_
    rw [List.flatMap_nil, replayOne, hread]
    simp only [hb, if_false]
    rfl
  | cons k order ih =>
    obtain ⟨hf, hkl, hfl⟩ := h k (by simp)
    have hone : replayOne d (writeData blob ++ (k :: order).flatMap fun k => pairBytes k (f k)) =
        .ok (applyPair d blob k, writeData (f k) ++ order.flatMap fun k => pairBytes k (f k)) := by
      rw [List.flatMap_cons, pairBytes, List.append_assoc, ← List.append_assoc (writeData blob)]
      exact replayOne_pair d hb hbl hkl _
    rw [replayAll_cons hone]
    exact ih _ hf hfl fun k' hk' => h k' (List.mem_cons_of_mem _ hk')

theorem parseDict_append_emptyKey {r : Bytes} {d : Dict} {blob : Bytes} (hr : r ≠ []) (h : parseDict r = .ok d)
    (hb : blob ≠ []) (hbl : blob.length < 2 ^ 32) :
    parseDict (r ++ pairBytes [] blob) = .error .unexpectedEOF := by
  have hone := replayOne_emptyKey d blob []
  rw [List.append_nil] at hone
  rw [parseDict_append hr h, replayAll_cons hone]
  exact replayAll_misframed (f := id) d hb hbl fun _ hk => absurd hk List.not_mem_nil

/-- **The region of a map with an empty key does not parse.** -/
theorem parseDict_regionOf_emptyKey {d : Dict} {blob : Bytes} (hwf : WF d) (hb : blob ≠ [])
    (hlen : (regionOf (d.insert [] blob)).length < 2 ^ 32) :
    parseDict (regionOf (d.insert [] blob)) = .error .unexpectedEOF := by
  set d' := d.insert [] blob with hd'
  have hget : d'[([] : Bytes)]? = some blob := ExtTreeMap.getElem?_insert_self
  have hslot : ∀ k ∈ d'.keys, ∃ v, d'[k]? = some v := fun k hk =>
    Option.isSome_iff_exists.1 (ExtTreeMap.mem_iff_isSome_getElem?.1 (ExtTreeMap.mem_keys.1 hk))
  -- the other pairs are well formed
  have hval : ∀ k ∈ d'.keys, k ≠ [] → d'[k]?.getD [] ≠ [] := by
    intro k hk hne
    have hother : d'[k]? = d[k]? := by
      rw [hd', ExtTreeMap.getElem?_insert, if_neg]
      intro he
      exact hne (LawfulEqCmp.compare_eq_iff_eq.1 he).symm
    obtain ⟨v, hv⟩ := hslot k hk
    rw [hv, Option.getD_some]
    rw [hother] at hv
    exact (hwf k v hv).2
  have hsmall : ∀ k ∈ d'.keys, k.length < 2 ^ 32 ∧ (d'[k]?.getD []).length < 2 ^ 32 := by
    intro k hk
    obtain ⟨v, hv⟩ := hslot k hk
    have h₁ := pairSize_le_regionOf hv
    have h₂ := le_pairSize k v
    rw [hv, Option.getD_some]
    omega
  have hmem : ([] : Bytes) ∈ d'.keys := by
    rw [ExtTreeMap.mem_keys, ExtTreeMap.mem_iff_isSome_getElem?, hget]
    rfl
  obtain ⟨l₁, l₂, hkeys⟩ := List.append_of_mem hmem
  have hnd : (l₁ ++ [] :: l₂).Nodup := hkeys ▸ d'.nodup_keys
  rw [List.nodup_append, List.nodup_cons] at hnd
  have hne₁ : ∀ k ∈ l₁, k ≠ [] := fun k hk => hnd.2.2 k hk [] (by simp)
  have hne₂ : ∀ k ∈ l₂, k ≠ [] := by
    rintro k hk rfl
    exact hnd.2.1.1 hk
  rw [hkeys] at hval hsmall
  rw [regionOf, encodeRegion, itemSizeHolderBytes, parseDict_of_varint (readVarint64_varint32 itemSizeHolder _), hkeys,
    List.flatMap_append, List.flatMap_cons, hget, Option.getD_some]
  rw [replayAll_append (replayAll_pairs ∅ fun k hk => ⟨hne₁ k hk, hsmall k (by simp [hk])⟩),
    replayAll_cons (replayOne_emptyKey _ blob _)]
  have hbl := (hsmall [] (by simp)).2
  rw [hget, Option.getD_some] at hbl
  exact replayAll_misframed _ hb hbl fun k hk => ⟨hval k (by simp [hk]) (hne₂ k hk), hsmall k (by simp [hk])⟩

/-! ### Errors -/

/-- The errors of bytes that do not parse. -/
def Malformed (e : Err) : Prop := e = .unexpectedEOF ∨ e = .varintOverflow

lemma readVarint64_error {buf : Bytes} {e : Err} (h : readVarint64 buf = .error e) : Malformed e :=
  Leb128.decode_error h

lemma readBytes_error {buf : Bytes} {e : Err} (h : readBytes buf = .error e) : Malformed e := by
  rw [readBytes] at h
  split at h
  · next hv =>
    cases h
    exact readVarint64_error hv
  · split at h
    · cases h
      exact .inl rfl
    · cases h

lemma replayOne_error {m : Dict} {buf : Bytes} {e : Err} (h : replayOne m buf = .error e) : Malformed e := by
  rw [replayOne] at h
  split at h
  · next hk =>
    cases h
    exact readBytes_error hk
  · split at h
    · cases h
    · split at h
      · next hv =>
        cases h
        exact readBytes_error hv
      · cases h

lemma replay_error {n : ℕ} {m : Dict} {buf : Bytes} {e : Err} (h : replay n m buf = .error e) : Malformed e := by
  induction n generalizing m buf with
  | zero => cases h
  | succ n ih =>
    rw [replay] at h
    split at h
    · cases h
    · split at h
      · next hone =>
        cases h
        exact replayOne_error hone
      · exact ih h

/-- **`parseDict` fails with no other error.** -/
theorem parseDict_error {plain : Bytes} {e : Err} (h : parseDict plain = .error e) : Malformed e := by
  rw [parseDict] at h
  split at h
  · cases h
  · split at h
    · next hv =>
      cases h
      exact readVarint64_error hv
    · exact replay_error h

end MmkvGo.Wire
