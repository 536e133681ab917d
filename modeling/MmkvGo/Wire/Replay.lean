import MmkvGo.Lib.Leb128Digits
import MmkvGo.Wire.Region

/-!
Replaying a log is compositional as far as its lengths go.  A length prefix is a `uint32`, so of a field of 4 GiB or more
it is not the length.  `parseDict_append_iff` and `parseDict_encodeRegion_iff` say that this is the only limit: a pair that
is appended takes effect on every region if and only if its key is shorter than that, and a region that is written for a
map is read back as it if and only if all its fields are.

That a misread region does not come out right by chance is shown by counting.  For one pair the bytes left after the first
field do not suffice for another one of the same key and value.  For a whole region a byte counts by its digit too: the
entries of the map that is read back cannot weigh more than the log, and a prefix that lost bits weighs less than the one
that the entry would need.
-/

namespace MmkvGo.Wire

open MmkvGo.Lib Std

/-! ### A pair after a region -/

/-- **A log too short for a pair does not have its effect** on the slot of the key. -/
lemma replayAll_slot {m m' : Dict} {buf key val : Bytes} (h : replayAll m buf = .ok m')
    (hslot : m'[key]? = if val = [] then none else some val)
    (hshort : buf.length < key.length + 1 + (writeData val).length) :
    m[key]? = if val = [] then none else some val := by
  induction hn : buf.length using Nat.strong_induction_on generalizing m buf with
  | _ n ih =>
    by_cases hbuf : buf = []
    · subst hbuf
      cases h
      exact hslot
    cases hone : replayOne m buf with
    | error e =>
      rw [replayAll_error hbuf hone] at h
      cases h
    | ok r =>
      obtain ⟨m₁, rest⟩ := r
      have hlt := replayOne_length_lt hone
      rw [replayAll_cons hone] at h
      have hnext := ih rest.length (by omega) h (by omega) rfl
      rcases replayOne_cases hone with ⟨-, rfl⟩ | ⟨k, mid, v, -, hk, hv, rfl⟩
      · exact hnext
      rw [getElem?_applyPair] at hnext
      split at hnext
      · -- a round with the key would have to hold the value too
        next hkey =>
        subst hkey
        have hval : v = val := by
          by_cases hv₀ : v = [] <;> by_cases hval₀ : val = [] <;> simp_all
        subst hval
        have h₁ := length_writeData_add_le hv
        have h₂ := readBytes_length_add_lt hk
        omega
      · exact hnext

/-- What is read of a field of whatever length: its prefix counts it modulo 4 GiB. -/
lemma readBytes_writeData_mod (b rest : Bytes) :
    readBytes (writeData b ++ rest) =
      .ok ((b ++ rest).take (b.length % 2 ^ 32), (b ++ rest).drop (b.length % 2 ^ 32)) := by
  have hn : (UInt32.ofNat b.length).toUInt64.toNat = b.length % 2 ^ 32 := by
    rw [UInt32.toNat_toUInt64, UInt32.toNat_ofNat']
  have hle : b.length % 2 ^ 32 ≤ b.length := Nat.mod_le ..
  rw [readBytes, writeData, List.append_assoc, readVarint64_varint32]
  simp only [hn]
  rw [if_neg (by rw [List.length_append]; omega)]

/-- **A key of 4 GiB or more is cut where its prefix ends**, and then what is left is too short for the pair. -/
lemma replayAll_long_key {m m' : Dict} {key val : Bytes} (hlong : 2 ^ 32 ≤ key.length)
    (h : replayAll m (writeData key ++ writeData val) = .ok m')
    (hslot : m'[key]? = if val = [] then none else some val) : m[key]? = if val = [] then none else some val := by
  have hcut : key.length % 2 ^ 32 < 2 ^ 32 := Nat.mod_lt _ (by norm_num)
  have hread := readBytes_writeData_mod key (writeData val)
  have hmid : ((key ++ writeData val).drop (key.length % 2 ^ 32)).length ≤ key.length + (writeData val).length := by
    rw [List.length_drop, List.length_append]
    omega
  -- what is read as the key is its first bytes, and the log goes on in the middle of it
  have hkey : (key ++ writeData val).take (key.length % 2 ^ 32) ≠ key := by
    intro he
    have hlen := congrArg List.length he
    rw [List.length_take, List.length_append] at hlen
    omega
  generalize (key ++ writeData val).take (key.length % 2 ^ 32) = cut at hread hkey
  generalize (key ++ writeData val).drop (key.length % 2 ^ 32) = mid at hread hmid
  have hne : writeData key ++ writeData val ≠ [] := by
    intro he
    rw [he] at hread
    cases hread
  cases hone : replayOne m (writeData key ++ writeData val) with
  | error e =>
    rw [replayAll_error hne hone] at h
    cases h
  | ok r =>
    obtain ⟨m₁, rest⟩ := r
    rw [replayAll_cons hone] at h
    rcases replayOne_cases hone with ⟨hk, rfl⟩ | ⟨k, mid', v, -, hk, hv, rfl⟩
    · obtain ⟨-, rfl⟩ := Prod.mk.inj (Except.ok.inj (hread.symm.trans hk))
      exact replayAll_slot h hslot (by omega)
    · obtain ⟨rfl, rfl⟩ := Prod.mk.inj (Except.ok.inj (hread.symm.trans hk))
      have hlt := readBytes_length_lt hv
      have hnext := replayAll_slot h hslot (by omega)
      rw [getElem?_applyPair, if_neg hkey] at hnext
      exact hnext

/-- A region that binds a key of whatever length to a byte, as a writer of 64-bit lengths would encode it. -/
lemma exists_region_of_key {key : Bytes} (hk : key ≠ []) (hlen : key.length < 2 ^ 64) :
    ∃ r d, r ≠ [] ∧ parseDict r = .ok d ∧ d[key]? = some [0] := by
  have hvarint : readVarint64 (Leb128.encode 10 key.length ++ (key ++ writeData [0])) =
      .ok (UInt64.ofNat key.length, key ++ writeData [0]) :=
    Leb128.decode_encode _ (by norm_num) le_rfl (Nat.lt_trans hlen (by norm_num)) hlen
  have hread : readBytes (Leb128.encode 10 key.length ++ (key ++ writeData [0])) = .ok (key, writeData [0]) := by
    have hn : (UInt64.ofNat key.length).toNat = key.length := UInt64.toNat_ofNat_of_lt' hlen
    rw [readBytes, hvarint]
    simp [hn]
  have hone := replayOne_of_pair ∅ hk hread (readBytes_writeData (b := [0]) (by simp) [])
  refine ⟨itemSizeHolderBytes ++ (Leb128.encode 10 key.length ++ (key ++ writeData [0])), applyPair ∅ key [0],
    by simp [itemSizeHolderBytes, writeRawVarint32, Leb128.encode, itemSizeHolder], ?_, ?_⟩
  · rw [parseDict_append (by decide) parseDict_itemSizeHolderBytes, replayAll_cons hone, replayAll_nil]
  · simp [getElem?_applyPair]

/-- **A pair that is appended takes effect on every region, if and only if its key is shorter than 4 GiB.** -/
theorem parseDict_append_iff {key val : Bytes} (hk : key ≠ []) (hint : key.length < 2 ^ 63)
    (hval : val.length < 2 ^ 32) :
    (∀ r d, r ≠ [] → parseDict r = .ok d →
      parseDict (r ++ writeData key ++ writeData val) = .ok (if val = [] then d.erase key else d.insert key val)) ↔
      key.length < 2 ^ 32 := by
  refine ⟨fun hlaw => ?_, fun hlt r d hr hd => ?_⟩
  · by_contra hge
    -- otherwise every region would have to hold the pair already
    have hheld : ∀ r d, r ≠ [] → parseDict r = .ok d → d[key]? = if val = [] then none else some val := by
      intro r d hr hd
      have heq := hlaw r d hr hd
      rw [List.append_assoc, parseDict_append hr hd, ← applyPair] at heq
      exact replayAll_long_key (by omega) heq (by rw [getElem?_applyPair, if_pos rfl])
    by_cases hempty : val = []
    · obtain ⟨r, d, hr, hd, hslot⟩ := exists_region_of_key hk (Nat.lt_trans hint (by norm_num))
      rw [hheld r d hr hd, if_pos hempty] at hslot
      cases hslot
    · have := hheld itemSizeHolderBytes ∅ (by decide) parseDict_itemSizeHolderBytes
      simp [hempty] at this
  · rw [List.append_assoc, ← pairBytes, ← applyPair]
    exact parseDict_append_pair hr hd hk hlt hval

/-! ### The region of a map -/

/-- One for a field that a length prefix of 32 bits cannot count. -/
def excess (b : Bytes) : ℕ := if b.length < 2 ^ 32 then 0 else 1

/-- **A field that was read weighs no less than the field that would be written**, and more if its length does not fit the
prefix. -/
lemma reckoned_weight : Reckoned (fun b => Leb128.weight (writeData b) + excess b) Leb128.weight := by
  intro buf b rest h
  obtain ⟨n, mid, hv, hle, rfl, rfl⟩ := readBytes_ok h
  have hlen : (mid.take n.toNat).length = n.toNat := by
    rw [List.length_take]
    omega
  have hmid : Leb128.weight mid = Leb128.weight (mid.take n.toNat) + Leb128.weight (mid.drop n.toNat) := by
    rw [← Leb128.weight_append, List.take_append_drop]
  have := Leb128.weight_encode_add_le hv
  simp only [writeData, excess, hlen, writeRawVarint32, UInt32.toNat_ofNat', Leb128.weight_append]
  omega

lemma map_order_perm {order : List Bytes} {d : Dict} (hnd : order.Nodup) (hmem : ∀ k, k ∈ order ↔ k ∈ d) :
    (order.map fun k => (k, d[k]?.getD [])).Perm d.toList := by
  have hkeys : order.Perm d.keys :=
    (List.perm_ext_iff_of_nodup hnd d.nodup_keys).2 fun k => (hmem k).trans ExtTreeMap.mem_keys.symm
  have hlist : d.keys.map (fun k => (k, d[k]?.getD [])) = d.toList := by
    rw [← ExtTreeMap.map_fst_toList_eq_keys, List.map_map]
    refine (List.map_congr_left fun p hp => ?_).trans (List.map_id _)
    have : d[p.1]? = some p.2 := ExtTreeMap.mem_toList_iff_getElem?_eq_some.1 hp
    simp [this]
  exact hlist ▸ hkeys.map _

lemma weight_pairs {order : List Bytes} {d : Dict} (hnd : order.Nodup) (hmem : ∀ k, k ∈ order ↔ k ∈ d) :
    Leb128.weight (order.flatMap fun k => pairBytes k (d[k]?.getD [])) =
      OrdMap.weight (entrySize fun b => Leb128.weight (writeData b)) d := by
  have hlog : ∀ l : List Bytes, Leb128.weight (l.flatMap fun k => pairBytes k (d[k]?.getD [])) =
      ((l.map fun k => (k, d[k]?.getD [])).map (entrySize fun b => Leb128.weight (writeData b))).sum := by
    intro l
    induction l with
    | nil => rfl
    | cons k l ih =>
      rw [List.flatMap_cons, Leb128.weight_append, ih, pairBytes, Leb128.weight_append]
      rfl
  rw [hlog, OrdMap.weight]
  exact ((map_order_perm hnd hmem).map _).sum_eq

/-- **What `encodeRegion` writes, `parseDict` reads, if and only if every key and value is shorter than 4 GiB**, in
whatever order the keys are written. -/
theorem parseDict_encodeRegion_iff {order : List Bytes} {d : Dict} (hwf : WF d) (hnd : order.Nodup)
    (hmem : ∀ k, k ∈ order ↔ k ∈ d) :
    parseDict (encodeRegion order d) = .ok d ↔
      ∀ k v : Bytes, d[k]? = some v → k.length < 2 ^ 32 ∧ v.length < 2 ^ 32 := by
  refine ⟨fun h => ?_, parseDict_encodeRegion hwf hnd hmem⟩
  rw [encodeRegion, itemSizeHolderBytes, parseDict_of_varint (readVarint64_varint32 itemSizeHolder _)] at h
  have hle := replay_weight reckoned_weight h
  rw [weight_pairs hnd hmem] at hle
  -- the entries cannot weigh more than the log, so none of them is in excess
  have hsplit : OrdMap.weight (entrySize fun b => Leb128.weight (writeData b) + excess b) d =
      OrdMap.weight (entrySize fun b => Leb128.weight (writeData b)) d + OrdMap.weight (entrySize excess) d := by
    rw [OrdMap.weight, OrdMap.weight, OrdMap.weight, ← List.sum_map_add]
    congr 2
    funext p
    simp only [entrySize]
    omega
  have hempty : OrdMap.weight (entrySize fun b => Leb128.weight (writeData b) + excess b) (∅ : Dict) = 0 := rfl
  have hzero : OrdMap.weight (entrySize excess) d = 0 := by omega
  rw [OrdMap.weight, List.sum_eq_zero_iff] at hzero
  intro k v hkv
  have hexcess := hzero (entrySize excess (k, v))
    (List.mem_map_of_mem (ExtTreeMap.mem_toList_iff_getElem?_eq_some.2 hkv))
  simp only [entrySize, excess, Nat.add_eq_zero_iff, ite_eq_left_iff, Nat.one_ne_zero, imp_false, not_not] at hexcess
  exact hexcess

/-- **Log replay is compositional.**  A pair with a key that is not empty and a value below 4 GiB, appended to any region
that `parseDict` accepts, binds the key to the value, or removes it if the value is empty, if and only if the key is below
4 GiB too; and the region that `encodeRegion` writes for a map is parsed back as that map, in any order of its keys, if and
only if all its keys and values are.  The length of a key is an `int`. -/
theorem replay_compositional (key val : Bytes) (order : List Bytes) (dict : Dict) :
    (key ≠ [] → key.length < 2 ^ 63 → val.length < 2 ^ 32 →
      ((∀ r d, r ≠ [] → parseDict r = .ok d → parseDict (r ++ writeData key ++ writeData val) =
          .ok (if val = [] then d.erase key else d.insert key val)) ↔ key.length < 2 ^ 32)) ∧
    (WF dict → order.Nodup → (∀ k, k ∈ order ↔ k ∈ dict) →
      (parseDict (encodeRegion order dict) = .ok dict ↔
        ∀ k v : Bytes, dict[k]? = some v → k.length < 2 ^ 32 ∧ v.length < 2 ^ 32)) :=
  ⟨parseDict_append_iff, parseDict_encodeRegion_iff⟩

lemma mem_singleton_iff (key val k : Bytes) : k ∈ [key] ↔ k ∈ (∅ : Dict).insert key val := by
  rw [List.mem_singleton, ExtTreeMap.mem_insert, LawfulEqCmp.compare_eq_iff_eq]
  simp [eq_comm]

/-- A region that another writer began with a varint longer than needed and a skipped key, with a pair after it; and the
region of a map of one key. -/
theorem replay_compositional_one :
    parseDict ([0x81, 0x00, 0x00] ++ writeData [97] ++ writeData [1]) = .ok ((∅ : Dict).insert [97] [1]) ∧
      parseDict (encodeRegion [[97]] ((∅ : Dict).insert [97] [1])) = .ok ((∅ : Dict).insert [97] [1]) := by
  obtain ⟨happend, hencode⟩ := replay_compositional [97] [1] [[97]] ((∅ : Dict).insert [97] [1])
  refine ⟨?_, ?_⟩
  · exact (happend (by simp) (by simp) (by simp)).2 (by simp) [0x81, 0x00, 0x00] ∅ (by simp) (by decide)
  · refine (hencode (wf_empty.insert (by simp) (by simp)) (by simp) (mem_singleton_iff _ _)).2 ?_
    intro k v hkv
    simp only [ExtTreeMap.getElem?_insert, LawfulEqCmp.compare_eq_iff_eq] at hkv
    split at hkv
    · next hk =>
      cases hkv
      simp [← hk]
    · simp at hkv

lemma long_value_not_replayed {val : Bytes} (hlong : 2 ^ 32 ≤ val.length) :
    let d : Dict := (∅ : Dict).insert [97] val
    WF d ∧ [([97] : Bytes)].Nodup ∧ (∀ k : Bytes, k ∈ [([97] : Bytes)] ↔ k ∈ d) ∧
      parseDict (encodeRegion [[97]] d) ≠ .ok d := by
  have hne : val ≠ [] := by
    rintro rfl
    simp at hlong
  have hwf : WF ((∅ : Dict).insert [97] val) := wf_empty.insert (by simp) hne
  refine ⟨hwf, List.nodup_singleton _, mem_singleton_iff _ _, fun h => ?_⟩
  have := ((parseDict_encodeRegion_iff hwf (List.nodup_singleton _) (mem_singleton_iff _ _)).1 h [97] val
    ExtTreeMap.getElem?_insert_self).2
  omega

/-- The map of one value of 4 GiB is not what its region is parsed to. -/
theorem four_gib_not_replayed :
    let d : Dict := (∅ : Dict).insert [97] (List.replicate (2 ^ 32) 0)
    WF d ∧ [([97] : Bytes)].Nodup ∧ (∀ k : Bytes, k ∈ [([97] : Bytes)] ↔ k ∈ d) ∧
      parseDict (encodeRegion [[97]] d) ≠ .ok d :=
  long_value_not_replayed List.length_replicate.ge

end MmkvGo.Wire
