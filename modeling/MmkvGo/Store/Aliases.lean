import MmkvGo.Store.Refine
import MmkvGo.Store.Views

/-!
The instance whose dict is made of slices against the one whose dict is made of bytes.  `Points` says that every slice
shows the value of its key and lies in the region, in the mapping that the instance has.  Each path keeps it: an append
stores behind the region, an override leaves one key, and whatever else changes bytes of the region or replaces the
mapping builds the dict anew.  So a call on the slices is the call on the map (`Probed.exec`), and over every run of
one process no slice is read that is gone, and nothing that was overwritten is taken for a value.
-/

namespace MmkvGo.Store

open MmkvGo.Lib MmkvGo.Wire MmkvGo.Crypt Std

/-! ### What slices show -/

/-- The slice shows `val`; one of the mapping is a slice of the mapping that there is, and ends at `hi` at the latest. -/
def Slice.Shows (mapping : ℕ) (mem : Bytes) (hi : ℕ) : Slice → Bytes → Prop
  | .heap bytes, val => bytes = val
  | .mapped n off len, val => n = mapping ∧ off + len ≤ hi ∧ slice mem off (off + len) = val

/-- Every slice of the dict shows the value of its key, and those of the mapping lie in the region. -/
def Points (d : Disk) (m : MMKV) (v : Views) : Prop :=
  OrdMap.Related (Slice.Shows v.mapping d.data (4 + m.actualSize.toNat)) v.slices m.dict

section Shows

variable {mapping hi : ℕ} {mem : Bytes}

lemma Slice.Shows.read {s : Slice} {val : Bytes} (h : s.Shows mapping mem hi val) (hmem : hi ≤ mem.length) :
    s.read mapping mem = some val := by
  cases s with
  | heap bytes => exact congrArg some h
  | mapped n off len =>
    obtain ⟨hn, hlen, hval⟩ := h
    rw [Slice.read, if_pos ⟨hn, by omega⟩, hval]

lemma Slice.Shows.patch {s : Slice} {val : Bytes} {off hi' : ℕ} (h : s.Shows mapping mem hi val) (pair : Bytes)
    (hoff : hi ≤ off) (hhi : hi ≤ hi') : s.Shows mapping (patch mem off pair) hi' val := by
  cases s with
  | heap bytes => exact h
  | mapped n o len =>
    obtain ⟨hn, hlen, hval⟩ := h
    exact ⟨hn, by omega, by rw [slice_patch_of_le pair (by omega), hval]⟩

lemma Slice.Shows.part {buf : Slice} {plain val : Bytes} {span : Span} (h : buf.Shows mapping mem hi plain)
    (hspan : span.Shows plain val) : (buf.part span).Shows mapping mem hi val := by
  obtain ⟨hle, hval⟩ := hspan
  cases buf with
  | heap bytes =>
    cases h
    exact hval
  | mapped n off len =>
    obtain ⟨hn, hlen, rfl⟩ := h
    have hshort := length_slice_le mem off (off + len)
    refine ⟨hn, by omega, ?_⟩
    rw [← hval, slice_slice (by omega), Nat.add_assoc]

/-- **What `parseDict` makes of a buffer** shows the map that it holds. -/
theorem slicesOf_shows {buf : Slice} {plain : Bytes} {dict : Dict} (h : buf.Shows mapping mem hi plain)
    (hparse : parseDict plain = .ok dict) :
    ∃ slices, slicesOf buf plain = .ok slices ∧ OrdMap.Related (Slice.Shows mapping mem hi) slices dict := by
  obtain ⟨spans, hspans, hshows⟩ := parseSpans_shows hparse
  refine ⟨spans.map fun _ span => buf.part span, by rw [slicesOf, hspans]; rfl, ?_⟩
  exact hshows.map fun _ _ hspan => h.part hspan

lemma slicesOfGreedy_shows {buf : Slice} {plain : Bytes} (h : buf.Shows mapping mem hi plain) :
    OrdMap.Related (Slice.Shows mapping mem hi) (slicesOfGreedy buf plain) (parseDictGreedy plain) :=
  (parseSpansGreedy_shows plain).map fun _ _ hspan => h.part hspan

end Shows

lemma Synced.region_le {d : Disk} {m : MMKV} (h : Synced d m) : 4 + m.actualSize.toNat ≤ d.data.length := by
  rw [h.actualSize]
  exact h.image.fits

lemma Points.sees {d : Disk} {m : MMKV} {v : Views} (h : Points d m v) (hs : Synced d m.writable) :
    (⟨m, v⟩ : Aliased).sees d = some m := by
  have hread : v.resolve (m.data.memory d) = some m.dict := by
    rw [show m.data = _ from hs.data, MemoryFile.memory_whole]
    exact OrdMap.Related.readAll_eq h fun s val hshows => hshows.read hs.region_le
  rw [Aliased.sees, hread]
  rfl

/-! ### Loading -/

section Load

variable {d : Disk} {m : MMKV} {mi : MetaInfo} {dict : Dict} {n : ℕ} {sys : Sys}

lemma Views.decodeRegion_points {actual : UInt32} (v : Views) (hregion : m.region d actual = d.region actual)
    (hdec : parseDict (plainOf m.crypt m.info.iv (d.region actual)) = .ok dict) :
    (v.decodeRegion d m actual).mapping = v.mapping ∧
      OrdMap.Related (Slice.Shows v.mapping d.data (4 + actual.toNat)) (v.decodeRegion d m actual).slices dict := by
  have hbuf : (v.plainBuffer m actual (plainOf m.crypt m.info.iv (d.region actual))).Shows v.mapping d.data
      (4 + actual.toNat) (plainOf m.crypt m.info.iv (d.region actual)) := by
    rw [Views.plainBuffer]
    cases m.crypt with
    | none => exact ⟨rfl, le_rfl, rfl⟩
    | some E => rfl
  obtain ⟨slices, hslices, hshows⟩ := slicesOf_shows hbuf hdec
  have heq : v.decodeRegion d m actual = { v with slices := slices } := by
    rw [Views.decodeRegion, MMKV.plain_eq, hregion]
    simp only [hslices]
  rw [heq]
  exact ⟨rfl, hshows⟩

lemma Views.decodeRegion_error {actual : UInt32} {e : Err} (v : Views) (hregion : m.region d actual = d.region actual)
    (hdec : parseDict (plainOf m.crypt m.info.iv (d.region actual)) = .error e) : v.decodeRegion d m actual = v := by
  rw [Views.decodeRegion, MMKV.plain_eq, hregion]
  simp only [slicesOf, parseSpans_error hdec]
  rfl

lemma Views.loadData_of_intact (v : Views) (h : Intact d mi) (hdata : m.data = ⟨n, true⟩)
    (hn : 4 + (d.actualSize mi).toNat ≤ n) : v.loadData d m = v.decodeRegion d (m.underMeta mi) (d.actualSize mi) := by
  have hver : ¬ maxSupportedVersion < mi.version := UInt32.not_lt.2 h.supported
  have hactual : (m.underMeta mi).readActualSize d = d.actualSize mi := MMKV.readActualSize_of_intact h hdata hn
  have haccepts : (m.underMeta mi).accepts d (d.actualSize mi) mi.crcDigest = true :=
    (MMKV.accepts_iff hdata h.bounded).2 ⟨hn, h.crc⟩
  rw [Views.loadData, h.parse]
  simp only [if_neg hver, ← expiresOf.eq_1]
  rw [MMKV.underMeta] at hactual haccepts ⊢
  rw [Views.loadRegion]
  simp only [hactual, haccepts, if_true]

lemma Views.loadData_of_readable (v : Views) (h : Readable d mi) (hdata : m.data = ⟨n, true⟩)
    (hn : 4 + mi.actualSize.toNat ≤ n) : v.loadData d m = v.decodeRegion d (m.withMeta mi) mi.actualSize := by
  have hsize := h.current.actualSize_eq
  have hload := v.loadData_of_intact (m := m) h.intact hdata (by rw [hsize]; exact hn)
  rw [hsize, MMKV.underMeta, expiresOf, h.current.expire_eq] at hload
  exact hload

theorem Views.loadData_points (v : Views) (h : Image m.crypt d mi dict) (hdata : m.data = ⟨n, true⟩)
    (hn : 4 + mi.actualSize.toNat ≤ n) : Points d (m.loaded mi dict) (v.loadData d m) := by
  have hbounded := h.readable.bounded
  obtain ⟨hmapping, hshows⟩ := v.decodeRegion_points (m := m.withMeta mi) (MMKV.region_eq hdata hn hbounded) h.decoded
  rw [v.loadData_of_readable h.readable hdata hn, Points, hmapping]
  exact hshows

lemma Views.reload_points (v : Views) (h : Image m.crypt d mi dict) (hsys : sys.remap = none) :
    Points d ((m.remapped d.data.length).loaded mi dict) (v.reloadBestEffort sys d m true) := by
  rw [Views.reloadBestEffort, if_pos rfl]
  simp only [hsys, MemoryFile.remap_ok]
  exact Views.loadData_points _ (m := m.remapped d.data.length) h rfl h.fits

end Load

/-! ### The write paths -/

section Writes

variable {P : Platform} {sys : Sys} {d : Disk} {m : MMKV} {v : Views}

/-- The buffer that a full write-back parses: the region as the mapping `mapping` shows it, or as it was before it was
encrypted. -/
def regionBuffer (m : MMKV) (mapping : ℕ) : Slice :=
  if m.crypt.isNone then .mapped mapping 4 (regionOf m.dict).length else .heap (regionOf m.dict)

/-- **A full write-back, step by step**: whatever the slices were, they are made anew from the region. -/
lemma Views.fullWritebackGrow_eq (v : Views) (hdata : m.data = ⟨d.data.length, true⟩) (hsys : sys.OK)
    (needSync : Bool) (incoming : ℕ) {slices : ℕ → ExtTreeMap Bytes Slice}
    (hslices : ∀ mapping, slicesOf (regionBuffer m mapping) (regionOf m.dict) = .ok (slices mapping)) :
    ∃ mapping, v.fullWritebackGrow P sys d m needSync incoming = ⟨slices mapping, mapping⟩ := by
  have hpay := MMKV.payload_ok m hsys
  have hlen := m.length_stored sys
  have hplain := plainOf_cipherOf m.crypt (m.nextIV sys) (regionOf m.dict)
  rw [← MMKV.stored] at hplain
  generalize m.stored sys = ct at hpay hlen hplain
  have hroom := MMKV.lt_grownSize (P := P) (m := m) (4 + ct.length + incoming) needSync incoming
  have hgrow := MMKV.grow_ok (P := P) hdata hsys (4 + ct.length + incoming) needSync incoming
  generalize m.grownSize P (4 + ct.length + incoming) needSync incoming = size at hgrow hroom
  have hmem : slice ((⟨size, true⟩ : MemoryFile).memory (d.apply (MMKV.regionWrites d.data.length size ct))) 4
      (4 + ct.length) = ct := by
    rw [MMKV.apply_regionWrites, MemoryFile.memory, if_pos rfl, slice_take (show 4 + ct.length ≤ size by omega)]
    exact MMKV.slice_rewritten (by omega)
  rw [MMKV.regionWrites] at hmem
  -- what the code parses is the region, with a key and without one
  have hsrc : (if m.crypt.isNone then ct else regionOf m.dict) = regionOf m.dict := by
    cases hc : m.crypt with
    | none =>
      rw [hc] at hplain
      exact hplain
    | some E => rfl
  refine ⟨(v.moved m.data ⟨size, true⟩).mapping, ?_⟩
  have hbuf := hslices (v.moved m.data ⟨size, true⟩).mapping
  rw [regionBuffer] at hbuf
  simp only [Views.fullWritebackGrow, hpay, hgrow]
  simp only [← hlen, hmem, hsrc] at hbuf ⊢
  simp only [hbuf]

/-- **A full write-back** leaves slices that show its map. -/
theorem Views.fullWritebackGrow_points (v : Views) (hdata : m.data = ⟨d.data.length, true⟩)
    (hcrc : metaSize ≤ d.crc.length) (hwf : WF m.dict) (hsys : sys.OK) (hlt : 4 + (regionOf m.dict).length < 2 ^ 32)
    (needSync : Bool) (incoming : ℕ) :
    Points (d.apply (m.fullWritebackGrow P sys d needSync incoming).writes)
      (m.fullWritebackGrow P sys d needSync incoming).m (v.fullWritebackGrow P sys d m needSync incoming) := by
  obtain ⟨-, hm, -⟩ := MMKV.fullWritebackGrow_decoded (P := P) hdata hcrc hwf hsys hlt needSync incoming
  obtain ⟨-, hregion, -, -⟩ := MMKV.fullWritebackGrow_sealed (P := P) hdata hcrc hsys hlt needSync incoming
  have hlen : (regionOf m.dict).length < 2 ^ 32 := by omega
  have hparse : parseDict (regionOf m.dict) = .ok m.dict := parseDict_regionOf hwf hlen
  generalize hd : d.apply (m.fullWritebackGrow P sys d needSync incoming).writes = d' at hm hregion ⊢
  have hactual : (m.fullWritebackGrow P sys d needSync incoming).m.actualSize = UInt32.ofNat (m.stored sys).length := by
    rw [hm]
    rfl
  have hsize : (UInt32.ofNat (m.stored sys).length).toNat = (regionOf m.dict).length := by
    rw [MMKV.length_stored, toNat_ofNat32 hlen]
  have hbuf : ∀ mapping, (regionBuffer m mapping).Shows mapping d'.data (4 + (regionOf m.dict).length)
      (regionOf m.dict) := by
    intro mapping
    change slice d'.data 4 (4 + (UInt32.ofNat (m.stored sys).length).toNat) = m.stored sys at hregion
    rw [hsize, MMKV.stored] at hregion
    rw [regionBuffer]
    cases hc : m.crypt with
    | none =>
      rw [hc] at hregion
      exact ⟨rfl, le_rfl, hregion⟩
    | some E => rfl
  choose slices hslices hshows using fun mapping => slicesOf_shows (hbuf mapping) hparse
  obtain ⟨mapping, heq⟩ := v.fullWritebackGrow_eq (P := P) hdata hsys needSync incoming hslices
  have hdict : (m.fullWritebackGrow P sys d needSync incoming).m.dict = m.dict := by
    rw [hm]
    rfl
  rw [Points, heq, hactual, hsize, hdict]
  exact hshows mapping

lemma Views.writeback_points {m' : MMKV} {needSync : Bool} {incoming : ℕ} (v : Views) (h : Synced d m)
    (hdata : m'.data = m.data) (hwf : WF m'.dict) (hsys : sys.OK) (hlt : 4 + (regionOf m'.dict).length < 2 ^ 32) :
    Points (d.apply (m'.fullWritebackGrow P sys d needSync incoming).writes)
      (m'.fullWritebackGrow P sys d needSync incoming).m (v.fullWritebackGrow P sys d m' needSync incoming) :=
  v.fullWritebackGrow_points (hdata.trans h.data) h.image.metaSize_le hwf hsys hlt needSync incoming

lemma length_le_pairBytes (key blob : Bytes) : blob.length ≤ (pairBytes key blob).length := by
  simp only [pairBytes, writeData, List.length_append]
  omega

lemma append_data {pair : Bytes} (h : Synced d m) (hlt : 4 + (m.plainRegion d ++ pair).length < 2 ^ 32) :
    (d.apply (m.appendRaw pair).1).data = patch d.data (4 + m.actualSize.toNat) pair ∧
      (m.appendedInfo pair).actualSize.toNat = m.actualSize.toNat + pair.length := by
  rw [List.length_append, h.steady.length_plainRegion, ← h.actualSize] at hlt
  refine ⟨by rw [MMKV.apply_appendRaw], ?_⟩
  rw [MMKV.appendedInfo, UInt32.toNat_add, toNat_ofNat32 (by omega)]
  exact Nat.mod_eq_of_lt (by omega)

/-- **An append** stores behind the region: every slice of it shows what it showed, and one of the pair its value. -/
lemma Points.append {key blob : Bytes} (hp : Points d m v) (h : Synced d m)
    (hroom : 4 + m.actualSize.toNat + (pairBytes key blob).length ≤ d.data.length)
    (hlt : 4 + (m.plainRegion d ++ pairBytes key blob).length < 2 ^ 32) :
    OrdMap.Related (Slice.Shows v.mapping (d.apply (m.appendRaw (pairBytes key blob)).1).data
        (4 + (m.appendedInfo (pairBytes key blob)).actualSize.toNat)) v.slices m.dict ∧
      (Slice.mapped v.mapping (4 + m.actualSize.toNat + ((pairBytes key blob).length - blob.length))
          blob.length).Shows v.mapping (d.apply (m.appendRaw (pairBytes key blob)).1).data
        (4 + (m.appendedInfo (pairBytes key blob)).actualSize.toNat) blob := by
  obtain ⟨hdata, hsize⟩ := append_data h hlt
  have hblob := length_le_pairBytes key blob
  rw [hdata, hsize]
  refine ⟨OrdMap.Related.mono hp fun s val hs => hs.patch _ le_rfl (by omega), rfl, by omega, ?_⟩
  exact MMKV.slice_patch_pair hroom

/-- **An override** rewrites the region from its start, under the slices of a dict that has no other key. -/
lemma Points.override {key blob : Bytes} (hp : Points d m v) (h : Synced d m)
    (hover : m.overrides key (pairBytes key blob) = true)
    (hlt : 4 + (itemSizeHolderBytes ++ pairBytes key blob).length < 2 ^ 32) :
    Points (d.apply (m.setBlob P sys d key blob).writes) (m.setBlob P sys d key blob).m
      (v.assign key (.mapped v.mapping (4 + itemSizeHolderBytes.length + ((pairBytes key blob).length - blob.length))
        blob.length)) := by
  obtain ⟨-, -, -, hroom, honly⟩ := MMKV.overrides_of_steady h.steady hover
  have hblob := length_le_pairBytes key blob
  -- the override stores over every byte that a slice may show, so no other key may have one
  have hother : ∀ k, k ≠ key → m.dict[k]? = none := by
    intro k hk
    rcases honly with ⟨hc, h1⟩ | ⟨he, -⟩
    · have hone := congrArg (fun t : Dict => t[k]?) (OrdMap.insert_of_size_eq_one hc h1 blob)
      simpa [ExtTreeMap.getElem?_insert, LawfulEqCmp.compare_eq_iff_eq, hk.symm] using hone
    · rw [ExtTreeMap.isEmpty_iff.1 he, ExtTreeMap.getElem?_empty]
  have hdata : (d.apply (m.setBlob P sys d key blob).writes).data =
      patch (patch d.data 4 itemSizeHolderBytes) (4 + itemSizeHolderBytes.length) (pairBytes key blob) := by
    rw [MMKV.setBlob_of_overrides h.steady hover hlt, Disk.apply_append, Disk.apply_dataWrites, MMKV.apply_metaWords,
      patch_append]
  have hm : (m.setBlob P sys d key blob).m =
      m.inPlace (m.overriddenInfo (pairBytes key blob)) (m.dict.insert key blob) := by
    rw [MMKV.setBlob_of_overrides h.steady hover hlt]
  have hsize : (m.overriddenInfo (pairBytes key blob)).actualSize.toNat =
      itemSizeHolderBytes.length + (pairBytes key blob).length := by
    rw [List.length_append] at hlt
    exact toNat_ofNat32 (by omega)
  rw [Points, hdata, hm]
  intro k
  simp only [Views.assign, MMKV.inPlace, hsize]
  rw [ExtTreeMap.getElem?_insert, ExtTreeMap.getElem?_insert]
  by_cases hk : k = key
  · rw [if_pos (LawfulEqCmp.compare_eq_iff_eq.2 hk.symm), if_pos (LawfulEqCmp.compare_eq_iff_eq.2 hk.symm)]
    refine .some ⟨rfl, by omega, ?_⟩
    exact MMKV.slice_patch_pair (by rw [length_patch]; exact hroom)
  · have hne : ¬ compare key k = .eq := fun he => hk (LawfulEqCmp.compare_eq_iff_eq.1 he).symm
    rw [if_neg hne, if_neg hne, hother k hk]
    have hslot := hp k
    rw [hother k hk] at hslot
    generalize v.slices[k]? = o at hslot ⊢
    cases hslot
    exact .none

theorem Points.setBlob {key blob : Bytes} (hp : Points d m v) (h : Synced d m) (hsys : sys.OK) (hk : key ≠ [])
    (hne : blob ≠ []) (hlt : 4 + (m.regionAfterSet d key blob).length < 2 ^ 32) :
    Points (d.apply (m.setBlob P sys d key blob).writes) (m.setBlob P sys d key blob).m
      (v.setBlob P sys d m key blob) := by
  rw [MMKV.regionAfterSet] at hlt
  rw [Views.setBlob]
  by_cases hover : m.overrides key (pairBytes key blob) = true
  · rw [if_pos hover] at hlt ⊢
    exact hp.override h hover hlt
  have hover' : m.overrides key (pairBytes key blob) = false := by simpa using hover
  rw [if_neg hover] at hlt ⊢
  by_cases happend : m.appends (pairBytes key blob) = true
  · rw [if_pos happend] at hlt
    rw [if_pos happend, MMKV.setBlob_of_appends h.data hover' happend]
    obtain ⟨hold, hnew⟩ := hp.append h (MMKV.room_of_appends h.data happend) hlt
    exact hold.insert hnew key
  · have happend' : m.appends (pairBytes key blob) = false := by simpa using happend
    rw [if_neg happend] at hlt
    rw [if_neg happend, MMKV.setBlob_of_neither hover' happend']
    exact Views.writeback_points _ h rfl (h.image.wf.insert hk hne) hsys hlt

theorem Points.setValueLocked {key blob : Bytes} (hp : Points d m v) (h : Synced d m) (hsys : sys.OK) (hk : key ≠ [])
    (hne : blob ≠ []) (hlt : 4 + (m.regionAfterPut sys d key blob).length < 2 ^ 32) :
    Points (d.apply (m.setValueLocked P sys d key blob).writes) (m.setValueLocked P sys d key blob).m
      (v.setValueLocked P sys d m key blob) := by
  rw [MMKV.regionAfterPut] at hlt
  rw [Views.setValueLocked, MMKV.setValueLocked]
  split
  · exact hp
  · next hskip =>
    rw [if_neg hskip] at hlt
    refine hp.setBlob h hsys hk ?_ hlt
    split
    · rw [← List.length_pos_iff, length_appendExpire]
      omega
    · exact hne

theorem Points.removeValueForKey {key : Bytes} (hp : Points d m v) (h : Synced d m) (hsys : sys.OK)
    (hlt : 4 + ((Op.removeValueForKey key).regionAfter sys d m).length < 2 ^ 32) :
    Points (d.apply (m.removeValueForKey P sys d key).writes) (m.removeValueForKey P sys d key).m
      (v.removeValueForKey P sys d m key) := by
  rw [Op.regionAfter] at hlt
  rw [Views.removeValueForKey, MMKV.removeValueForKey]
  cases hc : m.dict.contains key with
  | false => exact hp
  | true =>
    simp only [hc, Bool.not_true, Bool.false_eq_true, if_false] at hlt ⊢
    by_cases htomb : ({ m with dict := m.dict.erase key } : MMKV).appendsTombstone (pairBytes key []) = true
    · simp only [htomb, if_true] at hlt ⊢
      obtain ⟨hfit, -⟩ := MMKV.of_appendsTombstone htomb
      have hroom : 4 + m.actualSize.toNat + (pairBytes key []).length ≤ d.data.length :=
        MMKV.room_of_fitsTail h.data hfit
      obtain ⟨hold, -⟩ := hp.append h hroom hlt
      exact hold.erase key
    · simp only [htomb, Bool.false_eq_true, if_false] at hlt ⊢
      exact Views.writeback_points _ h rfl (h.image.wf.erase key) hsys hlt

theorem Points.removeValuesForKeys {keys : List Bytes} (hp : Points d m v) (h : Synced d m) (hsys : sys.OK)
    (hlt : 4 + ((Op.removeValuesForKeys keys).regionAfter sys d m).length < 2 ^ 32) :
    Points (d.apply (m.removeValuesForKeys P sys d keys).writes) (m.removeValuesForKeys P sys d keys).m
      (v.removeValuesForKeys P sys d m keys) := by
  rw [Op.regionAfter] at hlt
  rw [Views.removeValuesForKeys, MMKV.removeValuesForKeys]
  split
  · exact hp
  · next hall =>
    rw [if_neg hall] at hlt
    exact Views.writeback_points _ h rfl (h.image.wf.foldl_erase keys) hsys hlt

theorem points_clearAllLocked (h : Synced d m) (hsys : sys.OK) :
    Points (d.apply (m.clearAllLocked P sys).writes) (m.clearAllLocked P sys).m (v.clearAllLocked P sys m) := by
  obtain ⟨mi, hr⟩ := MMKV.clearAllLocked_spec (P := P) h.data h.image.metaSize_le hsys
  have hslices : (v.clearAllLocked P sys m).slices = ∅ := by
    simp only [Views.clearAllLocked, h.data, hsys.grow, MemoryFile.truncate_ok]
  rw [Points, hslices, hr.instance_eq]
  exact OrdMap.related_empty

/-- The shrink of `Trim`: the dict is decoded again where the mapping is replaced. -/
lemma Points.shrink (hp : Points d m v) (h : Synced d m) (hsys : sys.OK) :
    Points (d.apply (m.shrink P sys d).writes) (m.shrink P sys d).m (v.shrink P sys d m) := by
  have hact := h.actualSize
  have hroom := le_shrunkSize P h.image.fits
  rw [← hact] at hroom
  have hbounded : 4 + m.actualSize.toNat < 2 ^ 32 := by
    rw [hact]
    exact h.image.readable.bounded
  have hdec := h.image.decoded
  rw [← hact] at hdec
  have hin := h.region_le
  have heq := MMKV.shrink_eq (P := P) h.data hin hbounded hdec hsys
  have hsize : m.data.size = d.data.length := by rw [h.data]
  rw [heq, Views.shrink, hsize]
  rw [shrunkSize] at hroom ⊢
  by_cases hle : d.data.length ≤ trimTarget P d.data.length m.actualSize
  · simp only [if_pos hle]
    rw [resizeWrites, if_pos rfl, MMKV.remapped_self h.data]
    exact hp
  · simp only [if_neg hle, h.data, hsys.shrink, MemoryFile.truncate_ok] at hroom ⊢
    -- the file is cut and mapped again, and the region decoded from the new mapping
    generalize pageRoundUp P (trimTarget P d.data.length m.actualSize) = n at hroom ⊢
    have hsame : (d.apply (resizeWrites d.data.length n)).region m.actualSize = d.region m.actualSize := by
      rw [Disk.apply_resizeWrites]
      exact slice_resize hroom hin
    generalize (v.moved ⟨d.data.length, true⟩ ⟨n, true⟩) = v'
    rw [← hsame] at hdec
    obtain ⟨hmapping, hshows⟩ :=
      v'.decodeRegion_points (m := m.remapped n) (MMKV.region_eq rfl hroom hbounded) hdec
    rw [MMKV.remapped] at hmapping hshows
    rw [Points, hmapping]
    exact hshows

theorem points_trim (h : Synced d m) (hsys : sys.OK) (hlt : 4 + (Op.trim.regionAfter sys d m).length < 2 ^ 32) :
    Points (d.apply (m.trim P sys d).writes) (m.trim P sys d).m (v.trim P sys d m) := by
  rw [Views.trim]
  by_cases h0 : m.actualSize = 0
  · rw [MMKV.trim, if_pos h0, if_pos h0]
    exact points_clearAllLocked h hsys
  · rw [Op.regionAfter, if_neg h0] at hlt
    obtain ⟨mi, hr⟩ := MMKV.fullWritebackGrow_spec (P := P) h.data h.image.metaSize_le h.image.wf h.image.stamped hsys hlt
      true 0
    change m.Rewritten P d mi m.dict (m.fullWriteback P sys d) at hr
    have hpoints : Points (d.apply (m.fullWriteback P sys d).writes) (m.fullWriteback P sys d).m
        (v.fullWriteback P sys d m) := Views.writeback_points v h rfl h.image.wf hsys hlt
    have hsynced := hr.synced h.enableExpire h.needLoad h.closed h.readOnly
    rw [MMKV.trim, if_neg h0, if_neg h0]
    simp only [hr.err]
    rw [Disk.apply_append]
    exact hpoints.shrink hsynced hsys

theorem points_reKey {newKey : Bytes} (h : Synced d m) (hsys : sys.OK)
    (hlt : 4 + ((Op.reKey newKey).regionAfter sys d m).length < 2 ^ 32) :
    Points (d.apply (m.reKey P sys d newKey).writes) (m.reKey P sys d newKey).m (v.reKey P sys d m newKey) := by
  rw [Views.reKey]
  simp only [MMKV.reKey]
  generalize (if newKey = [] then none else some (newAESCFB P.aes newKey)) = crypt
  obtain ⟨mi, hr⟩ := MMKV.fullWritebackGrow_spec (P := P) (m := { m with crypt := crypt }) h.data h.image.metaSize_le
    h.image.wf h.image.stamped hsys hlt true 0
  have herr : (({ m with crypt := crypt } : MMKV).fullWriteback P sys d).err = none := hr.err
  simp only [herr]
  exact Views.writeback_points v h rfl h.image.wf hsys hlt

theorem points_enableAutoKeyExpire {seconds : UInt32} (h : Synced d m) (hsys : sys.OK)
    (hlt : 4 + ((Op.enableAutoKeyExpire seconds).regionAfter sys d m).length < 2 ^ 32) :
    Points (d.apply (m.enableAutoKeyExpire P sys d seconds).writes) (m.enableAutoKeyExpire P sys d seconds).m
      (v.enableAutoKeyExpire P sys d m seconds) :=
  Views.writeback_points _ h rfl (MMKV.wf_withExpire h.image.wf h.image.stamped h.enableExpire seconds) hsys hlt

theorem Points.disableAutoKeyExpire (hp : Points d m v) (h : Synced d m) (hsys : sys.OK)
    (hlt : 4 + (Op.disableAutoKeyExpire.regionAfter sys d m).length < 2 ^ 32) :
    Points (d.apply (m.disableAutoKeyExpire P sys d).writes) (m.disableAutoKeyExpire P sys d).m
      (v.disableAutoKeyExpire P sys d m) := by
  rw [Op.regionAfter] at hlt
  rw [Views.disableAutoKeyExpire, MMKV.disableAutoKeyExpire]
  cases he : m.enableExpire with
  | false => exact hp
  | true =>
    simp only [he, Bool.not_true, Bool.false_eq_true, if_false] at hlt ⊢
    exact Views.writeback_points _ h rfl (MMKV.wf_withoutExpire h.image.wf h.image.stamped h.enableExpire he) hsys hlt

end Writes

/-! ### One call -/

/-- What the probe makes of the instance `a`: one that agrees with its files as `m` does, with slices that show the dict
of `m`. -/
structure Probed (sys : Sys) (d : Disk) (a : Aliased) (m : MMKV) : Prop where
  synced : Synced d m.writable
  closed : a.m.closed = false
  readOnly : a.m.readOnly = m.readOnly
  record : a.m.checkLoadData d sys = m
  points : Points d m (a.v.checkLoadData sys d a.m)

section Call

variable {P : Platform} {sys : Sys} {d : Disk} {m : MMKV} {a : Aliased}

lemma Probed.sees (h : Probed sys d a m) : (a.checkLoadData sys d).sees d = some m := by
  have hsees := h.points.sees h.synced
  rw [Aliased.checkLoadData, h.record]
  exact hsees

/-- **A getter on the slices** is the getter on the map. -/
theorem Probed.get {α : Type} (h : Probed sys d a m) (getter : View → α) (zero : α) :
    a.get sys d getter zero = some (a.checkLoadData sys d, (a.m.get sys d getter zero).2) := by
  rw [Aliased.get, MMKV.get, h.closed, if_neg (by decide), if_neg (by decide), h.sees, h.record]
  rfl

/-- **A mutation on the slices** is the mutation on the map, and keeps what its `after` keeps. -/
lemma Probed.mutate {body : MMKV → Result} {after : MMKV → Views → Views} (h : Probed sys d a m) (hs : Synced d m)
    (hpoints : ∀ v, Points d m v → Points (d.apply (body m).writes) (body m).m (after m v)) :
    a.m.mutate sys d body = m.mutate sys d body ∧
      ∃ v', a.mutate sys d body after = some (m.mutate sys d body, v') ∧
        Points (d.apply (m.mutate sys d body).writes) (m.mutate sys d body).m v' := by
  rw [MMKV.mutate_of_synced hs, MMKV.mutate, Aliased.mutate, h.closed, h.readOnly, hs.readOnly, h.sees, h.record]
  exact ⟨rfl, _, rfl, hpoints _ h.points⟩

/-- **One call on the slices is the call on the map**: nothing is read that is gone, and the slices that it leaves show
the dict that it leaves. -/
theorem Probed.exec {op : Op} (h : Probed sys d a m) (hs : Synced d m) (hsys : sys.OK) (hgood : op.Good m)
    (hlt : 4 + (op.regionAfter sys d m).length < 2 ^ 32) (hsync : op ≠ .sync) (hcache : op ≠ .clearMemoryCache)
    (hon : op ≠ .enableCompareBeforeSet) (hoff : op ≠ .disableCompareBeforeSet) :
    a.m.exec P sys d op = m.exec P sys d op ∧
      ∃ v', a.exec P sys d op = some (m.exec P sys d op, v') ∧
        Points (d.apply (m.exec P sys d op).writes) (m.exec P sys d op).m v' := by
  cases op with
  | set key val =>
    rw [MMKV.exec, MMKV.exec, Aliased.exec]
    exact h.mutate hs fun v hp => hp.setValueLocked hs hsys hgood val.blob_ne_nil hlt
  | removeValueForKey key =>
    rw [MMKV.exec, MMKV.exec, Aliased.exec]
    exact h.mutate hs fun v hp => hp.removeValueForKey hs hsys hlt
  | removeValuesForKeys keys =>
    rw [MMKV.exec, MMKV.exec, Aliased.exec]
    exact h.mutate hs fun v hp => hp.removeValuesForKeys hs hsys hlt
  | clearAll =>
    rw [MMKV.exec, MMKV.exec, Aliased.exec]
    exact h.mutate hs fun v _ => points_clearAllLocked hs hsys
  | trim =>
    rw [MMKV.exec, MMKV.exec, Aliased.exec]
    exact h.mutate hs fun v _ => points_trim hs hsys hlt
  | enableAutoKeyExpire seconds =>
    rw [MMKV.exec, MMKV.exec, Aliased.exec]
    exact h.mutate hs fun v _ => points_enableAutoKeyExpire hs hsys hlt
  | disableAutoKeyExpire =>
    rw [MMKV.exec, MMKV.exec, Aliased.exec]
    exact h.mutate hs fun v hp => hp.disableAutoKeyExpire hs hsys hlt
  | reKey newKey =>
    rw [MMKV.exec, MMKV.exec, Aliased.exec]
    exact h.mutate hs fun v _ => points_reKey hs hsys hlt
  | sync => exact absurd rfl hsync
  | clearMemoryCache => exact absurd rfl hcache
  | enableCompareBeforeSet => exact absurd rfl hon
  | disableCompareBeforeSet => exact absurd rfl hoff

end Call

/-! ### Dropping the memory cache -/

/-- The instance `a` agrees with its files as `m` does, and its slices show the dict of `m`, up to a drop of the memory
cache. -/
structure Aliases (d : Disk) (a : Aliased) (m : MMKV) : Prop where
  synced : Synced d m
  inst : a.m = m ∧ Points d m a.v ∨ a.m = m.clearMemoryCache

section Drop

variable {P : Platform} {sys : Sys} {d : Disk} {m : MMKV} {a : Aliased}

lemma Views.checkLoadData_of_synced (v : Views) (h : Synced d m) : v.checkLoadData sys d m = v := by
  rw [Views.checkLoadData, h.needLoad, if_neg (by decide), h.image.parse]
  simp [h.crcDigest, h.actualSize]

lemma Views.checkLoadData_dropped (v : Views) (h : Synced d m) (hsys : sys.remap = none) :
    Points d m (v.checkLoadData sys d m.clearMemoryCache) := by
  have hpoints := v.reload_points (m := { m.clearMemoryCache with needLoad := false })
    (show Image m.clearMemoryCache.crypt d m.info m.dict by rw [MMKV.clearMemoryCache_eq h.closed]; exact h.image) hsys
  have hload : m.clearMemoryCache.needLoad = true := by rw [MMKV.clearMemoryCache_eq h.closed]
  rw [Views.checkLoadData, if_pos hload, Points, h.actualSize]
  exact hpoints

theorem Aliases.probed (h : Aliases d a m) (hsys : sys.remap = none) : Probed sys d a m := by
  have hs := h.synced
  have hwritable : Synced d m.writable := (MMKV.writable_eq hs.readOnly).symm ▸ hs
  rcases h.inst with ⟨hm, hp⟩ | hm
  · refine ⟨hwritable, by rw [hm]; exact hs.closed, by rw [hm], ?_, ?_⟩
    · rw [hm, MMKV.checkLoadData_of_synced hs]
    · rw [hm, a.v.checkLoadData_of_synced hs]
      exact hp
  · have heq := MMKV.clearMemoryCache_eq hs.closed
    refine ⟨hwritable, by rw [hm, heq]; exact hs.closed, by rw [hm, heq], ?_, ?_⟩
    · rw [hm, MMKV.checkLoadData_clearMemoryCache hs hsys]
    · rw [hm]
      exact a.v.checkLoadData_dropped hs hsys

lemma Aliases.compare (h : Aliases d a m) (b : Bool) :
    Aliases d ⟨{ a.m with compareBeforeSet := b }, a.v⟩ { m with compareBeforeSet := b } := by
  have hs := h.synced
  refine ⟨⟨hs.image, hs.data, hs.actualSize, hs.crcDigest, hs.enableExpire, hs.needLoad, hs.needFullWriteback, hs.closed,
    hs.readOnly⟩, h.inst.imp (fun hi => ⟨by rw [hi.1], hi.2⟩) fun hi => ?_⟩
  rw [hi]
  simp [MMKV.clearMemoryCache, hs.closed]

theorem Aliases.exec {op : Op} (h : Aliases d a m) (hsys : sys.OK) (hgood : op.Good m)
    (hlt : 4 + (op.regionAfter sys d m).length < 2 ^ 32) :
    ∃ v' m', a.exec P sys d op = some (a.m.exec P sys d op, v') ∧
      Aliases (d.apply (a.m.exec P sys d op).writes) ⟨(a.m.exec P sys d op).m, v'⟩ m' := by
  have hs := h.synced
  have hprobed := h.probed hsys.remap
  have haccess : op ≠ .sync → op ≠ .clearMemoryCache → op ≠ .enableCompareBeforeSet → op ≠ .disableCompareBeforeSet →
      ∃ v' m', a.exec P sys d op = some (a.m.exec P sys d op, v') ∧
        Aliases (d.apply (a.m.exec P sys d op).writes) ⟨(a.m.exec P sys d op).m, v'⟩ m' := by
    intro hsync hcache hon hoff
    obtain ⟨hvalue, v', hslices, hpoints⟩ := hprobed.exec hs hsys hgood hlt hsync hcache hon hoff
    rw [hvalue]
    exact ⟨v', _, hslices, (exec_effect hs hsys hgood hlt hcache).synced, .inl ⟨rfl, hpoints⟩⟩
  cases op with
  | sync =>
    refine ⟨a.v, m, rfl, ?_⟩
    simp only [MMKV.exec, MMKV.syncFlush, hprobed.closed, hprobed.readOnly, hs.readOnly, Bool.false_eq_true, if_false,
      Disk.apply_nil]
    exact h
  | clearMemoryCache =>
    refine ⟨_, m, rfl, hs, .inr ?_⟩
    rcases h.inst with ⟨hm, -⟩ | hm
    · simp only [MMKV.exec, hm]
    · simp only [MMKV.exec, hm]
      exact MMKV.clearMemoryCache_clearMemoryCache hs.closed
  | enableCompareBeforeSet =>
    simp only [MMKV.exec, MMKV.enableCompareBeforeSet]
    split
    · next he => exact ⟨a.v, m, by simp [Aliased.exec, MMKV.enableCompareBeforeSet, he], h⟩
    · next he => exact ⟨a.v, _, by simp [Aliased.exec, MMKV.enableCompareBeforeSet, he], h.compare true⟩
  | disableCompareBeforeSet => exact ⟨a.v, _, rfl, h.compare false⟩
  | _ => exact haccess (by simp) (by simp) (by simp) (by simp)

end Drop

/-! ### Whole runs of one process -/

/-- The files, and the instance of the one process that has them open, with slices for its dict. -/
structure AliasedWorld where
  disk : Disk
  inst : Except Err Aliased

namespace AliasedWorld

/-- The world after `MMKVWithID` on the files `d`; `none` is a fault. -/
def start (P : Platform) (cfg : Config) (sys : Sys) (d : Disk) : Option AliasedWorld :=
  (openAliased P sys cfg d).map fun r => ⟨d.apply r.1, r.2⟩

/-- One action; `none` is a fault. -/
def step (P : Platform) (w : AliasedWorld) : Act → Option AliasedWorld
  | .call op sys =>
    match w.inst with
    | .error _ => some w
    | .ok a => (a.exec P sys w.disk op).map fun r => ⟨w.disk.apply r.1.writes, .ok ⟨r.1.m, r.2⟩⟩
  | .reopen cfg sys => start P cfg sys w.disk

/-- The same with the bytes in the place of the slices. -/
def world (w : AliasedWorld) : World := ⟨w.disk, w.inst.map Aliased.m⟩

end AliasedWorld

/-- The two worlds are the same, and the slices of the one show the dict of the other. -/
structure Mirrors (w : AliasedWorld) (w' : World) : Prop where
  world : w.world = w'
  aliases : ∃ a m, w.inst = .ok a ∧ Aliases w.disk a m

section Run

variable {P : Platform} {cfg : Config} {sys : Sys} {d : Disk} {mi : MetaInfo} {dict : Dict}

lemma aliased_load_of_image (sys : Sys) (h : Image (cfg.crypt P) d mi dict) :
    ∃ v, (⟨cfg.instance P ⟨d.data.length, true⟩, ⟨∅, 0⟩⟩ : Aliased).load P sys d =
      some ([], .ok ⟨cfg.opened P d mi dict, v⟩) ∧ Points d (cfg.opened P d mi dict) v := by
  have hload := MMKV.loadData_of_image (m := cfg.instance P ⟨d.data.length, true⟩) h rfl h.fits
  have hpoints := (⟨∅, 0⟩ : Views).loadData_points (m := cfg.instance P ⟨d.data.length, true⟩) h rfl h.fits
  refine ⟨_, ?_, hpoints⟩
  simp only [Aliased.load, hload]
  exact if_neg (by simp [MMKV.loaded, Config.instance])

lemma openAliased_of_stored (sys : Sys) (h : Stored (cfg.crypt P) d mi dict)
    (hro : cfg.readOnly = true → 4 ≤ d.data.length ∧ metaSize ≤ d.crc.length) :
    let d' := d.apply (cfg.openStores P d)
    ∃ v, openAliased P sys cfg d = some (cfg.openStores P d, .ok ⟨cfg.opened P d' mi dict, v⟩) ∧
      Points d' (cfg.opened P d' mi dict) v := by
  obtain ⟨himage, -, -⟩ := h.opens hro sys
  obtain ⟨v, hload, hpoints⟩ := aliased_load_of_image sys himage
  refine ⟨v, ?_, hpoints⟩
  cases hc : cfg.readOnly with
  | false =>
    rw [Config.openStores_of_writable hc] at hload ⊢
    rw [openAliased, hc, if_neg (by decide)]
    simp only [hload, Option.map_some, List.append_nil]
  | true =>
    have hempty : ¬ (d.data.length = 0 ∨ d.crc.length = 0) := by
      have := hro hc
      rw [metaSize] at this
      omega
    rw [Config.openStores_of_readOnly hc, Disk.apply_nil] at hload ⊢
    rw [openAliased, hc, if_pos rfl, if_neg hempty, hload]

lemma mirrors_start (sys : Sys) (h : Stored (cfg.crypt P) d mi dict) (hro : cfg.readOnly = false) :
    ∃ w, AliasedWorld.start P cfg sys d = some w ∧ Mirrors w (World.start P cfg sys d) := by
  obtain ⟨v, hopen, hpoints⟩ := openAliased_of_stored sys h (by simp [hro])
  rw [Config.openStores_of_writable hro] at hopen hpoints
  rw [AliasedWorld.start, World.start, hopen, openMMKV_of_stored h hro]
  exact ⟨_, rfl, rfl, _, _, rfl, Config.synced_opened h.image hro, .inl ⟨rfl, hpoints⟩⟩

/-- **One action on the slices is the action on the map.** -/
theorem step_mirrors {w : AliasedWorld} {w' : World} {act : Act} (h : Mirrors w w') (hok : act.OK P w') :
    ∃ w₁, w.step P act = some w₁ ∧ Mirrors w₁ (w'.step P act) := by
  obtain ⟨hworld, a, m, hinst, halias⟩ := h
  subst hworld
  have hvalue : w.world.inst = .ok a.m := by
    rw [AliasedWorld.world, hinst]
    rfl
  cases act with
  | reopen cfg sys =>
    obtain ⟨hro, hkey⟩ := hok
    have hcrypt : cfg.crypt P = m.crypt := by
      rw [hkey a.m hvalue]
      rcases halias.inst with ⟨hm, -⟩ | hm
      · rw [hm]
      · rw [hm, MMKV.clearMemoryCache_eq halias.synced.closed]
    have himage := halias.synced.image
    rw [← hcrypt] at himage
    exact mirrors_start sys (.inl himage) hro
  | call op sys =>
    obtain ⟨hsys, hcall⟩ := hok
    obtain ⟨hgood, hlt⟩ := hcall a.m hvalue
    have hrecord : a.m.checkLoadData w.world.disk sys = m := (halias.probed hsys.remap).record
    rw [hrecord] at hgood hlt
    obtain ⟨v', m', hexec, halias'⟩ := halias.exec (P := P) hsys hgood hlt
    refine ⟨⟨w.disk.apply (a.m.exec P sys w.disk op).writes, .ok ⟨(a.m.exec P sys w.disk op).m, v'⟩⟩, ?_, ?_, ?_⟩
    · simp only [AliasedWorld.step, hinst, hexec, Option.map_some]
    · simp only [World.step, hvalue]
      rfl
    · exact ⟨_, m', rfl, halias'⟩

/-- **The dict of slices is as good as a dict of copies.**  Over every run of one process on files that hold a map, with
or without a key, in which no call of the system fails, no empty key is set, no tombstone is appended to ciphertext
and the region stays below 4 GiB: no slice is read that is gone, the files and the record are those of the
instance that keeps copies, and every getter answers as its getter does. -/
theorem zero_copy_agrees {acts : List Act} (hstored : Stored (cfg.crypt P) d mi dict) (hro : cfg.readOnly = false)
    (hacts : Along (Act.OK P) (World.step P) (World.start P cfg sys d) acts) :
    ∃ w, ((AliasedWorld.start P cfg sys d).bind fun w => acts.foldlM (AliasedWorld.step P) w) = some w ∧
      w.world = run (World.step P) (World.start P cfg sys d) acts ∧
      ∃ a, w.inst = .ok a ∧ ∀ sys' : Sys, sys'.remap = none → ∀ (α : Type) (getter : View → α) (zero : α),
        (a.get sys' w.disk getter zero).map Prod.snd = some (a.m.get sys' w.disk getter zero).2 := by
  obtain ⟨w₀, hstart, hmirrors⟩ := mirrors_start sys hstored hro
  have hstep : ∀ w w' act, Mirrors w w' → Act.OK P w' act →
      ∃ w₁, AliasedWorld.step P w act = some w₁ ∧ Mirrors w₁ (World.step P w' act) :=
    fun _ _ _ h hok => step_mirrors h hok
  obtain ⟨w, hrun, hworld, a, m, hinst, halias⟩ := hacts.lockstep hstep hmirrors
  refine ⟨w, by rw [hstart]; exact hrun, hworld, a, hinst, fun sys' hsys α getter zero => ?_⟩
  rw [(halias.probed hsys).get getter zero]
  rfl

/-- Two sets on files that were not there, the second by an append: both are read back through their slices. -/
theorem append_zero_copy :
    ∃ w, ((AliasedWorld.start linux defaults calm ⟨[], []⟩).bind fun w =>
        [.call (.set [97] (.bool true)) calm, .call (.set [98] (.bool false)) calm].foldlM (AliasedWorld.step linux) w) =
          some w ∧
      ∃ a, w.inst = .ok a ∧ (a.get calm w.disk (fun v => v.getBool [97]) none).map Prod.snd = some (some true) ∧
        (a.get calm w.disk (fun v => v.getBool [98]) none).map Prod.snd = some (some false) := by
  have hro : defaults.readOnly = false := rfl
  obtain ⟨hfirst, hok, -⟩ := run_first_set (P := linux) hro calm_ok [97] (.bool true) (by simp) (by decide)
  obtain ⟨-, -, hone⟩ := first_set (P := linux) hro calm_ok [97] (.bool true) (by simp) (by decide)
  obtain ⟨hstep, hok', hsynced⟩ := append_set (P := linux) (v := .bool false) hone calm_ok
    (show ([98] : Bytes) ≠ [] by simp) rfl (by decide +kernel) (by decide +kernel) (by decide +kernel) (by decide +kernel)
  rw [run_cons, run_nil] at hfirst
  have hacts : Along (Act.OK linux) (World.step linux) (World.start linux defaults calm ⟨[], []⟩)
      [.call (.set [97] (.bool true)) calm, .call (.set [98] (.bool false)) calm] :=
    ⟨hok, by rw [hfirst]; exact hok', trivial⟩
  obtain ⟨w, hw, hworld, a, hinst, hget⟩ := zero_copy_agrees (.inr ⟨blank_absent, rfl, rfl⟩) rfl hacts
  rw [run_cons, hfirst, run_cons, hstep, run_nil, AliasedWorld.world, hinst, World.mk.injEq] at hworld
  obtain ⟨hdisk, hm⟩ := hworld
  refine ⟨w, hw, a, hinst, ?_, ?_⟩
  all_goals
    rw [hget calm rfl, Option.some.injEq, hdisk, Except.ok.inj hm, hsynced.get_eq]
    decide +kernel

end Run

end MmkvGo.Store
