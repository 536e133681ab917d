import MmkvGo.Store.Failed
import MmkvGo.Store.Trim

/-!
`ReKey` changes the cipher in memory, rewrites the files and, if that fails, puts the old cipher back.  A failure before
the first store leaves the map of the files and that of the instance as they were.  What may stay behind is the IV in
the meta in memory, which no later set or removal reads, and a data file that has been made longer than the mapping,
which no later set or removal sees (`Drifted`).  A failed `msync` comes after the stores: the files are under the new
key by then, and the instance is back at the old one (`failed_sync_loses_map`).
-/

namespace MmkvGo.Store

open MmkvGo.Lib MmkvGo.Wire MmkvGo.Crypt Std

/-- The calls of the system that fail come before the first store and leave the mapping in place: an IV may be missing,
`ftruncate` may fail or the `munmap` after it, but not the `mmap` that comes last, nor an `msync`. -/
structure Sys.FailsEarly (sys : Sys) : Prop where
  grow : sys.grow ≠ some .mmap
  syncData : sys.syncData = false
  syncMeta : sys.syncMeta = false

/-! ### Files that are longer than the mapping -/

/-- The files `d'` are the files `d` with zeros behind the data file. -/
structure Padded (d d' : Disk) : Prop where
  data : ∃ k, d'.data = d.data ++ List.replicate k 0
  crc : d'.crc = d.crc

/-- A call of an instance that maps the data file of `d` does the same on the longer one of `d'`. -/
def Alike (d d' : Disk) (call : Disk → Result) : Prop :=
  call d' = call d ∧ Padded (d.apply (call d).writes) (d'.apply (call d).writes)

section Padded

variable {P : Platform} {sys : Sys} {d d' : Disk} {m : MMKV}

lemma Padded.refl (d : Disk) : Padded d d := ⟨⟨0, by simp⟩, rfl⟩

lemma padded_resize {n : ℕ} (h : d.data.length ≤ n) : Padded d (d.apply [.resize n]) :=
  ⟨⟨n - d.data.length, resize_of_le h⟩, rfl⟩

lemma Padded.resizeWrites (h : Padded d d') (size : ℕ) :
    Padded (d.apply (resizeWrites d.data.length size)) (d'.apply (resizeWrites d.data.length size)) := by
  rw [Store.resizeWrites]
  split
  · exact h
  · obtain ⟨k, hk⟩ := h.data
    have hdata : resize 0 d'.data size = resize 0 d.data size := by rw [hk, resize_append_replicate]
    exact ⟨⟨0, hdata.trans (List.append_nil _).symm⟩, h.crc⟩

lemma Padded.dataWrites {off : ℕ} {bs : Bytes} (h : Padded d d') (hroom : off + bs.length ≤ d.data.length) :
    Padded (d.apply (dataWrites off bs)) (d'.apply (dataWrites off bs)) := by
  obtain ⟨k, hk⟩ := h.data
  rw [Disk.apply_dataWrites, Disk.apply_dataWrites]
  exact ⟨⟨k, by rw [hk, patch_append_left _ hroom]⟩, h.crc⟩

lemma Padded.crcWrites (h : Padded d d') (off : ℕ) (bs : Bytes) :
    Padded (d.apply (crcWrites off bs)) (d'.apply (crcWrites off bs)) := by
  rw [Disk.apply_crcWrites, Disk.apply_crcWrites]
  exact ⟨h.data, by rw [h.crc]⟩

lemma Padded.metaWords (h : Padded d d') (crc size : UInt32) :
    Padded (d.apply (MMKV.metaWords crc size)) (d'.apply (MMKV.metaWords crc size)) := by
  rw [MMKV.apply_metaWords, MMKV.apply_metaWords]
  exact ⟨h.data, by rw [h.crc]⟩

lemma Padded.memory {n : ℕ} (h : Padded d d') (hn : n ≤ d.data.length) :
    (⟨n, true⟩ : MemoryFile).memory d' = (⟨n, true⟩ : MemoryFile).memory d := by
  obtain ⟨k, hk⟩ := h.data
  rw [MemoryFile.memory, MemoryFile.memory, hk]
  exact List.take_append_of_le_length hn

lemma Padded.region (h : Padded d d') {size : UInt32} (hfits : 4 + size.toNat ≤ d.data.length) :
    d'.region size = d.region size := by
  obtain ⟨k, hk⟩ := h.data
  exact Disk.region_append hk hfits

theorem fullWritebackGrow_alike (h : Padded d d') (hdata : m.data = ⟨d.data.length, true⟩) (hsys : sys.OK)
    (needSync : Bool) (incoming : ℕ) : Alike d d' (m.fullWritebackGrow P sys · needSync incoming) := by
  have hwrites := MMKV.fullWritebackGrow_writes (P := P) hdata hsys needSync incoming
  have hpay := MMKV.payload_ok m hsys
  have hlen := m.length_stored sys
  have hroom := MMKV.lt_grownSize (P := P) (m := m) (4 + (m.stored sys).length + incoming) needSync incoming
  rw [← hlen] at hwrites
  generalize m.stored sys = ct at hwrites hpay hroom
  generalize m.nextIV sys = iv at hwrites hpay
  have hgrow : ({ m with info := { m.info with iv := iv } } : MMKV).grow P sys (4 + ct.length + incoming) needSync
      incoming = (resizeWrites d.data.length (m.grownSize P (4 + ct.length + incoming) needSync incoming),
        ⟨m.grownSize P (4 + ct.length + incoming) needSync incoming, true⟩, none) := MMKV.grow_ok hdata hsys _ _ _
  generalize m.grownSize P (4 + ct.length + incoming) needSync incoming = size at hgrow hroom hwrites
  have hgrown : (d.apply (resizeWrites d.data.length size)).data.length = size := by
    rw [Disk.apply_resizeWrites, length_resize]
  have hheader : (d.apply (resizeWrites d.data.length size ++ dataWrites 0 (List.replicate 4 0))).data.length = size := by
    rw [Disk.apply_append, Disk.apply_dataWrites, length_patch, hgrown]
  -- the same stores, made to files that differ behind their common part
  have hstores : Padded (d.apply (MMKV.regionWrites d.data.length size ct))
      (d'.apply (MMKV.regionWrites d.data.length size ct)) := by
    rw [MMKV.regionWrites, Disk.apply_append _ (_ ++ _), Disk.apply_append _ (_ ++ _)]
    refine Padded.dataWrites ?_ (by omega)
    rw [Disk.apply_append, Disk.apply_append]
    exact (h.resizeWrites size).dataWrites (by rw [hgrown, List.length_replicate]; omega)
  have hmem := hstores.memory (n := size) (by rw [MMKV.apply_regionWrites, MMKV.length_rewritten])
  refine ⟨?_, ?_⟩
  · rw [MMKV.regionWrites] at hmem
    simp only [MMKV.fullWritebackGrow, hpay, hgrow, hmem]
  · rw [hwrites, Disk.apply_append, Disk.apply_append]
    exact hstores.crcWrites ..

theorem appendRaw_alike {pair : Bytes} (h : Padded d d') (hroom : 4 + m.actualSize.toNat + pair.length ≤ d.data.length) :
    Padded (d.apply (m.appendRaw pair).1) (d'.apply (m.appendRaw pair).1) := by
  rw [MMKV.appendRaw, Disk.apply_append, Disk.apply_append]
  exact (h.dataWrites hroom).metaWords ..

theorem setBlob_alike {key blob : Bytes} (h : Padded d d') (hdata : m.data = ⟨d.data.length, true⟩) (hsys : sys.OK) :
    Alike d d' (m.setBlob P sys · key blob) := by
  by_cases hover : m.overrides key (pairBytes key blob) = true
  · -- both parts of the region lie in the mapping
    have hroom : 4 + itemSizeHolderBytes.length + (pairBytes key blob).length ≤ d.data.length := by
      simp only [MMKV.overrides, hdata, Bool.and_eq_true, decide_eq_true_eq] at hover
      exact hover.1.2
    have hstores : Padded (d.apply (dataWrites 4 itemSizeHolderBytes ++
          dataWrites (4 + itemSizeHolderBytes.length) (pairBytes key blob)))
        (d'.apply (dataWrites 4 itemSizeHolderBytes ++
          dataWrites (4 + itemSizeHolderBytes.length) (pairBytes key blob))) := by
      rw [Disk.apply_append, Disk.apply_append]
      refine (h.dataWrites (by omega)).dataWrites ?_
      rw [Disk.apply_dataWrites, length_patch]
      exact hroom
    have hmem := hstores.memory (n := d.data.length) (by
      rw [Disk.apply_append, Disk.apply_dataWrites, Disk.apply_dataWrites, length_patch, length_patch])
    refine ⟨?_, ?_⟩
    · simp only [MMKV.setBlob, hover, if_true, MMKV.overrideRaw, hdata, hmem]
    · simp only [MMKV.setBlob, hover, if_true, MMKV.overrideRaw]
      rw [Disk.apply_append _ (_ ++ _), Disk.apply_append _ (_ ++ _)]
      exact hstores.metaWords ..
  rw [Bool.not_eq_true] at hover
  by_cases happend : m.appends (pairBytes key blob) = true
  · have hroom : 4 + m.actualSize.toNat + (pairBytes key blob).length ≤ d.data.length := by
      have := MMKV.room_of_appends hdata happend
      omega
    have hstores := appendRaw_alike (m := m) h hroom
    have hmapped : (m.appendRaw (pairBytes key blob)).2.data = ⟨d.data.length, true⟩ := hdata
    have hmem := hstores.memory (n := d.data.length) (by rw [MMKV.apply_appendRaw, length_patch])
    refine ⟨?_, ?_⟩
    · simp only [MMKV.setBlob, hover, happend, if_true, Bool.false_eq_true, if_false, hmapped, hmem]
    · simp only [MMKV.setBlob, hover, happend, if_true, Bool.false_eq_true, if_false]
      exact hstores
  rw [Bool.not_eq_true] at happend
  simp only [Alike, MMKV.setBlob_of_neither hover happend]
  exact fullWritebackGrow_alike (m := { m with dict := m.dict.insert key blob }) h hdata hsys _ _

lemma Padded.nothing (h : Padded d d') (r : Result) (hr : r.writes = []) : Alike d d' fun _ => r := by
  rw [Alike, hr]
  exact ⟨rfl, h⟩

theorem set_alike {key blob : Bytes} (h : Padded d d') (hdata : m.data = ⟨d.data.length, true⟩) (hsys : sys.OK) :
    Alike d d' (m.setValueLocked P sys · key blob) := by
  simp only [MMKV.setValueLocked]
  split
  · exact h.nothing ⟨[], m, none⟩ rfl
  · exact setBlob_alike h hdata hsys

theorem remove_alike {key : Bytes} (h : Padded d d') (hdata : m.data = ⟨d.data.length, true⟩) (hsys : sys.OK) :
    Alike d d' (m.removeValueForKey P sys · key) := by
  simp only [MMKV.removeValueForKey]
  split
  · exact h.nothing ⟨[], m, none⟩ rfl
  split
  · next htomb =>
    refine ⟨rfl, appendRaw_alike h ?_⟩
    simp only [MMKV.appendsTombstone, MMKV.fitsTail, hdata, Bool.and_eq_true, decide_eq_true_eq] at htomb
    have := htomb.1.1.1
    dsimp only
    omega
  · exact fullWritebackGrow_alike (m := { m with dict := m.dict.erase key }) h hdata hsys _ _

theorem removeMany_alike {keys : List Bytes} (h : Padded d d') (hdata : m.data = ⟨d.data.length, true⟩) (hsys : sys.OK) :
    Alike d d' (m.removeValuesForKeys P sys · keys) := by
  simp only [MMKV.removeValuesForKeys]
  split
  · exact h.nothing ⟨[], m, none⟩ rfl
  · exact fullWritebackGrow_alike (m := { m with dict := keys.foldl (fun dict k => dict.erase k) m.dict }) h hdata hsys _ _

end Padded

/-! ### Failing before the first store -/

section Early

variable {P : Platform} {sys : Sys} {d : Disk} {m : MMKV}

lemma Sys.FailsEarly.flush (h : sys.FailsEarly) : MMKV.flush sys = none := by
  simp [MMKV.flush, msync, h.syncData, h.syncMeta]

/-- Where the mapping stays, the file is as it was or has the size that was asked for. -/
lemma MemoryFile.truncate_early {mf : MemoryFile} (h : sys.FailsEarly) (hmapped : mf.mapped = true) (newSize : ℕ) :
    (∃ ws e, mf.truncate P sys.grow newSize = (ws, mf, some e) ∧ (ws = [] ∨ ws = [.resize (pageRoundUp P newSize)])) ∨
      mf.truncate P sys.grow newSize = mf.truncate P none newSize := by
  by_cases hsize : pageRoundUp P newSize = mf.size
  · exact .inr (by simp [truncate, hsize])
  cases hgrow : sys.grow with
  | none => exact .inr rfl
  | some call =>
    cases call with
    | truncate => exact .inl ⟨[], .os .truncate, by simp [truncate, hsize], .inl rfl⟩
    | munmap => exact .inl ⟨_, .os .munmap, by simp [truncate, hsize, hmapped], .inr rfl⟩
    | mmap => exact absurd hgrow h.grow
    | _ => exact .inr (by simp [truncate, hsize])

lemma MMKV.grow_early (hdata : m.data = ⟨d.data.length, true⟩) (h : sys.FailsEarly) (lenNeeded : ℕ) (needSync : Bool)
    (incoming : ℕ) :
    (∃ ws e, m.grow P sys lenNeeded needSync incoming = (ws, m.data, some e) ∧ Padded d (d.apply ws)) ∨
      m.grow P sys lenNeeded needSync incoming = m.grow P sys.mended lenNeeded needSync incoming := by
  have hle := m.le_grownSize (P := P) lenNeeded needSync incoming
  simp only [grow, grownSize] at hle ⊢
  cases hsize : growth m.data.size m.dict.size lenNeeded needSync incoming with
  | none => exact .inr rfl
  | some newSize =>
    simp only [hsize] at hle
    rcases MemoryFile.truncate_early (P := P) h (show m.data.mapped = true by rw [hdata]) newSize with
      ⟨ws, e, htruncate, rfl | rfl⟩ | htruncate
    · exact .inl ⟨[], e, htruncate, .refl d⟩
    · exact .inl ⟨_, e, htruncate, padded_resize (by rw [hdata] at hle; exact hle)⟩
    · exact .inr htruncate

/-- **A full write-back fails before its first store or does what it does without failures.** -/
theorem MMKV.fullWritebackGrow_early (hdata : m.data = ⟨d.data.length, true⟩) (h : sys.FailsEarly) (needSync : Bool)
    (incoming : ℕ) :
    (∃ ws iv e, m.fullWritebackGrow P sys d needSync incoming = ⟨ws, m.withIV iv, some e⟩ ∧ Padded d (d.apply ws)) ∨
      m.fullWritebackGrow P sys d needSync incoming = m.fullWritebackGrow P sys.mended d needSync incoming := by
  cases hpay : m.payload sys (regionOf m.dict) with
  | error e => exact .inl ⟨[], m.info.iv, e, by simp only [fullWritebackGrow, hpay]; rfl, .refl d⟩
  | ok p =>
    obtain ⟨ct, iv⟩ := p
    have hpay' := payload_mended hpay
    have hgrow := MMKV.grow_early (P := P) (m := m.withIV iv) hdata h (4 + ct.length + incoming) needSync incoming
    rw [withIV] at hgrow
    rcases hgrow with ⟨ws, e, hgrow, hpadded⟩ | hgrow
    · refine .inl ⟨ws, iv, e, ?_, hpadded⟩
      simp only [fullWritebackGrow, hpay, hgrow]
      rfl
    · refine .inr ?_
      simp only [fullWritebackGrow, hpay, hpay', hgrow, h.flush, flush_mended]

lemma MMKV.reKey_mended {newKey : Bytes} (h : (m.reKey P sys d newKey).err = none) :
    m.reKey P sys d newKey = m.reKey P sys.mended d newKey := by
  simp only [reKey, fullWriteback] at h ⊢
  generalize (if newKey = [] then none else some (newAESCFB P.aes newKey)) = crypt at h ⊢
  cases herr : (({ m with crypt := crypt } : MMKV).fullWritebackGrow P sys d true 0).err with
  | some e => simp [herr] at h
  | none =>
    have hback := fullWritebackGrow_mended herr
    rw [hback] at herr ⊢
    simp only [herr]

/-- **A `ReKey` fails before its first store, with nothing changed but the IV and the length of the file, or does what it
does without failures.** -/
theorem MMKV.reKey_early (hdata : m.data = ⟨d.data.length, true⟩) (h : sys.FailsEarly) (newKey : Bytes) :
    (∃ ws iv e, m.reKey P sys d newKey = ⟨ws, m.withIV iv, some e⟩ ∧ Padded d (d.apply ws)) ∨
      m.reKey P sys d newKey = m.reKey P sys.mended d newKey := by
  simp only [reKey, fullWriteback]
  generalize (if newKey = [] then none else some (newAESCFB P.aes newKey)) = crypt
  rcases fullWritebackGrow_early (P := P) (d := d) (m := { m with crypt := crypt }) hdata h true 0 with
    ⟨ws, iv, e, hback, hpadded⟩ | hback
  · refine .inl ⟨ws, iv, e, ?_, hpadded⟩
    rw [hback]
    rfl
  · exact .inr (by rw [hback])

lemma MMKV.reKey_ok (h : Synced d m) (hsys : sys.OK) (newKey : Bytes) : (m.reKey P sys d newKey).err = none := by
  simp only [reKey, fullWriteback]
  generalize (if newKey = [] then none else some (newAESCFB P.aes newKey)) = crypt
  have hback := fullWritebackGrow_eq (P := P) (m := { m with crypt := crypt }) h.data hsys true 0
  dsimp only at hback
  -- the region is at most four bytes longer than the one in the file
  have hlen := length_regionOf_parseDict h.image.decoded
  have hbounded := h.image.bounded
  rw [length_plainOf, h.image.length_region] at hlen
  rw [parseDict_regionOf h.image.wf (by omega)] at hback
  rw [hback]

end Early

/-! ### Later sets and removals -/

/-- The instance stands for the model and agrees with its files, but for the IV in its copy of the meta and for zeros
behind the end of its mapping. -/
def Drifted (w : World) (s : Model) : Prop :=
  ∃ m iv d, w.inst = .ok (MMKV.withIV m iv) ∧ Padded d w.disk ∧ Synced d m ∧ m.content = s.content ∧ m.crypt = s.crypt ∧
    m.expiredSeconds = s.seconds

/-- Sets and removals, under the conditions of a run. -/
def Act.Later (P : Platform) (w : World) (a : Act) : Prop :=
  a.OK P w ∧ ∃ op sys, a = .call op sys ∧
    ((∃ key v, op = .set key v) ∨ (∃ key, op = .removeValueForKey key) ∨ ∃ keys, op = .removeValuesForKeys keys)

section Later

variable {P : Platform} {sys : Sys} {d : Disk} {m : MMKV}

/-- The call `op` on the instance whose IV has drifted has the effect that it has on the one that agrees with the files. -/
def DriftedEffect (P : Platform) (sys : Sys) (op : Op) (d : Disk) (m : MMKV) (r : Result) : Prop :=
  ∃ m' iv, r.m = m'.withIV iv ∧ op.Effect P sys d m ⟨r.writes, m', r.err⟩

lemma driftedEffect_of_withIV {op : Op} {r r' : Result} (iv : Block) (heffect : op.Effect P sys d m r)
    (hr : r' = ⟨r.writes, r.m.withIV iv, r.err⟩) : DriftedEffect P sys op d m r' := by
  subst hr
  exact ⟨r.m, iv, rfl, heffect⟩

/-- What is written back does not depend on the IV in memory, and leaves none behind. -/
lemma driftedEffect_of_writeback {op : Op} {dict : Dict} {needSync : Bool} {incoming : ℕ} {iv : Block} (h : Synced d m)
    (hwf : WF dict) (hst : Stamped m.info dict) (hsys : sys.OK) (hlt : 4 + (regionOf dict).length < 2 ^ 32)
    (hafter : m.content.after sys m.expiredSeconds op = ⟨OrdMap.lookup dict, m.enableExpire⟩)
    (hcrypt : op.cryptAfter P m.crypt = m.crypt)
    (hseconds : op.secondsAfter m.enableExpire m.expiredSeconds = m.expiredSeconds) :
    DriftedEffect P sys op d m (({ m.withIV iv with dict := dict } : MMKV).fullWritebackGrow P sys d needSync incoming) := by
  obtain ⟨mi, hr⟩ := MMKV.fullWritebackGrow_spec (P := P) (m := { m.withIV iv with dict := dict }) h.data
    h.image.metaSize_le hwf hst hsys hlt needSync incoming
  have heffect := hr.effect (m := m) h.enableExpire h.needLoad h.closed h.readOnly rfl rfl
  refine ⟨_, _, rfl, ?_⟩
  rw [Op.Effect, hafter, hcrypt, hseconds]
  exact heffect

lemma MMKV.setBlob_withIV {key blob : Bytes} (iv : Block)
    (hfast : m.overrides key (pairBytes key blob) = true ∨ m.appends (pairBytes key blob) = true) :
    (m.withIV iv).setBlob P sys d key blob = ⟨(m.setBlob P sys d key blob).writes,
      (m.setBlob P sys d key blob).m.withIV iv, (m.setBlob P sys d key blob).err⟩ := by
  have hover : (m.withIV iv).overrides key (pairBytes key blob) = m.overrides key (pairBytes key blob) := rfl
  have happend : (m.withIV iv).appends (pairBytes key blob) = m.appends (pairBytes key blob) := rfl
  simp only [setBlob, hover, happend]
  cases ho : m.overrides key (pairBytes key blob) with
  | true => rfl
  | false =>
    rw [ho, or_iff_right (by simp)] at hfast
    simp only [hfast, if_true, Bool.false_eq_true, if_false]
    rfl

theorem set_drifted {key : Bytes} {v : Value} {iv : Block} (h : Synced d m) (hsys : sys.OK) (hk : key ≠ [])
    (hlt : 4 + ((Op.set key v).regionAfter sys d m).length < 2 ^ 32) :
    DriftedEffect P sys (.set key v) d m ((m.withIV iv).setValueLocked P sys d key v.blob) := by
  have hset : (m.withIV iv).setValueLocked P sys d key v.blob =
      if m.compareBeforeSet && !m.enableExpire && m.dict[key]? == some v.blob then ⟨[], m.withIV iv, none⟩
      else (m.withIV iv).setBlob P sys d key (m.content.slot sys m.expiredSeconds v.blob) := rfl
  have hset₀ : m.setValueLocked P sys d key v.blob =
      if m.compareBeforeSet && !m.enableExpire && m.dict[key]? == some v.blob then ⟨[], m, none⟩
      else m.setBlob P sys d key (m.content.slot sys m.expiredSeconds v.blob) := rfl
  have heffect := set_effect (P := P) h hsys hk hlt
  rw [hset]
  rw [hset₀] at heffect
  rw [Op.regionAfter, MMKV.regionAfterPut] at hlt
  have hlength : 0 < (m.content.slot sys m.expiredSeconds v.blob).length ∧ _ :=
    m.content.length_slot m.expiredSeconds v.blob_ne_nil
  generalize hslot : m.content.slot sys m.expiredSeconds v.blob = slot at hlt heffect hlength ⊢
  split
  · next hskip =>
    rw [if_pos hskip] at heffect
    exact driftedEffect_of_withIV iv heffect rfl
  next hskip =>
  rw [if_neg hskip] at hlt heffect
  by_cases hfast : m.overrides key (pairBytes key slot) = true ∨ m.appends (pairBytes key slot) = true
  · rw [MMKV.setBlob_withIV iv hfast]
    exact driftedEffect_of_withIV iv heffect rfl
  · simp only [not_or, Bool.not_eq_true] at hfast
    have hback : (m.withIV iv).setBlob P sys d key slot = _ := MMKV.setBlob_of_neither hfast.1 hfast.2
    rw [MMKV.regionAfterSet, if_neg (by simp [hfast.1]), if_neg (by simp [hfast.2])] at hlt
    rw [hback]
    refine driftedEffect_of_writeback h (h.image.wf.insert hk (List.length_pos_iff.1 hlength.1))
      (h.image.stamped.insert fun he => hlength.2 (h.enableExpire.trans he)) hsys hlt ?_ rfl rfl
    rw [OrdMap.lookup_insert, Content.after, hslot]
    rfl

theorem remove_drifted {key : Bytes} {iv : Block} (h : Synced d m) (hsys : sys.OK) (hok : m.tombstoneOK key)
    (hlt : 4 + ((Op.removeValueForKey key).regionAfter sys d m).length < 2 ^ 32) :
    DriftedEffect P sys (.removeValueForKey key) d m ((m.withIV iv).removeValueForKey P sys d key) := by
  have heffect := remove_effect (P := P) h hsys hok hlt
  rw [MMKV.removeValueForKey] at heffect ⊢
  rw [Op.regionAfter] at hlt
  have hdict : (m.withIV iv).dict = m.dict := rfl
  rw [hdict]
  cases hc : m.dict.contains key with
  | false =>
    rw [hc] at heffect
    exact driftedEffect_of_withIV iv heffect rfl
  | true =>
    simp only [hc, Bool.not_true, Bool.false_eq_true, if_false] at heffect hlt ⊢
    have htomb : ({ m.withIV iv with dict := m.dict.erase key } : MMKV).appendsTombstone (pairBytes key []) =
        ({ m with dict := m.dict.erase key } : MMKV).appendsTombstone (pairBytes key []) := rfl
    rw [htomb]
    split
    · next hfit =>
      rw [if_pos hfit] at heffect
      exact driftedEffect_of_withIV iv heffect rfl
    · next hfit =>
      rw [if_neg hfit] at hlt
      refine driftedEffect_of_writeback h (h.image.wf.erase key) (h.image.stamped.erase key) hsys hlt ?_ rfl rfl
      rw [OrdMap.lookup_erase]
      rfl

theorem removeMany_drifted {keys : List Bytes} {iv : Block} (h : Synced d m) (hsys : sys.OK)
    (hlt : 4 + ((Op.removeValuesForKeys keys).regionAfter sys d m).length < 2 ^ 32) :
    DriftedEffect P sys (.removeValuesForKeys keys) d m ((m.withIV iv).removeValuesForKeys P sys d keys) := by
  have heffect := removeMany_effect (P := P) h hsys hlt
  rw [MMKV.removeValuesForKeys] at heffect ⊢
  rw [Op.regionAfter] at hlt
  have hdict : (m.withIV iv).dict = m.dict := rfl
  rw [hdict]
  split
  · next hall =>
    rw [if_pos hall] at heffect
    exact driftedEffect_of_withIV iv heffect rfl
  · next hall =>
    rw [if_neg hall] at hlt
    refine driftedEffect_of_writeback h (h.image.wf.foldl_erase keys) (h.image.stamped.foldl_erase keys) hsys hlt ?_ rfl
      rfl
    refine Content.ext (funext fun k => ?_) rfl
    simp [Content.after, MMKV.content]

lemma length_regionAfter_drifted {d' : Disk} (h : Synced d m) (hpadded : Padded d d') (iv : Block) (op : Op) :
    (op.regionAfter sys d' (m.withIV iv)).length = (op.regionAfter sys d m).length := by
  have hplain : ((m.withIV iv).plainRegion d').length = (m.plainRegion d).length := by
    have hregion : d'.region (m.withIV iv).info.actualSize = d.region m.info.actualSize := hpadded.region h.image.fits
    rw [MMKV.plainRegion, MMKV.plainRegion, length_plainOf, length_plainOf, hregion]
  have hset : ∀ key slot, ((m.withIV iv).regionAfterSet d' key slot).length = (m.regionAfterSet d key slot).length := by
    intro key slot
    have hover : (m.withIV iv).overrides key (pairBytes key slot) = m.overrides key (pairBytes key slot) := rfl
    have happend : (m.withIV iv).appends (pairBytes key slot) = m.appends (pairBytes key slot) := rfl
    rw [MMKV.regionAfterSet, MMKV.regionAfterSet, hover, happend]
    split
    · rfl
    split
    · rw [List.length_append, List.length_append, hplain]
    · rfl
  -- which path a call takes depends on the dict and on sizes, and the IV is neither
  cases op with
  | set key v =>
    have hput : (m.withIV iv).regionAfterPut sys d' key v.blob =
        if m.compareBeforeSet && !m.enableExpire && m.dict[key]? == some v.blob then (m.withIV iv).plainRegion d'
        else (m.withIV iv).regionAfterSet d' key (m.content.slot sys m.expiredSeconds v.blob) := rfl
    rw [Op.regionAfter, Op.regionAfter, hput, MMKV.regionAfterPut]
    split
    · exact hplain
    · exact hset ..
  | removeValueForKey key =>
    have htomb : ({ m.withIV iv with dict := m.dict.erase key } : MMKV).appendsTombstone (pairBytes key []) =
        ({ m with dict := m.dict.erase key } : MMKV).appendsTombstone (pairBytes key []) := rfl
    rw [Op.regionAfter, Op.regionAfter, show (m.withIV iv).dict = m.dict from rfl, htomb]
    split
    · exact hplain
    split
    · rw [List.length_append, List.length_append, hplain]
    · rfl
  | removeValuesForKeys keys =>
    rw [Op.regionAfter, Op.regionAfter, show (m.withIV iv).dict = m.dict from rfl]
    split
    · exact hplain
    · rfl
  | disableAutoKeyExpire =>
    rw [Op.regionAfter, Op.regionAfter, show (m.withIV iv).enableExpire = m.enableExpire from rfl]
    split
    · exact hplain
    · rfl
  | sync | clearMemoryCache | enableCompareBeforeSet | disableCompareBeforeSet => exact hplain
  | clearAll | trim | enableAutoKeyExpire seconds | reKey newKey => rfl

/-- **One later set or removal** keeps the files and the model together. -/
theorem step_drifted {w : World} {s : Model} {a : Act} (h : Drifted w s) (ha : a.Later P w) :
    Drifted (w.step P a) (s.step P a) := by
  obtain ⟨m, iv, d, hinst, hpadded, hsynced, hcontent, hcrypt, hseconds⟩ := h
  obtain ⟨hok, op, sys, rfl, hop⟩ := ha
  obtain ⟨hsys, hcall⟩ := hok
  obtain ⟨hgood, hlt⟩ := hcall _ hinst
  have hparse : parseMeta w.disk.crc = .ok m.info := by
    rw [hpadded.crc]
    exact hsynced.image.parse
  have hprobe : (m.withIV iv).checkLoadData w.disk sys = m.withIV iv :=
    MMKV.checkLoadData_of_words hparse rfl hsynced.crcDigest.symm hsynced.actualSize.symm hsynced.needLoad
  have hclosed : (m.withIV iv).closed = false := hsynced.closed
  have hro : (m.withIV iv).readOnly = false := hsynced.readOnly
  have hmutate : ∀ body : MMKV → Result, (m.withIV iv).mutate sys w.disk body = body (m.withIV iv) := by
    intro body
    simp [MMKV.mutate, hclosed, hro, hprobe]
  rw [hprobe, length_regionAfter_drifted hsynced hpadded] at hlt
  rw [hprobe] at hgood
  -- what the call does to files of the mapping's length, it does to the longer ones
  obtain ⟨call, hexec, halike, heffect⟩ : ∃ call : Disk → Result, (m.withIV iv).exec P sys w.disk op = call w.disk ∧
      Alike d w.disk call ∧ DriftedEffect P sys op d m (call d) := by
    rcases hop with ⟨key, v, rfl⟩ | ⟨key, rfl⟩ | ⟨keys, rfl⟩ <;> rw [MMKV.exec, hmutate]
    · exact ⟨fun d => (m.withIV iv).setValueLocked P sys d key v.blob, rfl, set_alike hpadded hsynced.data hsys,
        set_drifted hsynced hsys hgood hlt⟩
    · exact ⟨fun d => (m.withIV iv).removeValueForKey P sys d key, rfl, remove_alike hpadded hsynced.data hsys,
        remove_drifted hsynced hsys hgood hlt⟩
    · exact ⟨fun d => (m.withIV iv).removeValuesForKeys P sys d keys, rfl, removeMany_alike hpadded hsynced.data hsys,
        removeMany_drifted hsynced hsys hlt⟩
  obtain ⟨m', iv', hm', heffect⟩ := heffect
  have hstep : w.step P (.call op sys) = ⟨w.disk.apply (call d).writes, .ok (m'.withIV iv')⟩ := by
    simp only [World.step, hinst, hexec, halike.1, hm']
  have hexp : m.enableExpire = s.content.expire := by rw [← hcontent]; rfl
  refine ⟨m', iv', _, by rw [hstep], by rw [hstep]; exact halike.2, heffect.synced, ?_, ?_, ?_⟩
  · rw [heffect.content, hcontent, hseconds]
    rfl
  · rw [heffect.crypt, hcrypt]
    rfl
  · rw [heffect.seconds, hseconds, hexp]
    rfl

end Later

/-! ### Whole runs -/

/-- What a caller may expect of `ReKey`.  If it returns nil, the files reopen with the new key to the map they held.  If it
returns an error, the map is as it was, and whatever is set and removed afterwards, the files reopen with the old key to
the map that the calls made of it. -/
structure ReKeyOK (P : Platform) (sys : Sys) (d : Disk) (m : MMKV) (s : Model) (newKey : Bytes) : Prop where
  done : (m.exec P sys d (.reKey newKey)).err = none → ∀ cfg sys', cfg.readOnly = false →
    cfg.crypt P = (Op.reKey newKey).cryptAfter P s.crypt →
      ∃ m', (World.start P cfg sys' (d.apply (m.exec P sys d (.reKey newKey)).writes)).inst = .ok m' ∧
        m'.content = s.content
  kept : (m.exec P sys d (.reKey newKey)).err ≠ none → (m.exec P sys d (.reKey newKey)).m.content = s.content
  later : (m.exec P sys d (.reKey newKey)).err ≠ none → ∀ acts : List Act,
    let w : World := ⟨d.apply (m.exec P sys d (.reKey newKey)).writes, .ok (m.exec P sys d (.reKey newKey)).m⟩
    Along (Act.Later P) (World.step P) w acts → ∀ cfg sys', cfg.readOnly = false → cfg.crypt P = s.crypt →
      ∃ m', (World.start P cfg sys' (run (World.step P) w acts).disk).inst = .ok m' ∧
        m'.content = (run (Model.step P) s acts).content

section Runs

variable {P : Platform} {sys : Sys} {d : Disk} {m : MMKV}

/-- **`ReKey` is all or nothing** in every state of a run, unless a call of the system fails after its first store or takes
the mapping away. -/
theorem reKey_all_or_nothing {cfg : Config} {sys₀ : Sys} {mi : MetaInfo} {dict : Dict} {acts : List Act}
    (hstored : Stored (cfg.crypt P) d mi dict) (hro : cfg.readOnly = false)
    (hacts : Along (Act.OK P) (World.step P) (World.start P cfg sys₀ d) acts) :
    let w := run (World.step P) (World.start P cfg sys₀ d) acts
    let s := run (Model.step P) ⟨⟨OrdMap.lookup dict, mi.expireEnabled⟩, cfg.crypt P, 0⟩ acts
    ∃ m, w.inst = .ok m ∧ (∀ sys, sys.remap = none → (m.checkLoadData w.disk sys).content = s.content) ∧
      ∀ sys newKey, sys.remap = none →
        ((m.exec P sys w.disk (.reKey newKey)).err = none →
          4 + ((Op.reKey newKey).regionAfter sys w.disk (m.checkLoadData w.disk sys)).length < 2 ^ 32) →
        ((m.exec P sys w.disk (.reKey newKey)).err ≠ none → sys.FailsEarly) → ReKeyOK P sys w.disk m s newKey := by
  obtain ⟨m, h⟩ := run_tracks hstored hro hacts
  intro w s
  obtain ⟨m₀, hinst, -⟩ := h.inst_eq
  refine ⟨m₀, hinst, fun sys hremap => ?_, fun sys newKey hremap hlt hearly => ?_⟩
  · rw [h.checkLoadData hinst hremap]
    exact h.content
  have hexec : m₀.exec P sys w.disk (.reKey newKey) = m.reKey P sys w.disk newKey := by
    rw [MMKV.exec, h.mutate hinst hremap]
  have hcases : (∃ ws iv e, m.reKey P sys w.disk newKey = ⟨ws, m.withIV iv, some e⟩ ∧ Padded w.disk (w.disk.apply ws)) ∨
      m.reKey P sys w.disk newKey = m.reKey P sys.mended w.disk newKey := by
    by_cases herr : (m.reKey P sys w.disk newKey).err = none
    · exact .inr (MMKV.reKey_mended herr)
    · exact MMKV.reKey_early h.synced.data (hearly (by rw [hexec]; exact herr)) newKey
  rcases hcases with ⟨ws, iv, e, hfailed, hpadded⟩ | hdone
  · -- nothing was stored, and the cipher is the old one
    rw [hfailed] at hexec
    have hdrifted : Drifted ⟨w.disk.apply ws, .ok (m.withIV iv)⟩ s :=
      ⟨m, iv, w.disk, rfl, hpadded, h.synced, h.content, h.crypt, h.seconds⟩
    refine ⟨fun herr => ?_, fun _ => ?_, fun _ later hlater cfg' sys' hro' hkey => ?_⟩
    · rw [hexec] at herr
      cases herr
    · rw [hexec]
      exact h.content
    · rw [hexec] at hlater ⊢
      have hsim : ∀ w' s' a, Drifted w' s' ∧ s'.crypt = s.crypt → Act.Later P w' a →
          Drifted (w'.step P a) (s'.step P a) ∧ (s'.step P a).crypt = s.crypt := by
        rintro w' s' a ⟨hdrift, hcrypt⟩ ha
        refine ⟨step_drifted hdrift ha, ?_⟩
        obtain ⟨-, op, sys, rfl, ⟨key, v, rfl⟩ | ⟨key, rfl⟩ | ⟨keys, rfl⟩⟩ := ha <;> exact hcrypt
      obtain ⟨⟨m', iv', d', -, ⟨⟨k, hk⟩, hcrc⟩, hsynced, hcontent, hcrypt, -⟩, hsame⟩ :=
        hlater.simulation hsim ⟨hdrifted, rfl⟩
      have himage := hsynced.image.extend hk (hcrc.trans (List.append_nil _).symm)
      rw [hcrypt, hsame, ← hkey] at himage
      rw [World.start, openMMKV_of_stored (.inl himage) hro']
      refine ⟨_, rfl, ?_⟩
      rw [← hcontent, MMKV.content, MMKV.content, hsynced.enableExpire]
      rfl
  · have herr : (m₀.exec P sys w.disk (.reKey newKey)).err = none := by
      rw [hexec, hdone]
      exact MMKV.reKey_ok h.synced sys.mended_ok newKey
    have hbound := hlt herr
    rw [h.checkLoadData hinst hremap] at hbound
    have heffect : (Op.reKey newKey).Effect P sys.mended w.disk m _ := reKey_effect h.synced sys.mended_ok hbound
    rw [← hdone, ← hexec] at heffect
    refine ⟨fun _ cfg' sys' hro' hkey => ?_, fun herr => absurd heffect.err herr, fun herr => absurd heffect.err herr⟩
    refine heffect.synced.reopens_content hro' (hkey.trans ?_) sys' (heffect.content.trans h.content)
    rw [heffect.crypt, h.crypt]

end Runs

/-! ### A mapping that stays, and a failed flush -/

/-- The data file is made longer, and then its old mapping cannot be given up. -/
def stuck : Sys := { calm with grow := some .munmap }

/-- A region that fills its file: the `ReKey` leaves a file of twice the length, and nothing else. -/
theorem reKey_without_munmap :
    let acts : List Act := [.call (.set [97] (.bool true)) calm, .call (.set [97] filling) calm]
    let w := run (World.step linux) (World.start linux defaults calm ⟨[], []⟩) acts
    let s := run (Model.step linux) ⟨⟨OrdMap.lookup (∅ : Dict), blankMeta.expireEnabled⟩, defaults.crypt linux, 0⟩ acts
    ∃ m, w.inst = .ok m ∧ (m.exec linux stuck w.disk (.reKey [])).err = some (.os .munmap) ∧
      (m.exec linux stuck w.disk (.reKey [])).writes = [.resize 8192] ∧ ReKeyOK linux stuck w.disk m s [] := by
  intro acts w s
  obtain ⟨d, m, hw, hacts, hsynced, hlength, hcrypt, hdict⟩ := synced_filling
  obtain ⟨m', hinst, -, hrekey⟩ := reKey_all_or_nothing (.inr ⟨blank_absent, rfl, rfl⟩) rfl hacts
  rw [show w = _ from hw]
  rw [hw] at hinst hrekey
  cases hinst
  have hgrowth : growth m.data.size m.dict.size (4 + (regionOf m.dict).length + 0) true 0 = some 8192 := by
    rw [hsynced.data, hlength, hdict, length_regionOf_filling]
    exact growth_of_exact_fit (by decide) _
  have htruncate : m.data.truncate linux stuck.grow 8192 = ([.resize 8192], m.data, some (.os .munmap)) := by
    rw [hsynced.data, hlength]
    decide
  have hexec : m.exec linux stuck d (.reKey []) = ⟨[.resize 8192], m, some (.os .munmap)⟩ := by
    rw [MMKV.exec, MMKV.mutate_of_synced hsynced]
    simp only [MMKV.reKey, if_true, MMKV.fullWriteback, MMKV.fullWritebackGrow, MMKV.payload, MMKV.grow, hgrowth, htruncate]
  have hearly : stuck.FailsEarly := ⟨by decide, rfl, rfl⟩
  refine ⟨m, rfl, by rw [hexec], by rw [hexec], hrekey stuck [] rfl (fun herr => ?_) fun _ => hearly⟩
  rw [hexec] at herr
  cases herr

/-- The flush of the data file fails. -/
def unsynced : Sys := { calm with syncData := true }

/-- **A `ReKey` whose flush fails** returns an error and puts the old key back; but the files are under the new key, and
cannot be opened with the old one. -/
theorem failed_sync_loses_map :
    let w := run (World.step linux) (World.start linux defaults calm ⟨[], []⟩) [.call (.set [97] (.bool true)) calm]
    ∃ m, w.inst = .ok m ∧
      let r := m.exec linux unsynced w.disk (.reKey [1])
      r.err = some (.os .msync) ∧ r.m.crypt = none ∧ r.m.dict[([97] : Bytes)]? = some [1] ∧
        (World.start linux defaults calm (w.disk.apply r.writes)).inst.isOk = false := by
  obtain ⟨hrun, -⟩ := run_first_set (P := linux) (show defaults.readOnly = false from rfl) calm_ok [97] (.bool true)
    (by simp) (by decide)
  rw [hrun]
  exact ⟨_, rfl, by decide +kernel⟩

end MmkvGo.Store
