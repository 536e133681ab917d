import MmkvGo.Crash.Append
import MmkvGo.Multi.Stamp

/-!
Files that a killed append left torn: the CRC word of the meta is the new one, the size word the old one.  No load accepts
the region they name, so every load falls back to the last write-back; but the meta stays as it is until the next store
to it, so a process falls back again at each of its accesses.

`LoadsAs` names the files that the accesses work on: those that are there, or, where they are torn, the same data under
the meta of the last write-back.  The calls of an instance store the same into both (`exec_loadsAs`), and a call that
stores to the meta at all makes them the same files (`LoadsAs.apply`).
-/

namespace MmkvGo.Crash

open MmkvGo.Lib MmkvGo.Wire MmkvGo.Crypt MmkvGo.Store MmkvGo.Multi Std

/-- Whether the region fails the CRC that the meta names. -/
def torn (d : Disk) : Bool :=
  match parseMeta d.crc with
  | .error _ => false
  | .ok mi => Crc32.checksum (d.region mi.actualSize) != mi.crcDigest

/-- The data under the meta of the last write-back. -/
def rolledBack (d : Disk) (mi : MetaInfo) : Disk := d.apply (MMKV.metaWords mi.lastCRCDigest mi.lastActualSize)

/-- The files are torn, beyond the last write-back. -/
structure Lapsed (d : Disk) (mi : MetaInfo) : Prop where
  parse : parseMeta d.crc = .ok mi
  version : mi.version = versionFlag
  fits : 4 + mi.actualSize.toNat ≤ d.data.length
  bounded : 4 + mi.actualSize.toNat < 2 ^ 32
  mismatch : Crc32.checksum (d.region mi.actualSize) ≠ mi.crcDigest
  le : mi.lastActualSize.toNat ≤ mi.actualSize.toNat

/-- Every access to the files `d` works as if the files were these, under this meta. -/
inductive LoadsAs (d : Disk) : Disk → MetaInfo → Prop where
  | whole {mi : MetaInfo} : LoadsAs d d mi
  | lapsed {mi : MetaInfo} (h : Lapsed d mi) : LoadsAs d (rolledBack d mi) (lastConfirmed mi)

section Rolled

variable {crypt : Option Cipher} {d d' : Disk} {mi : MetaInfo} {dict : Dict}

lemma parseMeta_rolledBack (h : parseMeta d.crc = .ok mi) :
    parseMeta (rolledBack d mi).crc = .ok (lastConfirmed mi) := parseMeta_putUint32_crc_size h _ _

lemma region_rolledBack (d : Disk) (mi : MetaInfo) (size : UInt32) : (rolledBack d mi).region size = d.region size := rfl

lemma torn_of_parse (h : parseMeta d.crc = .ok mi) :
    torn d = true ↔ Crc32.checksum (d.region mi.actualSize) ≠ mi.crcDigest := by
  rw [torn, h]
  exact bne_iff_ne

lemma Lapsed.torn (h : Lapsed d mi) : torn d = true := (torn_of_parse h.parse).2 h.mismatch

lemma torn_of_image (h : Image crypt d mi dict) : torn d = false := by
  rw [Bool.eq_false_iff, ne_eq, torn_of_parse h.parse, not_not]
  exact h.crc

lemma LoadsAs.data (h : LoadsAs d d' mi) : d'.data = d.data := by cases h <;> rfl

lemma LoadsAs.sequenceOf_eq (h : LoadsAs d d' mi) : sequenceOf d' = sequenceOf d := by
  cases h with
  | whole => rfl
  | lapsed h =>
    rw [sequenceOf, sequenceOf, parseMeta_rolledBack h.parse, h.parse]
    rfl

lemma image_rolledBack {s : Snapshot} (h : Lapsed d mi) (hlast : Confirmed none mi s)
    (hregion : d.region mi.lastActualSize = s.region) (hdec : parseDict s.region = .ok dict) (hstamped : Stamped mi dict) :
    Image none (rolledBack d mi) (lastConfirmed mi) dict := by
  have hle := h.le
  have hfits := h.fits
  refine ⟨⟨parseMeta_rolledBack h.parse, .inl h.version, ?_, hlast.bounded, ?_⟩, ?_, hstamped⟩
  · change 4 + mi.lastActualSize.toNat ≤ d.data.length
    omega
  · rw [region_rolledBack, show (lastConfirmed mi).actualSize = mi.lastActualSize from rfl, hregion, hlast.crc]
    rfl
  · rw [region_rolledBack, show (lastConfirmed mi).actualSize = mi.lastActualSize from rfl, hregion]
    exact hdec

end Rolled

/-! ### The probe -/

section Probe

variable {crypt : Option Cipher} {d d' : Disk} {mi : MetaInfo} {dict : Dict} {m : MMKV} {k : ℕ} {restored : Bool}
  {sys : Sys}

lemma Lapsed.loadData (h : Lapsed d mi) (himage : Image m.crypt (rolledBack d mi) (lastConfirmed mi) dict)
    (hdata : m.data = ⟨d.data.length, true⟩) : m.loadData d = (m.loaded (lastConfirmed mi) dict, none) := by
  have hfits := h.fits
  have hbounded := h.bounded
  have hle := h.le
  have hreject : (m.withMeta mi).accepts d mi.actualSize mi.crcDigest = false := by
    rw [Bool.eq_false_iff, ne_eq, MMKV.accepts_iff (m := m.withMeta mi) (n := d.data.length) hdata hbounded]
    exact fun haccept => h.mismatch haccept.2
  have hcrc := himage.crc
  have hdec := himage.decoded
  rw [region_rolledBack] at hcrc hdec
  exact MMKV.loadData_lastConfirmed h.parse (.inl h.version) hdata hreject (by omega) (by omega) hcrc hdec

lemma Lapsed.reload_remap (h : Lapsed d mi) (himage : Image crypt (rolledBack d mi) (lastConfirmed mi) dict)
    (hs : Shared crypt m) (hload : m.needLoad = false) (hsys : sys.remap = none) :
    UpToDate crypt (rolledBack d mi) (lastConfirmed mi) dict m (m.reloadBestEffort d sys true) := by
  have hloaded : (m.remapped d.data.length).loadData d = _ := h.loadData (by rw [← hs.crypt] at himage; exact himage) rfl
  have hreload : m.reloadBestEffort d sys true = (m.remapped d.data.length).loaded (lastConfirmed mi) dict := by
    rw [MMKV.remapped] at hloaded ⊢
    rw [MMKV.reloadBestEffort, if_pos rfl]
    simp only [hsys, MemoryFile.remap_ok, MMKV.loadBestEffort, hloaded]
  rw [hreload]
  exact upToDate_loaded himage ⟨hs.crypt, hs.multiProcess, hs.closed, hs.needFullWriteback⟩ hload rfl rfl rfl

lemma Lapsed.reload (h : Lapsed d mi) (himage : Image crypt (rolledBack d mi) (lastConfirmed mi) dict)
    (hs : Shared crypt m) (hload : m.needLoad = false) (hdata : m.data = ⟨d.data.length, true⟩) :
    UpToDate crypt (rolledBack d mi) (lastConfirmed mi) dict m (m.reloadBestEffort d sys false) := by
  have hloaded := h.loadData (by rw [← hs.crypt] at himage; exact himage) hdata
  rw [MMKV.reloadBestEffort, if_neg (by decide), MMKV.loadBestEffort, hloaded]
  exact upToDate_loaded himage hs hload hdata rfl rfl

/-- An instance that has the last write-back does not have the words of the torn meta. -/
lemma Lapsed.words_ne (h : Lapsed d mi) (himage : Image crypt (rolledBack d mi) (lastConfirmed mi) dict)
    (hf : Follows crypt (rolledBack d mi) (lastConfirmed mi) m 0 restored) (hload : m.needLoad = false) :
    mi.crcDigest ≠ m.crcDigest ∨ mi.actualSize ≠ m.actualSize := by
  by_contra hsame
  rw [not_or, not_not, not_not] at hsame
  obtain ⟨hcrc, hsize⟩ := hsame
  have hle : m.actualSize.toNat ≤ mi.lastActualSize.toNat := hf.actualSize hload rfl
  have hlast : mi.lastActualSize = mi.actualSize := by
    have := h.le
    rw [hsize] at this
    rw [hsize]
    exact UInt32.toNat_inj.1 (by omega)
  have hsynced := hf.synced hload rfl (hsize.symm.trans hlast.symm)
  have hinfo : m.info = lastConfirmed mi := Except.ok.inj (hsynced.image.parse.symm.trans himage.parse)
  have hdigest : mi.crcDigest = mi.lastCRCDigest := by
    rw [hcrc, show m.crcDigest = m.info.crcDigest from hsynced.crcDigest, hinfo]
    rfl
  refine h.mismatch ?_
  rw [hdigest, ← hlast]
  exact himage.crc

theorem LoadsAs.upToDate (h : LoadsAs d d' mi) (himage : Image crypt d' mi dict) (hf : Follows crypt d' mi m k restored)
    (htells : ∀ mi₀, parseMeta d.crc = .ok mi₀ → Tells d mi₀ m k) (hsys : sys.remap = none) :
    UpToDate crypt d' mi dict m (m.checkLoadData d sys) := by
  cases h with
  | whole => exact checkLoadData_upToDate himage hf.toShared (hf.recognises (htells mi himage.parse)) hsys
  | @lapsed mi₀ h =>
    have hs := hf.toShared
    by_cases hload : m.needLoad = true
    · rw [MMKV.checkLoadData, if_pos hload]
      have hup := h.reload_remap (m := { m with needLoad := false }) himage
        ⟨hs.crypt, hs.multiProcess, hs.closed, hs.needFullWriteback⟩ rfl hsys
      exact ⟨hup.toShared, hup.synced, hup.info, hup.dict, hup.expiredSeconds, hup.readOnly⟩
    have hfalse : m.needLoad = false := by simpa using hload
    rw [MMKV.checkLoadData, if_neg hload, hs.multiProcess, h.parse]
    simp only [Bool.not_true, Bool.false_eq_true, if_false]
    by_cases hseq : mi₀.sequence = m.info.sequence
    · obtain ⟨hdata, hnew⟩ : m.data = ⟨d.data.length, true⟩ ∧
          (mi₀.crcDigest ≠ m.crcDigest ∨ mi₀.actualSize ≠ m.actualSize) := by
        rcases htells mi₀ h.parse with ht | rfl | ht | ht
        · exact absurd ht hload
        · exact ⟨hf.mapping hfalse rfl, h.words_ne himage hf hfalse⟩
        · exact absurd hseq ht
        · exact ht
      rw [if_neg (not_not.2 hseq), if_pos hnew]
      exact (h.reload himage hs hfalse hdata).notified
    · rw [if_pos hseq]
      exact (h.reload_remap himage hs hfalse hsys).notified

end Probe

/-! ### What a call stores -/

section Congr

variable {P : Platform} {sys : Sys} {d d' : Disk} {m : MMKV}

lemma data_apply_congr (ws : List Write) {d d' : Disk} (h : d'.data = d.data) : (d'.apply ws).data = (d.apply ws).data := by
  induction ws generalizing d d' with
  | nil => exact h
  | cons w ws ih =>
    refine ih ?_
    cases w <;> simp only [Disk.write, h]

lemma memory_congr (h : d'.data = d.data) (mf : MemoryFile) : mf.memory d' = mf.memory d := by
  rw [MemoryFile.memory, MemoryFile.memory, h]

lemma memory_apply_congr (h : d'.data = d.data) (mf : MemoryFile) (ws : List Write) :
    mf.memory (d'.apply ws) = mf.memory (d.apply ws) := memory_congr (data_apply_congr ws h) mf

lemma fullWritebackGrow_congr (h : d'.data = d.data) (needSync : Bool) (incoming : ℕ) :
    m.fullWritebackGrow P sys d' needSync incoming = m.fullWritebackGrow P sys d needSync incoming := by
  simp only [MMKV.fullWritebackGrow, memory_apply_congr h]

lemma setValueLocked_congr (h : d'.data = d.data) (key blob : Bytes) :
    m.setValueLocked P sys d' key blob = m.setValueLocked P sys d key blob := by
  simp only [MMKV.setValueLocked, MMKV.setBlob, MMKV.overrideRaw, memory_apply_congr h, fullWritebackGrow_congr h]

lemma removeValueForKey_congr (h : d'.data = d.data) (key : Bytes) :
    m.removeValueForKey P sys d' key = m.removeValueForKey P sys d key := by
  simp only [MMKV.removeValueForKey, MMKV.fullWriteback, fullWritebackGrow_congr h]

lemma decodeRegion_congr (h : d'.data = d.data) (actual crc : UInt32) :
    m.decodeRegion d' actual crc = m.decodeRegion d actual crc := by
  rw [MMKV.decodeRegion, MMKV.decodeRegion, MMKV.region, MMKV.region, memory_congr h]

lemma shrink_congr (h : d'.data = d.data) : m.shrink P sys d' = m.shrink P sys d := by
  simp only [MMKV.shrink, decodeRegion_congr (data_apply_congr _ h)]

lemma trim_congr (h : d'.data = d.data) : m.trim P sys d' = m.trim P sys d := by
  simp only [MMKV.trim, MMKV.fullWriteback, fullWritebackGrow_congr h, shrink_congr (data_apply_congr _ h)]

/-- **A call on files that load as others** is the call of the instance after the probe, on those. -/
theorem exec_loadsAs {crypt : Option Cipher} {op : Op} (h : d'.data = d.data) (hs : Shared crypt m)
    (hro : m.readOnly = false) (hsynced : Synced d' (m.checkLoadData d sys)) (hop : accesses op = true) :
    m.exec P sys d op = (m.checkLoadData d sys).exec P sys d' op := by
  have hmutate : ∀ body body' : MMKV → Result, (∀ m, body' m = body m) →
      m.mutate sys d body = (m.checkLoadData d sys).mutate sys d' body' := by
    intro body body' hbody
    rw [MMKV.mutate_of_synced hsynced, hbody]
    simp [MMKV.mutate, hs.closed, hro]
  cases op with
  | sync | clearMemoryCache | enableCompareBeforeSet | disableCompareBeforeSet => cases hop
  | _ =>
    simp only [MMKV.exec]
    refine hmutate _ _ fun _ => ?_
    simp only [setValueLocked_congr h, removeValueForKey_congr h, MMKV.removeValuesForKeys, trim_congr h,
      MMKV.enableAutoKeyExpire, MMKV.disableAutoKeyExpire, MMKV.reKey, MMKV.fullWriteback, fullWritebackGrow_congr h]

lemma putUint32_words (file : Bytes) (crc size crc' size' : UInt32) :
    putUint32 (putUint32 (putUint32 (putUint32 file offCRC crc) offActualSize size) offCRC crc') offActualSize size' =
      putUint32 (putUint32 file offCRC crc') offActualSize size' := by
  have hlen : offCRC + (writeRawLittleEndian32 crc').length ≤ offActualSize := by
    rw [length_writeRawLittleEndian32]
    decide
  simp only [putUint32]
  rw [← patch_comm hlen, patch_patch_self (by simp), patch_patch_self (by simp)]

/-- **Any store to the meta** overwrites what the torn files have instead of the last write-back. -/
lemma apply_rolledBack (mi : MetaInfo) {ws : List Write} (hshaped : Shaped ws) (hlen : metaSize ≤ d.crc.length) :
    DataOnly ws ∨ (rolledBack d mi).apply ws = d.apply ws := by
  obtain ⟨pre, part, post, rfl, hpre, hpart, hpost⟩ := hshaped
  -- the stores before leave the two meta files as they were
  have hdata : ((rolledBack d mi).apply pre).data = (d.apply pre).data := data_apply_congr pre rfl
  have hcrc := crc_apply_dataOnly hpre (rolledBack d mi)
  have hcrc' := crc_apply_dataOnly hpre d
  rw [Disk.apply_append, Disk.apply_append, Disk.apply_append, Disk.apply_append]
  rcases hpart with hpart | ⟨crc, size, hpart⟩ | ⟨mi', hpart⟩ <;> rw [hpart]
  · exact .inl (by rw [List.append_nil]; exact hpre.append hpost)
  · right
    rw [MMKV.apply_metaWords, MMKV.apply_metaWords, hdata, hcrc, hcrc', rolledBack, MMKV.apply_metaWords, putUint32_words]
  · right
    rw [Disk.apply_crcWrites, Disk.apply_crcWrites, hdata, hcrc, hcrc', rolledBack, MMKV.apply_metaWords,
      patch_eq (by simpa using hlen), patch_eq (by simpa using hlen)]
    simp only [putUint32]
    rw [drop_patch_of_le _ (by simp; decide), drop_patch_of_le _ (by simp; decide)]
    rfl

end Congr

section Files

variable {P : Platform} {crypt : Option Cipher} {d d' : Disk} {mi mi' : MetaInfo} {dict dict' : Dict}

/-- **The files after a call**: a call that stores to the meta makes them the files that were accessed, so where they are
torn after it, they were torn before and nothing was stored. -/
theorem LoadsAs.apply {ws : List Write} (h : LoadsAs d d' mi) (hshaped : Shaped ws)
    (himage : Image crypt (d'.apply ws) mi' dict') (hev : Evolves true d' mi (d'.apply ws) mi') :
    LoadsAs (d.apply ws) (d'.apply ws) mi' ∧
      (Crash.torn (d.apply ws) = true → Crash.torn d = true ∧ d'.apply ws = d') := by
  have hwhole : Crash.torn (d'.apply ws) = false := torn_of_image himage
  cases h with
  | whole => exact ⟨.whole, fun ht => absurd ht (by rw [hwhole]; decide)⟩
  | @lapsed mi₀ h =>
    rcases apply_rolledBack mi₀ hshaped (le_length_of_parseMeta h.parse) with hdata | heq
    · have hcrc := crc_apply_dataOnly hdata (rolledBack d mi₀)
      have hsame : mi' = lastConfirmed mi₀ := by
        have hparse := himage.parse
        rw [hcrc, parseMeta_rolledBack h.parse] at hparse
        exact (Except.ok.inj hparse).symm
      cases hev with
      | unchanged hd hmi =>
        have hfile : (d.apply ws).data = d.data := by
          have hcongr : (d.apply ws).data = ((rolledBack d mi₀).apply ws).data := data_apply_congr ws rfl
          rw [hcongr, hd]
          rfl
        have hdisk : d.apply ws = d := by
          rw [show d.apply ws = ⟨(d.apply ws).data, (d.apply ws).crc⟩ from rfl, hfile, crc_apply_dataOnly hdata d]
        rw [hdisk, hd, hmi]
        exact ⟨.lapsed h, fun ht => ⟨ht, rfl⟩⟩
      | appended pair hpair _ _ hsize _ =>
        have hpos := List.length_pos_iff.2 hpair
        rw [hsame] at hsize
        omega
      | overridden hsingle _ _ => cases hsingle
      | rewritten hseq _ _ =>
        rw [hsame] at hseq
        simp at hseq
    · rw [heq] at hwhole ⊢
      exact ⟨.whole, fun ht => absurd ht (by rw [hwhole]; decide)⟩

lemma Lapsed.opened (h : Lapsed d mi) (P : Platform) (cfg : Config) :
    Lapsed (d.apply (cfg.openStores P d)) mi ∧
      (rolledBack d mi).apply (cfg.openStores P (rolledBack d mi)) = rolledBack (d.apply (cfg.openStores P d)) mi := by
  have hfits := h.fits
  have hle := le_length_of_parseMeta h.parse
  constructor
  · obtain ⟨a, b, hdata, hcrc⟩ := cfg.apply_openStores P d
    refine ⟨parseMeta_append h.parse hcrc, h.version, ?_, h.bounded, ?_, h.le⟩
    · rw [hdata, List.length_append]
      omega
    · rw [Disk.region_append hdata h.fits]
      exact h.mismatch
  · rw [Config.openStores, Config.openStores]
    split
    · rfl
    · have hcrc : ∀ zs : Bytes, (rolledBack ⟨d.data, d.crc ++ zs⟩ mi).crc = (rolledBack d mi).crc ++ zs := by
        intro zs
        have hroom : offCRC + 4 ≤ d.crc.length ∧ offActualSize + 4 ≤ d.crc.length := by
          simp only [metaSize, offCRC, offActualSize] at *
          omega
        simp only [rolledBack, MMKV.apply_metaWords, putUint32]
        rw [patch_append_left _ (by simpa using hroom.1), patch_append_left _ (by simpa using hroom.2)]
      have hlenc : (rolledBack d mi).crc.length = d.crc.length := by simp [rolledBack, MMKV.apply_metaWords]
      rw [apply_openWrites, apply_openWrites, hlenc, ← hcrc]
      rfl

lemma LoadsAs.length_crc (h : LoadsAs d d' mi) : d'.crc.length = d.crc.length := by
  cases h with
  | whole => rfl
  | lapsed => simp [rolledBack, MMKV.apply_metaWords]

/-- **Opening**, torn files as others, for writing or for reading only. -/
theorem LoadsAs.opened {cfg : Config} (h : LoadsAs d d' mi) (hstored : Stored (cfg.crypt P) d' mi dict)
    (hro : cfg.readOnly = true → 4 ≤ d.data.length ∧ metaSize ≤ d.crc.length) (sys : Sys) :
    openMMKV P sys cfg d = (cfg.openStores P d, .ok (cfg.opened P (d'.apply (cfg.openStores P d')) mi dict)) ∧
      LoadsAs (d.apply (cfg.openStores P d)) (d'.apply (cfg.openStores P d')) mi ∧
      (Crash.torn (d.apply (cfg.openStores P d)) = true → Crash.torn d = true) := by
  have hro' : cfg.readOnly = true → 4 ≤ d'.data.length ∧ metaSize ≤ d'.crc.length := by
    rw [h.data, h.length_crc]
    exact hro
  obtain ⟨himage, hopen, -⟩ := hstored.opens hro' sys
  cases h with
  | whole => exact ⟨hopen, .whole, fun ht => absurd ht (by rw [torn_of_image himage]; decide)⟩
  | @lapsed mi₀ h =>
    obtain ⟨hlapsed, heq⟩ := h.opened P cfg
    have hopened (t : Disk) : cfg.opened P (rolledBack t mi₀) (lastConfirmed mi₀) dict =
        (cfg.instance P ⟨t.data.length, true⟩).loaded (lastConfirmed mi₀) dict := rfl
    have hlen : cfg.readOnly = true → 0 < d.data.length ∧ 0 < d.crc.length := by
      intro hc
      have := hro hc
      rw [metaSize] at this
      omega
    rw [heq] at himage ⊢
    rw [hopened]
    exact ⟨openMMKV_of_load sys hlen (hlapsed.loadData himage rfl) rfl, .lapsed hlapsed, fun _ => h.torn⟩

end Files

end MmkvGo.Crash
