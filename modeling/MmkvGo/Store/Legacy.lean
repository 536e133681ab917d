import MmkvGo.Store.Agree
import MmkvGo.Store.Leaves
import MmkvGo.Store.Size

/-!
Files of the format versions 0 to 3.  The fast paths ask for version 4, so the first call that writes rewrites the whole
store under a meta of that version.  `Carries` is what such a rewrite leaves behind, in a file of whatever size, and
`upgraded_iff` says when it can be read again: when 32 bits can address the region.
-/

namespace MmkvGo.Store

open MmkvGo.Lib MmkvGo.Wire MmkvGo.Crypt Std

/-- Files of an older version with no flag set, whose region is intact and parses to `dict`. -/
structure Legacy (d : Disk) (mi : MetaInfo) (dict : Dict) : Prop extends Intact d mi where
  legacy : mi.version < versionFlag
  flags : mi.flags = 0
  decoded : parseDict (d.region (d.actualSize mi)) = .ok dict

/-- The calls that write to a store that holds `dict`. -/
def Op.Rewrites (dict : Dict) : Op → Prop
  | .set key _ => key ≠ []
  | .removeValueForKey key => dict.contains key = true
  | .removeValuesForKeys keys => ∃ k ∈ keys, dict.contains k = true
  | .trim | .enableAutoKeyExpire _ => True
  | _ => False

/-- The map with the call's one change; the timestamp of a value that never expires is zero. -/
def Op.change (dict : Dict) : Op → Dict
  | .set key v => dict.insert key v.blob
  | .removeValueForKey key => dict.erase key
  | .removeValuesForKeys keys => keys.foldl (fun dict k => dict.erase k) dict
  | .enableAutoKeyExpire _ => dict.map fun _ v => v ++ List.replicate 4 0
  | _ => dict

/-- Whether the call switches expiration on. -/
def Op.expires : Op → Bool
  | .enableAutoKeyExpire _ => true
  | _ => false

/-- The files are of version 4 and hold `c`, for an instance and for a reader that opens them. -/
structure Upgraded (P : Platform) (d : Disk) (c : Content) : Prop where
  version : ∃ mi, parseMeta d.crc = .ok mi ∧ mi.version = versionFlag
  reopens : ∀ (cfg : Config) (sys : Sys), cfg.Plain → ∃ m, (World.start P cfg sys d).inst = .ok m ∧ m.content = c
  reads : ∃ r, Reader.openReader d none = .ok r ∧ (⟨OrdMap.lookup r.snap.m, r.snap.expire⟩ : Content) = c

/-! ### What a rewrite leaves behind -/

/-- The meta is of version 4 and names the region of `dict`, as far as 32 bits can. -/
structure Carries (d : Disk) (mi : MetaInfo) (dict : Dict) : Prop where
  parse : parseMeta d.crc = .ok mi
  version : mi.version = versionFlag
  readable : 4 + (regionOf dict).length < 2 ^ 32 →
    Readable d mi ∧ parseDict (d.region mi.actualSize) = .ok dict
  cut : 2 ^ 32 ≤ 4 + (regionOf dict).length → mi.actualSize = UInt32.ofNat (regionOf dict).length

section Carries

variable {P : Platform} {sys : Sys} {d : Disk} {m : MMKV} {mi : MetaInfo} {dict : Dict}

/-- What a reader parses: the bytes that the size names, the sum with the header a 32-bit one. -/
lemma parseDict_of_buildSnapshot {snap : Snapshot} (hparse : parseMeta d.crc = .ok mi)
    (hver : mi.version = versionFlag) (h : buildSnapshot none d = .ok snap) :
    parseDict (slice d.data 4 (4 + mi.actualSize).toNat) = .ok snap.m := by
  have hactual : (if versionActualSize ≤ mi.version then mi.actualSize
      else if 4 ≤ d.data.length then getUint32 d.data 0 else 0) = mi.actualSize := by
    rw [hver, if_pos (by decide)]
  rw [buildSnapshot, hparse] at h
  simp only [hactual] at h
  split at h
  · cases h
  split at h
  · cases h
  split at h
  · cases h
  split at h
  · cases h
  next hdec =>
  cases h
  exact hdec

/-- **A region beyond 32 bits is not read back.** -/
theorem Carries.not_reads (h : Carries d mi dict) (hbig : 2 ^ 32 ≤ 4 + (regionOf dict).length) {r : Reader}
    (hr : Reader.openReader d none = .ok r) : r.snap.m ≠ dict := by
  rintro rfl
  have hsnap := buildSnapshot_of_openReader hr
  have hlen := length_regionOf_parseDict (parseDict_of_buildSnapshot h.parse h.version hsnap)
  have hslice := length_slice_le d.data 4 (4 + mi.actualSize).toNat
  have hsum : (4 + mi.actualSize).toNat = (4 + (regionOf r.snap.m).length) % 2 ^ 32 := by
    rw [h.cut hbig, UInt32.toNat_add, UInt32.toNat_ofNat', Nat.add_mod_mod]
    rfl
  omega

/-- **The files can be read again when 32 bits can address the region**, and only then. -/
theorem upgraded_iff (h : Carries d mi dict) :
    Upgraded P d ⟨OrdMap.lookup dict, mi.expireEnabled⟩ ↔ 4 + (regionOf dict).length < 2 ^ 32 := by
  constructor
  · intro hup
    by_contra hbig
    obtain ⟨r, hr, hc⟩ := hup.reads
    exact h.not_reads (by omega) hr (OrdMap.lookup_inj (congrArg Content.slots hc))
  · intro hlen
    obtain ⟨hreadable, hdec⟩ := h.readable hlen
    refine ⟨⟨mi, h.parse, h.version⟩, fun cfg sys hcfg => ?_, ?_⟩
    · have hdec' : parseDict (plainOf (cfg.crypt P) mi.iv (d.region mi.actualSize)) = .ok dict := by
        rw [hcfg.crypt_eq]
        exact hdec
      rw [World.start, openMMKV_of_readable sys hreadable hcfg.readOnly hdec']
      exact ⟨_, rfl, rfl⟩
    · have hdec' : parseDict (plainOf none mi.iv (d.region mi.actualSize)) = .ok dict := hdec
      exact ⟨_, (openReader_of_readable hreadable hdec').1, rfl⟩

/-- **A full write-back that returns nil**, of a map whatever its size. -/
theorem carries_fullWritebackGrow {needSync : Bool} {incoming : ℕ} (hdata : m.data = ⟨d.data.length, true⟩)
    (hcrc : metaSize ≤ d.crc.length) (hcrypt : m.crypt = none) (hwf : WF m.dict)
    (herr : (m.fullWritebackGrow P sys d needSync incoming).err = none) :
    ∃ mi, Carries (d.apply (m.fullWritebackGrow P sys d needSync incoming).writes) mi m.dict ∧
      mi.flags = m.info.flags := by
  rw [MMKV.fullWritebackGrow_mended herr]
  have hleaves := MMKV.leaves_fullWritebackGrow (P := P) hdata hcrc sys.mended_ok needSync incoming
  rw [hcrypt] at hleaves
  refine ⟨_, ⟨hleaves.parse, hleaves.version, fun hlen => ?_, fun _ => hleaves.actualSize⟩, rfl⟩
  obtain ⟨hreadable, hplain⟩ := hleaves.readable hlen
  exact ⟨hreadable, (congrArg parseDict hplain).trans (parseDict_regionOf hwf (by omega))⟩

lemma Carries.resize {n : ℕ} (h : Carries d mi dict)
    (hn : 4 + (regionOf dict).length < 2 ^ 32 → 4 + mi.actualSize.toNat ≤ n) :
    Carries { d with data := resize 0 d.data n } mi dict := by
  refine ⟨h.parse, h.version, fun hlen => ?_, h.cut⟩
  obtain ⟨hreadable, hdec⟩ := h.readable hlen
  have hregion : ({ d with data := Lib.resize 0 d.data n } : Disk).region mi.actualSize = d.region mi.actualSize :=
    slice_resize (hn hlen) hreadable.fits
  refine ⟨⟨h.parse, .inl h.version, ?_, hreadable.bounded, ?_⟩, ?_⟩
  · rw [length_resize]
    exact hn hlen
  · rw [hregion]
    exact hreadable.crc
  · rw [hregion]
    exact hdec

theorem carries_trim (hdata : m.data = ⟨d.data.length, true⟩) (hcrc : metaSize ≤ d.crc.length)
    (hcrypt : m.crypt = none) (hwf : WF m.dict) (hempty : m.actualSize = 0 → m.dict = ∅)
    (herr : (m.trim P sys d).err = none) :
    ∃ mi, Carries (d.apply (m.trim P sys d).writes) mi m.dict ∧ mi.flags = m.info.flags := by
  have hmended := MMKV.trim_mended herr
  have hsys := sys.mended_ok
  rw [hmended] at herr ⊢
  rw [MMKV.trim] at herr ⊢
  split
  · next h0 =>
    obtain ⟨mi, hr⟩ := MMKV.clearAllLocked_spec (P := P) hdata hcrc hsys
    rw [hempty h0]
    refine ⟨mi, ⟨hr.image.parse, hr.version, fun _ => ⟨hr.image.readable, ?_⟩, fun hbig => ?_⟩, hr.flags⟩
    · have hdec := hr.image.decoded
      rw [hcrypt] at hdec
      exact hdec
    · exact absurd hbig (by decide)
  next h0 =>
  simp only [h0, if_false] at herr
  cases hback : (m.fullWriteback P sys.mended d).err with
  | some e => simp [hback] at herr
  | none =>
    obtain ⟨mi, hcarries, hflags⟩ := carries_fullWritebackGrow hdata hcrc hcrypt hwf hback
    change Carries (d.apply (m.fullWriteback P sys.mended d).writes) mi m.dict at hcarries
    -- the shrink gives the file a size that still holds the region, if the region can be read at all
    have hwhole : (m.fullWriteback P sys.mended d).m.data =
        ⟨(d.apply (m.fullWriteback P sys.mended d).writes).data.length, true⟩ := MMKV.fullWritebackGrow_data hdata hsys
    have hshrink := MMKV.shrink_writes (P := P) hwhole hsys
    have hn : 4 + (regionOf m.dict).length < 2 ^ 32 → 4 + mi.actualSize.toNat ≤
        shrunkSize P (d.apply (m.fullWriteback P sys.mended d).writes).data.length
          (m.fullWriteback P sys.mended d).m.actualSize := by
      intro hlen
      obtain ⟨hreadable, -⟩ := hcarries.readable hlen
      obtain ⟨-, hm, hsealed, -, -, -⟩ := MMKV.fullWritebackGrow_decoded (P := P) hdata hcrc hwf hsys hlen true 0
      change (m.fullWriteback P sys.mended d).m = _ at hm
      obtain rfl := Except.ok.inj (hcarries.parse.symm.trans hsealed.parse)
      rw [hm]
      exact le_shrunkSize P hreadable.fits
    simp only [hback, hshrink]
    rw [Disk.apply_append, Disk.apply_resizeWrites]
    exact ⟨mi, hcarries.resize hn, hflags⟩

end Carries

/-! ### The first call that writes -/

/-- An instance that has the legacy files `d` open. -/
structure MMKV.OnLegacy (d : Disk) (m : MMKV) : Prop where
  data : m.data = ⟨d.data.length, true⟩
  crcLength : metaSize ≤ d.crc.length
  crypt : m.crypt = none
  wf : WF m.dict
  empty : m.actualSize = 0 → m.dict = ∅
  legacy : m.info.version < versionFlag
  flags : m.info.flags = 0
  expire : m.enableExpire = false
  compare : m.compareBeforeSet = false
  multiProcess : m.multiProcess = false
  needLoad : m.needLoad = false
  closed : m.closed = false
  readOnly : m.readOnly = false

section Legacy

variable {P : Platform} {sys : Sys} {d : Disk} {m : MMKV} {mi : MetaInfo} {dict : Dict} {cfg : Config}

namespace MMKV.OnLegacy

lemma checkLoadData (h : m.OnLegacy d) : m.checkLoadData d sys = m := by
  simp [MMKV.checkLoadData, h.needLoad, h.multiProcess]

lemma mutate (h : m.OnLegacy d) (body : MMKV → Result) : m.mutate sys d body = body m := by
  simp [MMKV.mutate, h.closed, h.readOnly, h.checkLoadData]

lemma version_ge (h : m.OnLegacy d) : decide (versionFlag ≤ m.info.version) = false :=
  decide_eq_false (UInt32.not_le.2 h.legacy)

lemma setBlob_eq (h : m.OnLegacy d) (key blob : Bytes) :
    m.setBlob P sys d key blob = ({ m with dict := m.dict.insert key blob } : MMKV).fullWritebackGrow P sys d
      (!m.dict.isEmpty) (pairBytes key blob).length :=
  setBlob_of_not_fastOK (by rw [fastOK, h.version_ge, Bool.and_false])

lemma removeValueForKey_eq (h : m.OnLegacy d) {key : Bytes} (hc : m.dict.contains key = true) :
    m.removeValueForKey P sys d key = ({ m with dict := m.dict.erase key } : MMKV).fullWriteback P sys d := by
  have htomb : ({ m with dict := m.dict.erase key } : MMKV).appendsTombstone (pairBytes key []) = false := by
    have hver : decide (versionFlag ≤ ({ m with dict := m.dict.erase key } : MMKV).info.version) = false := h.version_ge
    rw [appendsTombstone, hver, Bool.and_false, Bool.false_and, Bool.false_and]
  simp [removeValueForKey, hc, htomb]

lemma removeValuesForKeys_eq {keys : List Bytes} (hc : ∃ k ∈ keys, m.dict.contains k = true) :
    m.removeValuesForKeys P sys d keys =
      ({ m with dict := keys.foldl (fun dict k => dict.erase k) m.dict } : MMKV).fullWriteback P sys d := by
  obtain ⟨k, hk, hmem⟩ := hc
  have hall : (keys.all fun k => !m.dict.contains k) = false := by
    rw [List.all_eq_false]
    exact ⟨k, hk, by simp [hmem]⟩
  rw [removeValuesForKeys, hall]
  rfl

lemma expireEnabled (h : m.OnLegacy d) : m.info.expireEnabled = false := by
  rw [MetaInfo.expireEnabled, h.flags]
  decide

/-- **The first call that writes** rewrites the files, whichever it is. -/
theorem carries_exec (h : m.OnLegacy d) {op : Op} (hop : op.Rewrites m.dict)
    (herr : (m.exec P sys d op).err = none) :
    ∃ mi, Carries (d.apply (m.exec P sys d op).writes) mi (op.change m.dict) ∧ mi.expireEnabled = op.expires := by
  have hoff : ∀ {mi : MetaInfo}, mi.flags = m.info.flags → mi.expireEnabled = false := fun hflags =>
    (expireEnabled_congr hflags).trans h.expireEnabled
  cases op with
  | set key v =>
    rw [exec, h.mutate, setValueLocked_eq h.compare h.expire, h.setBlob_eq] at herr ⊢
    obtain ⟨mi, hcarries, hflags⟩ := carries_fullWritebackGrow (m := { m with dict := m.dict.insert key v.blob }) h.data
      h.crcLength h.crypt (h.wf.insert hop v.blob_ne_nil) herr
    exact ⟨mi, hcarries, hoff hflags⟩
  | removeValueForKey key =>
    rw [exec, h.mutate, h.removeValueForKey_eq hop] at herr ⊢
    obtain ⟨mi, hcarries, hflags⟩ := carries_fullWritebackGrow (m := { m with dict := m.dict.erase key }) h.data
      h.crcLength h.crypt (h.wf.erase key) herr
    exact ⟨mi, hcarries, hoff hflags⟩
  | removeValuesForKeys keys =>
    rw [exec, h.mutate, removeValuesForKeys_eq hop] at herr ⊢
    obtain ⟨mi, hcarries, hflags⟩ := carries_fullWritebackGrow
      (m := { m with dict := keys.foldl (fun dict k => dict.erase k) m.dict }) h.data h.crcLength h.crypt
      (h.wf.foldl_erase keys) herr
    exact ⟨mi, hcarries, hoff hflags⟩
  | trim =>
    rw [exec, h.mutate] at herr ⊢
    obtain ⟨mi, hcarries, hflags⟩ := carries_trim h.data h.crcLength h.crypt h.wf h.empty herr
    exact ⟨mi, hcarries, hoff hflags⟩
  | enableAutoKeyExpire seconds =>
    have hdict : (m.withExpire seconds).dict = m.dict.map fun _ v => v ++ List.replicate 4 0 := by
      simp [withExpire, h.expire]
    rw [exec, h.mutate] at herr ⊢
    obtain ⟨mi, hcarries, hflags⟩ := carries_fullWritebackGrow (m := m.withExpire seconds) h.data h.crcLength h.crypt
      (by rw [hdict]; exact h.wf.map_append _) herr
    rw [hdict] at hcarries
    exact ⟨mi, hcarries, (expireEnabled_congr hflags).trans (expireEnabled_or m.info)⟩
  | clearAll | sync | clearMemoryCache | disableAutoKeyExpire | enableCompareBeforeSet | disableCompareBeforeSet
  | reKey newKey => exact hop.elim

end MMKV.OnLegacy

lemma Op.change_eq (sys : Sys) {op : Op} (hop : op.Rewrites dict) :
    (⟨OrdMap.lookup dict, false⟩ : Content).after sys 0 op = ⟨OrdMap.lookup (op.change dict), op.expires⟩ := by
  cases op with
  | set key v => simp [Content.after, Content.slot, Op.change, Op.expires]
  | removeValueForKey key => simp [Content.after, Op.change, Op.expires]
  | removeValuesForKeys keys =>
    refine Content.ext (funext fun k => ?_) rfl
    simp [Content.after, Op.change]
  | enableAutoKeyExpire seconds =>
    refine Content.ext (funext fun k => ?_) rfl
    simp [Content.after, Op.change, OrdMap.lookup]
  | trim => rfl
  | clearAll | sync | clearMemoryCache | disableAutoKeyExpire | enableCompareBeforeSet | disableCompareBeforeSet
  | reKey newKey => exact hop.elim

/-- **Opening legacy files** gives the map of their region. -/
theorem Legacy.start (h : Legacy d mi dict) (hcfg : cfg.Plain) (sys : Sys) :
    ∃ m, (World.start P cfg sys d).inst = .ok m ∧ m.dict = dict ∧ m.OnLegacy (World.start P cfg sys d).disk := by
  have hdec : parseDict (plainOf (cfg.crypt P) mi.iv (d.region (d.actualSize mi))) = .ok dict := by
    rw [hcfg.crypt_eq]
    exact h.decoded
  have hexp : expiresOf mi = false := by
    rw [expiresOf, decide_eq_false (UInt32.not_le.2 h.legacy), Bool.false_and]
  obtain ⟨a, b, hdata, hcrc⟩ := cfg.apply_openStores P d
  have hfits := h.fits
  have hparse := parseMeta_append h.parse hcrc
  rw [World.start, openMMKV_of_intact P sys cfg h.toIntact hdec]
  refine ⟨_, rfl, rfl, rfl, le_length_of_parseMeta hparse, hcfg.crypt_eq, parseDict_wf h.decoded, fun h0 => ?_, h.legacy,
    h.flags, hexp, rfl, hcfg.multiProcess, rfl, rfl, hcfg.readOnly⟩
  -- an empty region is the empty map
  have hzero : d.actualSize mi = 0 := by
    rw [← Disk.actualSize_append mi hdata (by omega)]
    exact h0
  have hempty := h.decoded
  rw [hzero, Disk.region_zero, parseDict_nil] at hempty
  exact (Except.ok.inj hempty).symm

/-- **Upgrade of legacy files.**  An open serves the map of the region, and after the first call that writes and
returns nil, the files are of version 4 and hold the map with the one change, for an instance and for a reader, exactly
when 32 bits can address the region of that map. -/
theorem legacy_upgrade_iff (h : Legacy d mi dict) (hcfg : cfg.Plain) (sys : Sys) :
    let w := World.start P cfg sys d
    ∃ m, w.inst = .ok m ∧
      (∀ (α : Type) (sys' : Sys) (getter : View → α) (zero : α),
        (m.get sys' w.disk getter zero).2 = getter ⟨dict, false, sys'.now⟩) ∧
      ∀ (op : Op) (sys' : Sys), op.Rewrites dict → (m.exec P sys' w.disk op).err = none →
        (Upgraded P (w.disk.apply (m.exec P sys' w.disk op).writes)
            ((⟨OrdMap.lookup dict, false⟩ : Content).after sys' 0 op) ↔
          4 + (regionOf (op.change dict)).length < 2 ^ 32) := by
  obtain ⟨m, hinst, rfl, hm⟩ := h.start (P := P) hcfg sys
  refine ⟨m, hinst, fun α sys' getter zero => ?_, fun op sys' hop herr => ?_⟩
  · simp [MMKV.get, hm.closed, hm.checkLoadData, MMKV.view, hm.expire]
  · obtain ⟨mi', hcarries, hexp⟩ := hm.carries_exec hop herr
    rw [Op.change_eq sys' hop, ← hexp]
    exact upgraded_iff hcarries

end Legacy

/-! ### Two stores -/

/-- The meta of the store of version 1. -/
def versionOneInfo : MetaInfo := { blankMeta with crcDigest := Crc32.checksum [4, 1, 97, 1, 1], version := 1 }

lemma versionOne_legacy : Legacy versionOne versionOneInfo ((∅ : Dict).insert [97] [1]) where
  parse := by decide +kernel
  supported := by decide
  fits := by decide +kernel
  bounded := by decide +kernel
  crc := by decide +kernel
  legacy := by decide
  flags := rfl
  decoded := by decide +kernel

/-- A bool set in the store of version 1 beside the one that is there. -/
theorem versionOne_upgrades :
    let w := World.start linux defaults calm versionOne
    ∃ m, w.inst = .ok m ∧
      Upgraded linux (w.disk.apply (m.exec linux calm w.disk (.set [98] (.bool false))).writes)
        ⟨OrdMap.lookup (((∅ : Dict).insert [97] [1]).insert [98] [0]), false⟩ := by
  obtain ⟨m, hinst, -, hupgrade⟩ := legacy_upgrade_iff (P := linux) versionOne_legacy defaults_plain calm
  have herr : (World.start linux defaults calm versionOne).inst.toOption.bind (fun m =>
      (m.exec linux calm (World.start linux defaults calm versionOne).disk (.set [98] (.bool false))).err) = none := by
    decide +kernel
  rw [hinst] at herr
  have hop : (Op.set [98] (.bool false)).Rewrites ((∅ : Dict).insert [97] [1]) := show ([98] : Bytes) ≠ [] by simp
  have hiff := hupgrade _ calm hop herr
  rw [Op.change_eq calm hop] at hiff
  exact ⟨m, hinst, hiff.2 (by decide +kernel)⟩

/-- A store of version 3 with no key. -/
def versionThree : Disk := ⟨List.replicate 4 0, putUint32 (List.replicate metaSize 0) offVersion 3⟩

lemma versionThree_legacy : Legacy versionThree { blankMeta with version := 3 } ∅ where
  parse := by decide +kernel
  supported := by decide
  fits := by decide +kernel
  bounded := by decide +kernel
  crc := by decide +kernel
  legacy := by decide
  flags := rfl
  decoded := by decide +kernel

/-- A first set of `n` zero bytes, a multiple of 4 GiB, returns nil and does not leave them in the files. -/
lemma zeros_not_upgraded {n : ℕ} (hn : 2 ^ 32 ∣ n) (hpos : n ≠ 0) :
    let w := World.start linux defaults calm versionThree
    ∃ m, w.inst = .ok m ∧ (m.exec linux calm w.disk (.set [97] (.bytes (zeros n)))).err = none ∧
      ¬ Upgraded linux (w.disk.apply (m.exec linux calm w.disk (.set [97] (.bytes (zeros n)))).writes)
        ((⟨OrdMap.lookup (∅ : Dict), false⟩ : Content).after calm 0 (.set [97] (.bytes (zeros n)))) := by
  obtain ⟨m, hinst, hdict, hm⟩ := versionThree_legacy.start (P := linux) defaults_plain calm
  have hblob : (Value.bytes (zeros n)).blob = zeros (n + 1) := bytesBlob_zeros hn
  have hop : (Op.set [97] (.bytes (zeros n))).Rewrites m.dict := show ([97] : Bytes) ≠ [] by simp
  have herr : (m.exec linux calm (World.start linux defaults calm versionThree).disk
      (.set [97] (.bytes (zeros n)))).err = none := by
    rw [MMKV.exec, hm.mutate, MMKV.setValueLocked_eq hm.compare hm.expire, hm.setBlob_eq, hblob, hdict,
      MMKV.fullWritebackGrow_eq (m := { m with dict := (∅ : Dict).insert [97] (zeros (n + 1)) }) hm.data calm_ok]
    simp only [parseDict_regionOf_zeros (show ([97] : Bytes) ≠ [] by simp) (by simp) hn]
  refine ⟨m, hinst, herr, ?_⟩
  obtain ⟨mi, hcarries, hexp⟩ := hm.carries_exec hop herr
  rw [hdict] at hop hcarries
  rw [Op.change_eq calm hop, ← hexp, upgraded_iff hcarries]
  have hle := le_pairSize [97] (zeros (n + 1))
  have hpair := pairSize_le_regionOf (d := (∅ : Dict).insert [97] (zeros (n + 1))) ExtTreeMap.getElem?_insert_self
  have h32 := Nat.le_of_dvd (Nat.pos_of_ne_zero hpos) hn
  rw [length_zeros] at hle
  simp only [Op.change, hblob]
  omega

/-- **4 GiB of zeros set in a legacy store** are not in the files afterwards. -/
theorem four_gib_not_upgraded :
    let w := World.start linux defaults calm versionThree
    ∃ m, w.inst = .ok m ∧ (m.exec linux calm w.disk (.set [97] (.bytes (zeros (2 ^ 32))))).err = none ∧
      ¬ Upgraded linux (w.disk.apply (m.exec linux calm w.disk (.set [97] (.bytes (zeros (2 ^ 32))))).writes)
        ((⟨OrdMap.lookup (∅ : Dict), false⟩ : Content).after calm 0 (.set [97] (.bytes (zeros (2 ^ 32))))) :=
  zeros_not_upgraded (dvd_refl _) (by decide)

end MmkvGo.Store
