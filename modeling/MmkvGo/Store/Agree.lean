import MmkvGo.Store.Reader
import MmkvGo.Store.Refine

/-!
The three ways the package reads a store: `Reader.Open`, `IsFileValid` and `MMKVWithID`.  Each chooses the size of the
region by the version of the meta, checks its bounds and its CRC, and is written on its own.  They agree on all
files of less than 4 GiB, of every supported version.
-/

namespace MmkvGo.Store

open MmkvGo.Lib MmkvGo.Wire MmkvGo.Crypt

/-- `IsFileValid`, on the contents of the two files. -/
def isFileValid (d : Disk) : Bool :=
  match parseMeta d.crc with
  | .error _ => false
  | .ok mi =>
    if maxSupportedVersion < mi.version then false
    else
      let actual :=
        if versionActualSize ≤ mi.version then mi.actualSize
        else if 4 ≤ d.data.length then getUint32 d.data 0
        else 0
      if d.data.length < actual.toNat + 4 then false
      else Crc32.checksum (slice d.data 4 (4 + actual).toNat) == mi.crcDigest

/-- The region that the meta file names; nothing when it holds no meta. -/
def liveRegion (d : Disk) : Bytes :=
  match parseMeta d.crc with
  | .error _ => []
  | .ok mi => d.region (d.actualSize mi)

section Agree

variable {d d' : Disk} {mi : MetaInfo} {dict : Dict}

lemma Intact.liveRegion_eq (h : Intact d mi) : liveRegion d = d.region (d.actualSize mi) := by
  rw [liveRegion, h.parse]

/-- **`IsFileValid` asks for an intact region.** -/
theorem isFileValid_iff (hsmall : d.data.length < 2 ^ 32) : isFileValid d = true ↔ ∃ mi, Intact d mi := by
  have hactual : ∀ mi : MetaInfo, (if versionActualSize ≤ mi.version then mi.actualSize
      else if 4 ≤ d.data.length then getUint32 d.data 0 else 0) = d.actualSize mi := fun _ => rfl
  constructor
  · intro h
    rw [isFileValid] at h
    split at h
    · cases h
    · next mi hparse =>
      simp only [hactual] at h
      split at h
      · cases h
      next hver =>
      split at h
      · cases h
      next hroom =>
      have hbounded : 4 + (d.actualSize mi).toNat < 2 ^ 32 := by omega
      rw [toNat_four_add hbounded, beq_iff_eq] at h
      exact ⟨mi, hparse, UInt32.not_lt.1 hver, by omega, hbounded, h⟩
  · rintro ⟨mi, h⟩
    have hfits := h.fits
    rw [isFileValid, h.parse]
    simp only [hactual]
    rw [if_neg (UInt32.not_lt.2 h.supported), if_neg (by omega), toNat_four_add h.bounded, beq_iff_eq]
    exact h.crc

/-- **What a snapshot was built from**: an intact region that parses. -/
theorem intact_of_buildSnapshot {snap : Snapshot} (hsmall : d.data.length < 2 ^ 32)
    (h : buildSnapshot none d = .ok snap) :
    Intact d snap.info ∧ parseDict (d.region (d.actualSize snap.info)) = .ok snap.m := by
  have hactual : ∀ mi : MetaInfo, (if versionActualSize ≤ mi.version then mi.actualSize
      else if 4 ≤ d.data.length then getUint32 d.data 0 else 0) = d.actualSize mi := fun _ => rfl
  rw [buildSnapshot] at h
  split at h
  · cases h
  next mi hparse =>
  simp only [hactual] at h
  split at h
  · cases h
  next hver =>
  split at h
  · cases h
  next hroom =>
  have hbounded : 4 + (d.actualSize mi).toNat < 2 ^ 32 := by omega
  rw [toNat_four_add hbounded, ← Disk.region] at h
  split at h
  · cases h
  next hcrc =>
  split at h
  · cases h
  next hdec =>
  cases h
  exact ⟨⟨hparse, UInt32.not_lt.1 hver, show 4 + (d.actualSize mi).toNat ≤ _ by omega, hbounded, not_not.1 hcrc⟩, hdec⟩

lemma Disk.actualSize_append {a : Bytes} (mi : MetaInfo) (hdata : d'.data = d.data ++ a) (h4 : 4 ≤ d.data.length) :
    d'.actualSize mi = d.actualSize mi := by
  have h4' : 4 ≤ d'.data.length := by
    rw [hdata, List.length_append]
    omega
  rw [Disk.actualSize, Disk.actualSize, if_pos h4, if_pos h4', getUint32_eq_slice, getUint32_eq_slice, hdata,
    slice_append_left (by omega)]

theorem Intact.extend {a b : Bytes} (h : Intact d mi) (hdata : d'.data = d.data ++ a) (hcrc : d'.crc = d.crc ++ b) :
    Intact d' mi := by
  have hfits := h.fits
  have hsize := Disk.actualSize_append mi hdata (by omega)
  refine ⟨parseMeta_append h.parse hcrc, h.supported, ?_, ?_, ?_⟩
  · rw [hsize, hdata, List.length_append]
    omega
  · rw [hsize]
    exact h.bounded
  · rw [hsize, Disk.region_append hdata hfits, h.crc]

/-- The instance an open returns on files of any supported version whose region is intact. -/
def Config.loaded (P : Platform) (cfg : Config) (d : Disk) (mi : MetaInfo) (dict : Dict) : MMKV :=
  { cfg.instance P ⟨d.data.length, true⟩ with
    info := mi
    enableExpire := expiresOf mi
    dict := dict
    actualSize := d.actualSize mi
    crcDigest := mi.crcDigest }

/-- **Loading through a mapping of the whole file**, of any supported version. -/
theorem Config.loadData_eq (P : Platform) (cfg : Config) (h : Intact d mi)
    (hdec : parseDict (plainOf (cfg.crypt P) mi.iv (d.region (d.actualSize mi))) = .ok dict) :
    (cfg.instance P ⟨d.data.length, true⟩).loadData d = (cfg.loaded P d mi dict, none) := by
  rw [MMKV.loadData_of_intact h rfl h.fits]
  exact MMKV.decodeRegion_ok _ (MMKV.region_eq rfl h.fits h.bounded) hdec

/-- **Opening files of any supported version whose region is intact and parses**, for writing or for reading only. -/
theorem openMMKV_of_intact (P : Platform) (sys : Sys) (cfg : Config) (h : Intact d mi)
    (hdec : parseDict (plainOf (cfg.crypt P) mi.iv (d.region (d.actualSize mi))) = .ok dict) :
    openMMKV P sys cfg d =
      (cfg.openStores P d, .ok (cfg.loaded P (d.apply (cfg.openStores P d)) mi dict)) := by
  have hfits := h.fits
  have hmeta := le_length_of_parseMeta h.parse
  obtain ⟨a, b, hdata, hcrc⟩ := cfg.apply_openStores P d
  have hextend := h.extend hdata hcrc
  have hdec' : parseDict (plainOf (cfg.crypt P) mi.iv ((d.apply (cfg.openStores P d)).region
      ((d.apply (cfg.openStores P d)).actualSize mi))) = .ok dict := by
    rw [Disk.actualSize_append mi hdata (by omega), Disk.region_append hdata hfits]
    exact hdec
  have hload := Config.loadData_eq P cfg hextend hdec'
  have hpos : 0 < metaSize := by decide
  exact openMMKV_of_load sys (fun _ => ⟨by omega, by omega⟩) hload rfl

/-- **The three load paths agree.**  On files of less than 4 GiB, `Reader.Open` succeeds exactly when `IsFileValid` does
and the region parses; an instance then opens too, for writing or for reading only, and every getter answers on it what
it answers on the reader, at every time. -/
theorem load_paths_agree (hsmall : d.data.length < 2 ^ 32) :
    ((∃ r, Reader.openReader d none = .ok r) ↔ isFileValid d = true ∧ ∃ dict, parseDict (liveRegion d) = .ok dict) ∧
      ∀ r, Reader.openReader d none = .ok r →
        ∀ (P : Platform) (sys : Sys) (cfg : Config), cfg.multiProcess = false → cfg.cryptKey = [] →
          ∃ m, (openMMKV P sys cfg d).2 = .ok m ∧
            ∀ (α : Type) (sys' : Sys) (getter : View → α) (zero : α),
              (m.get sys' (d.apply (openMMKV P sys cfg d).1) getter zero).2 = (r.get d sys'.now getter).2 ∧
              (m.get sys' (d.apply (openMMKV P sys cfg d).1) getter zero).2 =
                (r.get (d.apply (openMMKV P sys cfg d).1) sys'.now getter).2 := by
  -- what a successful open has read
  have hread : ∀ r, Reader.openReader d none = .ok r →
      ∃ mi dict, Intact d mi ∧ parseDict (d.region (d.actualSize mi)) = .ok dict := by
    intro r hr
    exact ⟨_, _, intact_of_buildSnapshot hsmall (buildSnapshot_of_openReader hr)⟩
  refine ⟨⟨?_, ?_⟩, fun r hr P sys cfg hsingle hkey => ?_⟩
  · rintro ⟨r, hr⟩
    obtain ⟨mi, dict, h, hdec⟩ := hread r hr
    exact ⟨(isFileValid_iff hsmall).2 ⟨mi, h⟩, dict, by rw [h.liveRegion_eq]; exact hdec⟩
  · rintro ⟨hvalid, dict, hdec⟩
    obtain ⟨mi, h⟩ := (isFileValid_iff hsmall).1 hvalid
    rw [h.liveRegion_eq] at hdec
    obtain ⟨r, hr, -⟩ := openReader_of_intact h (show parseDict (plainOf none mi.iv _) = .ok dict from hdec)
    exact ⟨r, hr⟩
  · obtain ⟨mi, dict, h, hdec⟩ := hread r hr
    obtain ⟨r', hr', -, -, -, -, -, -, hget⟩ :=
      openReader_of_intact h (show parseDict (plainOf none mi.iv _) = .ok dict from hdec)
    cases hr.symm.trans hr'
    have hcrypt : cfg.crypt P = none := by rw [Config.crypt, if_pos hkey]
    have hopen := openMMKV_of_intact P sys cfg h (show parseDict (plainOf (cfg.crypt P) mi.iv _) = .ok dict by
      rw [hcrypt]
      exact hdec)
    obtain ⟨a, b, -, hcrc⟩ := cfg.apply_openStores P d
    rw [hopen]
    refine ⟨_, rfl, fun α sys' getter zero => ?_⟩
    rw [hget d h.parse, hget _ (parseMeta_append h.parse hcrc)]
    -- a single-process instance does not look at the files again
    have hm : ((cfg.loaded P (d.apply (cfg.openStores P d)) mi dict).get sys' (d.apply (cfg.openStores P d)) getter
        zero).2 = getter ⟨dict, expiresOf mi, sys'.now⟩ := by
      simp [MMKV.get, MMKV.checkLoadData, Config.loaded, Config.instance, hsingle, MMKV.view]
    exact ⟨hm, hm⟩

end Agree

/-! ### A file of version 1 -/

/-- A store of version 1 that binds "a" to a true bool: the size of its region stands in the header of the data file,
which ends with the region. -/
def versionOne : Disk :=
  ⟨[5, 0, 0, 0, 4, 1, 97, 1, 1],
    putUint32 (putUint32 (List.replicate metaSize 0) offCRC (Crc32.checksum [4, 1, 97, 1, 1])) offVersion 1⟩

theorem versionOne_agrees :
    ∃ r m, Reader.openReader versionOne none = .ok r ∧ (openMMKV linux calm defaults versionOne).2 = .ok m ∧
      (r.get versionOne 0 (View.getBool · [97])).2 = some true ∧
      (m.get calm (versionOne.apply (openMMKV linux calm defaults versionOne).1) (View.getBool · [97]) none).2 =
        some true := by
  obtain ⟨hiff, hagree⟩ := load_paths_agree (d := versionOne) (by decide)
  have hparse : ∃ dict, parseDict (liveRegion versionOne) = .ok dict := by
    have hok : (parseDict (liveRegion versionOne)).isOk = true := by decide +kernel
    cases h : parseDict (liveRegion versionOne) with
    | error e => rw [h] at hok; cases hok
    | ok dict => exact ⟨dict, rfl⟩
  obtain ⟨r, hr⟩ := hiff.2 ⟨by decide +kernel, hparse⟩
  obtain ⟨m, hm, hget⟩ := hagree r hr linux calm defaults rfl rfl
  have hread : (Reader.openReader versionOne none).toOption.bind (fun r => (r.get versionOne 0 (View.getBool · [97])).2) =
      some true := by decide +kernel
  rw [hr] at hread
  exact ⟨r, m, hr, hm, hread, ((hget _ calm (View.getBool · [97]) none).1).trans hread⟩

end MmkvGo.Store
