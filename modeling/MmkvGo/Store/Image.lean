import MmkvGo.Store.Ops

/-!
What it means for the files to hold a map (`Image`) and for an instance to agree with its files (`Synced`), and what
loading does then: `loadData_of_image` for a mapping that covers the region, `checkLoadData_of_synced` and
`checkLoadData_of_needLoad` for the freshness probe, `openMMKV_of_image` for opening.
-/

namespace MmkvGo.Store

open MmkvGo.Lib MmkvGo.Wire MmkvGo.Crypt Std

/-- The plaintext of a region that was written with the key `crypt` and the IV `iv`. -/
def plainOf (crypt : Option Cipher) (iv : Block) (region : Bytes) : Bytes :=
  match crypt with
  | none => region
  | some E => decryptLoop E (Cfb.start iv.toList) region

/-- What is stored for a plaintext region. -/
def cipherOf (crypt : Option Cipher) (iv : Block) (region : Bytes) : Bytes :=
  match crypt with
  | none => region
  | some E => encryptLoop E (Cfb.start iv.toList) region

/-- The bytes of the data file that a snapshot of `actual` bytes covers. -/
def Disk.region (d : Disk) (actual : UInt32) : Bytes := slice d.data 4 (4 + actual.toNat)

@[simp] lemma Disk.region_zero (d : Disk) : d.region 0 = [] := by simp [Disk.region, slice]

/-- The meta of a freshly created file. -/
def blankMeta : MetaInfo := ⟨0, 0, 0, Vector.replicate 16 0, 0, 0, 0, 0⟩

/-- With expiration on, a slot is a value and its timestamp. -/
def Stamped (mi : MetaInfo) (dict : Dict) : Prop :=
  mi.expireEnabled = true → ∀ k v : Bytes, dict[k]? = some v → 5 ≤ v.length

/-- The meta is of the version this package writes, or still of version 0, whose sizes stand in the data file. -/
def Versioned (d : Disk) (mi : MetaInfo) : Prop :=
  mi.version = versionFlag ∨
    (mi.version = 0 ∧ mi.actualSize = 0 ∧ mi.expireEnabled = false) ∧ getUint32 d.data 0 = 0

/-- The meta `mi` is one that loading accepts: the region it names lies in the file and has its CRC. -/
structure Readable (d : Disk) (mi : MetaInfo) : Prop where
  parse : parseMeta d.crc = .ok mi
  current : Versioned d mi
  fits : 4 + mi.actualSize.toNat ≤ d.data.length
  bounded : 4 + mi.actualSize.toNat < 2 ^ 32
  crc : Crc32.checksum (d.region mi.actualSize) = mi.crcDigest

/-- The size of the region that the meta `mi` names: before version 3 it stands in the header of the data file. -/
def Disk.actualSize (d : Disk) (mi : MetaInfo) : UInt32 :=
  if versionActualSize ≤ mi.version then mi.actualSize
  else if 4 ≤ d.data.length then getUint32 d.data 0
  else 0

/-- The meta `mi`, of whichever supported version, names a region that lies in the file and has its CRC. -/
structure Intact (d : Disk) (mi : MetaInfo) : Prop where
  parse : parseMeta d.crc = .ok mi
  supported : mi.version ≤ maxSupportedVersion
  fits : 4 + (d.actualSize mi).toNat ≤ d.data.length
  bounded : 4 + (d.actualSize mi).toNat < 2 ^ 32
  crc : Crc32.checksum (d.region (d.actualSize mi)) = mi.crcDigest

/-- As `Readable`, for a meta that this package wrote or that is still blank. -/
structure Sealed (d : Disk) (mi : MetaInfo) : Prop where
  parse : parseMeta d.crc = .ok mi
  current : mi.version = versionFlag ∨ mi = blankMeta ∧ getUint32 d.data 0 = 0
  fits : 4 + mi.actualSize.toNat ≤ d.data.length
  bounded : 4 + mi.actualSize.toNat < 2 ^ 32
  crc : Crc32.checksum (d.region mi.actualSize) = mi.crcDigest

/-- The files hold the map `dict` under the meta `mi`. -/
structure Image (crypt : Option Cipher) (d : Disk) (mi : MetaInfo) (dict : Dict) : Prop extends Sealed d mi where
  decoded : parseDict (plainOf crypt mi.iv (d.region mi.actualSize)) = .ok dict
  stamped : Stamped mi dict

/-- The sequence number in the meta file. -/
def sequenceOf (d : Disk) : UInt32 :=
  match parseMeta d.crc with
  | .error _ => 0
  | .ok mi => mi.sequence

/-- The instance is open for writing, maps the whole data file and holds what its files hold. -/
structure Synced (d : Disk) (m : MMKV) : Prop where
  image : Image m.crypt d m.info m.dict
  data : m.data = ⟨d.data.length, true⟩
  actualSize : m.actualSize = m.info.actualSize
  crcDigest : m.crcDigest = m.info.crcDigest
  enableExpire : m.enableExpire = m.info.expireEnabled
  needLoad : m.needLoad = false
  needFullWriteback : m.needFullWriteback = false
  closed : m.closed = false
  readOnly : m.readOnly = false

/-- The instance, open for writing: the option decides which calls it refuses, not what it holds. -/
def MMKV.writable (m : MMKV) : MMKV := { m with readOnly := false }

lemma MMKV.writable_eq {m : MMKV} (h : m.readOnly = false) : m.writable = m := by rw [writable, ← h]

/-- As `Synced`, but with expiration on a slot may be too short for a timestamp, as salvaged ones may be. -/
structure Steady (d : Disk) (m : MMKV) : Prop extends Sealed d m.info where
  decoded : parseDict (plainOf m.crypt m.info.iv (d.region m.info.actualSize)) = .ok m.dict
  data : m.data = ⟨d.data.length, true⟩
  actualSize : m.actualSize = m.info.actualSize
  crcDigest : m.crcDigest = m.info.crcDigest
  enableExpire : m.enableExpire = m.info.expireEnabled
  needLoad : m.needLoad = false
  needFullWriteback : m.needFullWriteback = false
  closed : m.closed = false
  readOnly : m.readOnly = false

lemma Synced.steady {d : Disk} {m : MMKV} (h : Synced d m) : Steady d m :=
  ⟨h.image.toSealed, h.image.decoded, h.data, h.actualSize, h.crcDigest, h.enableExpire, h.needLoad, h.needFullWriteback,
    h.closed, h.readOnly⟩

lemma Steady.synced {d : Disk} {m : MMKV} (h : Steady d m) (hst : Stamped m.info m.dict) : Synced d m :=
  ⟨⟨h.toSealed, h.decoded, hst⟩, h.data, h.actualSize, h.crcDigest, h.enableExpire, h.needLoad, h.needFullWriteback,
    h.closed, h.readOnly⟩

/-! ### Consequences of an image -/

lemma toNat_four_add {a : UInt32} (h : 4 + a.toNat < 2 ^ 32) : (4 + a).toNat = 4 + a.toNat := by
  rw [UInt32.toNat_add]
  exact Nat.mod_eq_of_lt h

lemma Sealed.versioned {d : Disk} {mi : MetaInfo} (h : Sealed d mi) : Versioned d mi := by
  rcases h.current with hv | ⟨rfl, hz⟩
  · exact .inl hv
  · exact .inr ⟨⟨rfl, rfl, by decide⟩, hz⟩

lemma Sealed.readable {d : Disk} {mi : MetaInfo} (h : Sealed d mi) : Readable d mi :=
  ⟨h.parse, h.versioned, h.fits, h.bounded, h.crc⟩

namespace Versioned

variable {d : Disk} {mi : MetaInfo}

theorem version_le (h : Versioned d mi) : mi.version ≤ maxSupportedVersion := by
  rcases h with hv | ⟨⟨hv, -⟩, -⟩
  · rw [hv]
    exact UInt32.le_refl _
  · rw [hv]
    decide

theorem expire_eq (h : Versioned d mi) :
    (decide (versionFlag ≤ mi.version) && mi.expireEnabled) = mi.expireEnabled := by
  rcases h with hv | ⟨⟨-, -, he⟩, -⟩
  · simp [hv]
  · simp [he]

lemma actualSize_eq (h : Versioned d mi) : d.actualSize mi = mi.actualSize := by
  rw [Disk.actualSize]
  rcases h with hv | ⟨⟨hv, hsize, -⟩, hzero⟩
  · rw [hv, if_pos (by decide)]
  · rw [hv, if_neg (by decide), hzero, hsize, ite_self]

lemma congr {d' : Disk} (h : Versioned d mi) (hslice : slice d'.data 0 4 = slice d.data 0 4) : Versioned d' mi := by
  refine h.imp_right fun ⟨hb, hz⟩ => ⟨hb, ?_⟩
  rw [← hz, getUint32_eq_slice, getUint32_eq_slice, Nat.zero_add, hslice]

end Versioned

namespace Readable

variable {d : Disk} {mi : MetaInfo}

lemma intact (h : Readable d mi) : Intact d mi := by
  have hsize := h.current.actualSize_eq
  exact ⟨h.parse, h.current.version_le, by rw [hsize]; exact h.fits, by rw [hsize]; exact h.bounded,
    by rw [hsize]; exact h.crc⟩

theorem metaSize_le (h : Readable d mi) : metaSize ≤ d.crc.length := le_length_of_parseMeta h.parse

theorem length_region (h : Readable d mi) : (d.region mi.actualSize).length = mi.actualSize.toNat := by
  rw [Disk.region, length_slice h.fits]
  omega

/-- A region that is not empty was written by a version that has all meta fields. -/
theorem version_eq (h : Readable d mi) (hpos : 0 < mi.actualSize) : mi.version = versionFlag := by
  rcases h.current with hv | ⟨⟨-, hsize, -⟩, -⟩
  · exact hv
  · rw [hsize] at hpos
    exact absurd hpos (by decide)

end Readable

namespace Sealed

variable {d : Disk} {mi : MetaInfo}

theorem metaSize_le (h : Sealed d mi) : metaSize ≤ d.crc.length := h.readable.metaSize_le

theorem four_le (h : Sealed d mi) : 4 ≤ d.data.length := by
  have := h.fits
  omega

theorem length_region (h : Sealed d mi) : (d.region mi.actualSize).length = mi.actualSize.toNat :=
  h.readable.length_region

theorem version_eq (h : Sealed d mi) (hpos : 0 < mi.actualSize) : mi.version = versionFlag :=
  h.readable.version_eq hpos

end Sealed

lemma plainOf_cipherOf (crypt : Option Cipher) (iv : Block) (region : Bytes) :
    plainOf crypt iv (cipherOf crypt iv region) = region := by
  cases crypt with
  | none => rfl
  | some E => exact decryptLoop_encryptLoop ..

lemma cipherOf_plainOf (crypt : Option Cipher) (iv : Block) (region : Bytes) :
    cipherOf crypt iv (plainOf crypt iv region) = region := by
  cases crypt with
  | none => rfl
  | some E => exact encryptLoop_decryptLoop ..

@[simp] lemma length_cipherOf (crypt : Option Cipher) (iv : Block) (region : Bytes) :
    (cipherOf crypt iv region).length = region.length := by
  cases crypt <;> simp [cipherOf]

lemma length_plainOf (crypt : Option Cipher) (iv : Block) (region : Bytes) :
    (plainOf crypt iv region).length = region.length := by
  cases crypt <;> simp [plainOf]

lemma sequenceOf_image {crypt : Option Cipher} {d : Disk} {mi : MetaInfo} {dict : Dict} (h : Image crypt d mi dict) :
    sequenceOf d = mi.sequence := by
  rw [sequenceOf, h.parse]

theorem Readable.actualSize_pos {crypt : Option Cipher} {d : Disk} {mi : MetaInfo} {dict : Dict} (h : Readable d mi)
    (hdec : parseDict (plainOf crypt mi.iv (d.region mi.actualSize)) = .ok dict) (hne : dict ≠ ∅) :
    0 < mi.actualSize := by
  rw [UInt32.lt_iff_toNat_lt, ← h.length_region]
  refine Nat.pos_of_ne_zero fun h0 => hne ?_
  have hnil : plainOf crypt mi.iv (d.region mi.actualSize) = [] :=
    List.length_eq_zero_iff.1 (by rw [length_plainOf]; exact h0)
  rw [hnil, parseDict_nil] at hdec
  cases hdec
  rfl

/-- The files hold the plaintext region `plain` from byte 4 on, under a meta whose size and CRC are what the code computes
for it: the size is cut to 32 bits. -/
structure Leaves (crypt : Option Cipher) (d : Disk) (mi : MetaInfo) (plain : Bytes) : Prop where
  parse : parseMeta d.crc = .ok mi
  version : mi.version = versionFlag
  actualSize : mi.actualSize = UInt32.ofNat plain.length
  room : 4 + plain.length ≤ d.data.length
  bytes : slice d.data 4 (4 + plain.length) = cipherOf crypt mi.iv plain
  crc : plain.length < 2 ^ 32 → mi.crcDigest = Crc32.checksum (cipherOf crypt mi.iv plain)

/-- **A region that 32 bits address is read back.** -/
theorem Leaves.readable {crypt : Option Cipher} {d : Disk} {mi : MetaInfo} {plain : Bytes} (h : Leaves crypt d mi plain)
    (hlt : 4 + plain.length < 2 ^ 32) : Readable d mi ∧ plainOf crypt mi.iv (d.region mi.actualSize) = plain := by
  have hsize : mi.actualSize.toNat = plain.length := by
    rw [h.actualSize]
    exact toNat_ofNat32 (by omega)
  have hregion : d.region mi.actualSize = cipherOf crypt mi.iv plain := by
    rw [Disk.region, hsize, h.bytes]
  refine ⟨⟨h.parse, .inl h.version, ?_, ?_, ?_⟩, ?_⟩
  · rw [hsize]
    exact h.room
  · rw [hsize]
    exact hlt
  · rw [hregion, h.crc (by omega)]
  · rw [hregion, plainOf_cipherOf]

namespace Image

variable {crypt : Option Cipher} {d : Disk} {mi : MetaInfo} {dict : Dict}

theorem wf (h : Image crypt d mi dict) : WF dict := parseDict_wf h.decoded

theorem unique {mi' : MetaInfo} {dict' : Dict} (h : Image crypt d mi dict) (h' : Image crypt d mi' dict') :
    mi' = mi ∧ dict' = dict := by
  have hp := h.parse.symm.trans h'.parse
  cases hp
  have hd := h.decoded.symm.trans h'.decoded
  cases hd
  exact ⟨rfl, rfl⟩

theorem actualSize_pos (h : Image crypt d mi dict) (hne : dict ≠ ∅) : 0 < mi.actualSize :=
  h.readable.actualSize_pos h.decoded hne

end Image

lemma Synced.dict_eq_empty {d : Disk} {m : MMKV} (h : Synced d m) (h0 : m.actualSize = 0) : m.dict = ∅ := by
  by_contra hne
  have hpos := h.image.actualSize_pos hne
  rw [← h.actualSize, h0] at hpos
  exact absurd hpos (by decide)

/-! ### Loading -/

lemma MMKV.plain_eq (m : MMKV) (r : Bytes) : m.plain r = .ok (plainOf m.crypt m.info.iv r) := by
  cases h : m.crypt with
  | none => simp only [MMKV.plain, plainOf, h]
  | some E => simp only [MMKV.plain, plainOf, h, decrypt_block]

lemma MMKV.region_eq {d : Disk} {m : MMKV} {n : ℕ} {actual : UInt32} (hdata : m.data = ⟨n, true⟩)
    (hn : 4 + actual.toNat ≤ n) (hsmall : 4 + actual.toNat < 2 ^ 32) : m.region d actual = d.region actual := by
  rw [MMKV.region, hdata, MemoryFile.memory, if_pos rfl, toNat_four_add hsmall, slice_take hn, Disk.region]

/-- The instance after it loaded the map `dict` and the meta `mi`. -/
def MMKV.loaded (m : MMKV) (mi : MetaInfo) (dict : Dict) : MMKV :=
  { m with
    info := mi
    enableExpire := mi.expireEnabled
    dict := dict
    actualSize := mi.actualSize
    crcDigest := mi.crcDigest }

section Load

variable {d : Disk} {m : MMKV} {mi : MetaInfo} {dict : Dict} {n : ℕ} {sys : Sys}

lemma MMKV.readActualSize_of_versioned (h : Versioned d m.info) (hdata : m.data = ⟨n, true⟩) (hn : 4 ≤ n) :
    m.readActualSize d = m.info.actualSize := by
  rw [MMKV.readActualSize]
  rcases h with hv | ⟨⟨hv, hsize, -⟩, hzero⟩
  · rw [hv, if_pos (by decide)]
  · rw [hv, if_neg (by decide), hdata, MemoryFile.len_mapped, if_pos hn, MemoryFile.memory, if_pos rfl]
    rw [getUint32_eq_slice] at hzero ⊢
    rw [slice_take (by omega), hzero, hsize]

lemma MMKV.decodeRegion_ok {actual : UInt32} (crc : UInt32) (hregion : m.region d actual = d.region actual)
    (h : parseDict (plainOf m.crypt m.info.iv (d.region actual)) = .ok dict) :
    m.decodeRegion d actual crc = ({ m with dict := dict, actualSize := actual, crcDigest := crc }, none) := by
  simp only [decodeRegion, plain_eq, hregion, h]

lemma MMKV.accepts_iff {actual want : UInt32} (hdata : m.data = ⟨n, true⟩) (hsmall : 4 + actual.toNat < 2 ^ 32) :
    m.accepts d actual want = true ↔
      4 + actual.toNat ≤ n ∧ Crc32.checksum (d.region actual) = want := by
  simp only [accepts, crcValid, hdata, MemoryFile.len_mapped, Bool.and_eq_true, decide_eq_true_eq, beq_iff_eq]
  constructor
  · rintro ⟨⟨-, hn⟩, hcrc⟩
    rw [region_eq hdata (by omega) hsmall] at hcrc
    exact ⟨by omega, hcrc⟩
  · rintro ⟨hn, hcrc⟩
    rw [region_eq hdata hn hsmall]
    exact ⟨⟨by omega, by omega⟩, hcrc⟩

/-- The instance after it read the meta `mi`. -/
def MMKV.withMeta (m : MMKV) (mi : MetaInfo) : MMKV := { m with info := mi, enableExpire := mi.expireEnabled }

lemma MMKV.loadData_eq (hparse : parseMeta d.crc = .ok mi) (hver : Versioned d mi) :
    m.loadData d = (m.withMeta mi).loadRegion d := by
  have hle : ¬ maxSupportedVersion < mi.version := UInt32.not_lt.2 hver.version_le
  rw [loadData, hparse]
  simp only [if_neg hle, hver.expire_eq]
  rfl

/-- Whether the slots carry timestamps, as loading decides it: the flag is read from version 4 on. -/
def expiresOf (mi : MetaInfo) : Bool := decide (versionFlag ≤ mi.version) && mi.expireEnabled

/-- The instance after it read the meta `mi`, of whichever supported version. -/
def MMKV.underMeta (m : MMKV) (mi : MetaInfo) : MMKV := { m with info := mi, enableExpire := expiresOf mi }

lemma MMKV.loadData_supported (hparse : parseMeta d.crc = .ok mi) (hver : mi.version ≤ maxSupportedVersion) :
    m.loadData d = (m.underMeta mi).loadRegion d := by
  rw [loadData, hparse]
  simp only [if_neg (UInt32.not_lt.2 hver)]
  rfl

lemma MMKV.loadData_unsupported (hparse : parseMeta d.crc = .ok mi) (hver : ¬ mi.version ≤ maxSupportedVersion) :
    m.loadData d = ({ m with info := mi }, some (.unsupportedVersion mi.version)) := by
  rw [loadData, hparse]
  simp only [if_pos (UInt32.not_le.1 hver)]

lemma MMKV.readActualSize_of_intact (h : Intact d mi) (hdata : m.data = ⟨n, true⟩)
    (hn : 4 + (d.actualSize mi).toNat ≤ n) : (m.underMeta mi).readActualSize d = d.actualSize mi := by
  have hfits := h.fits
  have hdata₁ : (m.underMeta mi).data = ⟨n, true⟩ := hdata
  rw [readActualSize, hdata₁, MemoryFile.len_mapped, Disk.actualSize, if_pos (show 4 ≤ n by omega),
    if_pos (show 4 ≤ d.data.length by omega), MemoryFile.memory, if_pos rfl, getUint32_eq_slice, getUint32_eq_slice,
    slice_take (show 0 + 4 ≤ n by omega)]
  rfl

/-- **Loading files of whichever supported version whose region is intact**, through a mapping that covers it: the
region is decoded. -/
theorem MMKV.loadData_of_intact (h : Intact d mi) (hdata : m.data = ⟨n, true⟩)
    (hn : 4 + (d.actualSize mi).toNat ≤ n) :
    m.loadData d = (m.underMeta mi).decodeRegion d (d.actualSize mi) mi.crcDigest := by
  rw [loadData_supported h.parse h.supported]
  generalize hm : m.underMeta mi = m₁
  have hinfo : m₁.info = mi := by rw [← hm]; rfl
  have hdata₁ : m₁.data = ⟨n, true⟩ := by rw [← hm]; exact hdata
  have hactual : m₁.readActualSize d = d.actualSize mi := by
    rw [← hm]
    exact readActualSize_of_intact h hdata hn
  have haccepts : m₁.accepts d (d.actualSize mi) mi.crcDigest = true := (accepts_iff hdata₁ h.bounded).2 ⟨hn, h.crc⟩
  rw [loadRegion]
  simp only [hinfo, hactual, haccepts, if_true]

/-- **Loading files whose meta describes them**, through a mapping that covers the region: the region is decoded. -/
theorem MMKV.loadData_of_readable (h : Readable d mi) (hdata : m.data = ⟨n, true⟩)
    (hn : 4 + mi.actualSize.toNat ≤ n) :
    m.loadData d = (m.withMeta mi).decodeRegion d mi.actualSize mi.crcDigest := by
  have hsize := h.current.actualSize_eq
  have hload := loadData_of_intact (m := m) h.intact hdata (by rw [hsize]; exact hn)
  rw [hsize, underMeta, expiresOf, h.current.expire_eq] at hload
  exact hload

/-- **Loading files whose region parses**, through a mapping that covers the region. -/
theorem MMKV.loadData_ok (h : Readable d mi) (hdata : m.data = ⟨n, true⟩) (hn : 4 + mi.actualSize.toNat ≤ n)
    (hdec : parseDict (plainOf m.crypt mi.iv (d.region mi.actualSize)) = .ok dict) :
    m.loadData d = (m.loaded mi dict, none) := by
  rw [loadData_of_readable h hdata hn]
  exact decodeRegion_ok _ (region_eq hdata hn h.bounded) hdec

/-- **Loading files that hold a map**, through a mapping that covers the region. -/
theorem MMKV.loadData_of_image (h : Image m.crypt d mi dict) (hdata : m.data = ⟨n, true⟩)
    (hn : 4 + mi.actualSize.toNat ≤ n) : m.loadData d = (m.loaded mi dict, none) :=
  loadData_ok h.readable hdata hn h.decoded

theorem MMKV.loadData_error {e : Err} (h : Readable d mi) (hdata : m.data = ⟨n, true⟩)
    (hn : 4 + mi.actualSize.toNat ≤ n)
    (he : parseDict (plainOf m.crypt mi.iv (d.region mi.actualSize)) = .error e) :
    m.loadData d = (m.withMeta mi, some e) := by
  have hregion := region_eq (d := d) (m := m.withMeta mi) hdata hn h.bounded
  rw [loadData_of_readable h hdata hn]
  simp only [decodeRegion, plain_eq, hregion]
  simp only [withMeta, he]

lemma MMKV.readActualSize_of_version (hver : m.info.version = versionFlag) :
    m.readActualSize d = m.info.actualSize := by
  rw [readActualSize, hver, if_pos (by decide)]

lemma MMKV.not_accepts_of_lt {actual want : UInt32} (hdata : m.data = ⟨n, true⟩) (hn : n < 4 + actual.toNat) :
    m.accepts d actual want = false := by
  simp only [accepts, hdata, MemoryFile.len_mapped, Bool.and_eq_false_iff, decide_eq_false_iff_not]
  omega

/-- The meta an instance holds after it fell back to the last-confirmed snapshot. -/
def lastConfirmed (mi : MetaInfo) : MetaInfo :=
  { mi with actualSize := mi.lastActualSize, crcDigest := mi.lastCRCDigest }

/-- **Loading files whose current snapshot is not valid**: the last-confirmed one is decoded. -/
theorem MMKV.loadData_lastConfirmed (hparse : parseMeta d.crc = .ok mi) (hver : Versioned d mi)
    (hdata : m.data = ⟨n, true⟩) (hcurrent : (m.withMeta mi).accepts d mi.actualSize mi.crcDigest = false)
    (hn : 4 + mi.lastActualSize.toNat ≤ n) (hsmall : 4 + mi.lastActualSize.toNat < 2 ^ 32)
    (hcrc : Crc32.checksum (d.region mi.lastActualSize) = mi.lastCRCDigest)
    (hdec : parseDict (plainOf m.crypt mi.iv (d.region mi.lastActualSize)) = .ok dict) :
    m.loadData d = (m.loaded (lastConfirmed mi) dict, none) := by
  have hactual : (m.withMeta mi).readActualSize d = mi.actualSize :=
    readActualSize_of_versioned hver hdata (by omega)
  have hconfirmed : (m.withMeta mi).accepts d mi.lastActualSize mi.lastCRCDigest = true :=
    (accepts_iff hdata hsmall).2 ⟨hn, hcrc⟩
  have hinfo : (m.withMeta mi).info = mi := rfl
  have hdecode : (m.withMeta (lastConfirmed mi)).decodeRegion d mi.lastActualSize mi.lastCRCDigest = _ :=
    decodeRegion_ok _ (region_eq hdata hn hsmall) hdec
  simp only [loadData_eq hparse hver, loadRegion, hinfo, hactual, hcurrent, hconfirmed, Bool.false_eq_true, if_false,
    if_true]
  exact hdecode

/-- **Loading files neither of whose snapshots is valid**: the map is discarded. -/
theorem MMKV.loadData_discard (hparse : parseMeta d.crc = .ok mi) (hver : mi.version = versionFlag)
    (hrecover : m.recover = false) (hcurrent : (m.withMeta mi).accepts d mi.actualSize mi.crcDigest = false)
    (hconfirmed : (m.withMeta mi).accepts d mi.lastActualSize mi.lastCRCDigest = false) :
    m.loadData d = ({ m.withMeta mi with dict := ∅, actualSize := 0, crcDigest := 0 }, none) := by
  have hactual : (m.withMeta mi).readActualSize d = mi.actualSize := readActualSize_of_version hver
  have hinfo : (m.withMeta mi).info = mi := rfl
  have hdiscard : (m.withMeta mi).recover = false := hrecover
  simp only [loadData_eq hparse (.inl hver), loadRegion, hinfo, hactual, hcurrent, hconfirmed, hdiscard,
    Bool.false_eq_true, if_false]

theorem MMKV.synced_loaded (h : Image m.crypt d mi dict) (hdata : m.data = ⟨d.data.length, true⟩)
    (hload : m.needLoad = false) (hfull : m.needFullWriteback = false) (hclosed : m.closed = false)
    (hro : m.readOnly = false) : Synced d (m.loaded mi dict) where
  image := h
  data := hdata
  actualSize := rfl
  crcDigest := rfl
  enableExpire := rfl
  needLoad := hload
  needFullWriteback := hfull
  closed := hclosed
  readOnly := hro

lemma MMKV.checkLoadData_of_words (hparse : parseMeta d.crc = .ok mi) (hseq : mi.sequence = m.info.sequence)
    (hcrc : mi.crcDigest = m.crcDigest) (hsize : mi.actualSize = m.actualSize) (hload : m.needLoad = false) :
    m.checkLoadData d sys = m := by
  rw [checkLoadData, hload, if_neg (by decide)]
  split
  · rfl
  · rw [hparse]
    simp [hseq, hcrc, hsize]

lemma MMKV.checkLoadData_of_parse (hparse : parseMeta d.crc = .ok m.info) (hsize : m.actualSize = m.info.actualSize)
    (hcrc : m.crcDigest = m.info.crcDigest) (hload : m.needLoad = false) : m.checkLoadData d sys = m :=
  checkLoadData_of_words hparse rfl hcrc.symm hsize.symm hload

lemma MMKV.checkLoadData_of_writable (h : Synced d m.writable) : m.checkLoadData d sys = m :=
  checkLoadData_of_parse h.image.parse h.actualSize h.crcDigest h.needLoad

theorem MMKV.checkLoadData_of_steady (h : Steady d m) : m.checkLoadData d sys = m :=
  checkLoadData_of_parse h.parse h.actualSize h.crcDigest h.needLoad

theorem MMKV.checkLoadData_of_synced (h : Synced d m) : m.checkLoadData d sys = m := checkLoadData_of_steady h.steady

/-- **The probe after the cache was dropped**: the file is mapped and loaded again. -/
theorem MMKV.checkLoadData_reloads (h : Readable d mi)
    (hdec : parseDict (plainOf m.crypt mi.iv (d.region mi.actualSize)) = .ok dict) (hload : m.needLoad = true)
    (hsys : sys.remap = none) :
    m.checkLoadData d sys = ({ m with needLoad := false, data := ⟨d.data.length, true⟩ } : MMKV).loaded mi dict := by
  have hloaded := loadData_ok (m := { m with needLoad := false, data := ⟨d.data.length, true⟩ }) h rfl h.fits hdec
  rw [checkLoadData, hload, if_pos rfl, reloadBestEffort, if_pos rfl]
  simp only [hsys, MemoryFile.remap_ok, loadBestEffort, hloaded]

theorem MMKV.checkLoadData_of_needLoad (h : Image m.crypt d mi dict) (hload : m.needLoad = true)
    (hsys : sys.remap = none) :
    m.checkLoadData d sys = ({ m with needLoad := false, data := ⟨d.data.length, true⟩ } : MMKV).loaded mi dict :=
  checkLoadData_reloads h.readable h.decoded hload hsys

end Load

/-! ### Opening -/

/-- Freshly created files, of whatever size. -/
def Blank (d : Disk) : Prop := (∀ b ∈ d.data, b = 0) ∧ ∀ b ∈ d.crc, b = 0

theorem apply_openWrites (P : Platform) (d : Disk) :
    d.apply (openWrites P d) =
      ⟨d.data ++ List.replicate (pageRoundUp P 0 - d.data.length) 0,
        d.crc ++ List.replicate (pageRoundUp P metaSize - d.crc.length) 0⟩ := by
  -- a file that is long enough is left alone, which is the case of no zeros
  have hres : ∀ (xs : Bytes) (n : ℕ),
      (if xs.length < n then resize 0 xs n else xs) = xs ++ List.replicate (n - xs.length) 0 := by
    intro xs n
    split
    · next h => exact resize_of_le (Nat.le_of_lt h)
    · next h => simp [show n - xs.length = 0 by omega]
  rw [← hres, ← hres, openWrites, Disk.apply_append]
  split <;> split <;> rfl

lemma length_openWrites (P : Platform) (d : Disk) :
    (d.apply (openWrites P d)).data.length = max d.data.length P.pageSize := by
  rw [apply_openWrites, List.length_append, List.length_replicate, pageRoundUp_zero]
  omega

lemma Disk.region_append {d d' : Disk} {a : Bytes} {actual : UInt32} (hdata : d'.data = d.data ++ a)
    (hfits : 4 + actual.toNat ≤ d.data.length) : d'.region actual = d.region actual := by
  rw [Disk.region, hdata, slice_append_left hfits, Disk.region]

lemma parseMeta_append {d d' : Disk} {b : Bytes} {mi : MetaInfo} (hparse : parseMeta d.crc = .ok mi)
    (hcrc : d'.crc = d.crc ++ b) : parseMeta d'.crc = .ok mi := by
  have hlen := le_length_of_parseMeta hparse
  rw [hcrc, ← hparse]
  exact parseMeta_congr (by rw [List.length_append]; omega) hlen (List.take_append_of_le_length hlen)

theorem Readable.extend {d d' : Disk} {mi : MetaInfo} (h : Readable d mi) {a b : Bytes} (hdata : d'.data = d.data ++ a)
    (hcrc : d'.crc = d.crc ++ b) : Readable d' mi := by
  have hfits := h.fits
  refine ⟨parseMeta_append h.parse hcrc, h.current.congr ?_, ?_, h.bounded, ?_⟩
  · rw [hdata, slice_append_left (by omega)]
  · rw [hdata, List.length_append]
    omega
  · rw [Disk.region_append hdata hfits, h.crc]

lemma Sealed.extend {d d' : Disk} {mi : MetaInfo} (h : Sealed d mi) {a b : Bytes} (hdata : d'.data = d.data ++ a)
    (hcrc : d'.crc = d.crc ++ b) : Sealed d' mi := by
  have hfits := h.fits
  have hreadable := h.readable.extend hdata hcrc
  have hcurrent : mi.version = versionFlag ∨ mi = blankMeta ∧ getUint32 d'.data 0 = 0 := by
    refine h.current.imp_right fun ⟨hb, hz⟩ => ⟨hb, ?_⟩
    rw [← hz, getUint32_eq_slice, getUint32_eq_slice, hdata, slice_append_left (by omega)]
  exact ⟨hreadable.parse, hcurrent, hreadable.fits, h.bounded, hreadable.crc⟩

theorem Image.extend {crypt : Option Cipher} {d d' : Disk} {mi : MetaInfo} {dict : Dict} (h : Image crypt d mi dict)
    {a b : Bytes} (hdata : d'.data = d.data ++ a) (hcrc : d'.crc = d.crc ++ b) : Image crypt d' mi dict :=
  ⟨h.toSealed.extend hdata hcrc, by rw [Disk.region_append hdata h.fits, h.decoded], h.stamped⟩

theorem Image.resize {crypt : Option Cipher} {d : Disk} {mi : MetaInfo} {dict : Dict} {n : ℕ} (h : Image crypt d mi dict)
    (hver : mi.version = versionFlag) (hn : 4 + mi.actualSize.toNat ≤ n) :
    Image crypt { d with data := Lib.resize 0 d.data n } mi dict := by
  have hregion : ({ d with data := Lib.resize 0 d.data n } : Disk).region mi.actualSize = d.region mi.actualSize :=
    slice_resize hn h.fits
  refine ⟨⟨h.parse, .inl hver, ?_, h.bounded, ?_⟩, ?_, h.stamped⟩
  · rw [length_resize]
    exact hn
  · rw [hregion, h.crc]
  · rw [hregion, h.decoded]

lemma parseMeta_zeros {n : ℕ} (h : metaSize ≤ n) : parseMeta (List.replicate n 0) = .ok blankMeta := by
  have hblank : parseMeta (List.replicate metaSize 0) = .ok blankMeta := by decide
  rw [← hblank]
  refine parseMeta_congr (by simpa using h) (by simp) ?_
  rw [List.take_replicate, List.take_replicate, Nat.min_eq_left h, Nat.min_self]

theorem image_of_zeros (crypt : Option Cipher) {n k : ℕ} (hn : 4 ≤ n) (hk : metaSize ≤ k) :
    Image crypt ⟨List.replicate n 0, List.replicate k 0⟩ blankMeta ∅ := by
  have hregion : (⟨List.replicate n 0, List.replicate k 0⟩ : Disk).region blankMeta.actualSize = [] := by
    simp [Disk.region, slice, blankMeta]
  refine ⟨⟨parseMeta_zeros hk, .inr ⟨rfl, ?_⟩, ?_, by decide, ?_⟩, ?_, ?_⟩
  · rw [getUint32, uint32, List.drop_zero, List.take_replicate, Nat.min_eq_left hn]
    decide
  · simpa [blankMeta] using hn
  · rw [hregion]
    decide
  · rw [hregion]
    cases crypt <;> rfl
  · intro h
    exact absurd h (by decide)

lemma blank_absent : Blank ⟨[], []⟩ := ⟨by simp, by simp⟩

/-- What an open finds: files that hold a map, or fresh ones. -/
def Stored (crypt : Option Cipher) (d : Disk) (mi : MetaInfo) (dict : Dict) : Prop :=
  Image crypt d mi dict ∨ Blank d ∧ mi = blankMeta ∧ dict = ∅

theorem Stored.image {P : Platform} {crypt : Option Cipher} {d : Disk} {mi : MetaInfo} {dict : Dict}
    (h : Stored crypt d mi dict) : Image crypt (d.apply (openWrites P d)) mi dict := by
  have hp4 := P.four_le_pageSize
  rw [apply_openWrites, pageRoundUp_zero]
  rcases h with h | ⟨⟨hd, hc⟩, rfl, rfl⟩
  · exact h.extend rfl rfl
  · rw [List.eq_replicate_of_mem hd, List.eq_replicate_of_mem hc, List.replicate_append_replicate,
      List.replicate_append_replicate, List.length_replicate, List.length_replicate]
    have := le_pageRoundUp P metaSize
    exact image_of_zeros crypt (by omega) (by omega)

lemma Stored.sequenceOf_eq {crypt : Option Cipher} {d : Disk} {mi : MetaInfo} {dict : Dict} (h : Stored crypt d mi dict) :
    sequenceOf d = mi.sequence := by
  rcases h with h | ⟨⟨-, hc⟩, rfl, -⟩
  · exact sequenceOf_image h
  · by_cases hlen : metaSize ≤ d.crc.length
    · rw [sequenceOf, List.eq_replicate_of_mem hc, parseMeta_zeros hlen]
    · rw [sequenceOf, parseMeta, if_pos (by omega)]
      rfl

/-- The instance an open returns on files that hold a map. -/
def Config.opened (P : Platform) (cfg : Config) (d : Disk) (mi : MetaInfo) (dict : Dict) : MMKV :=
  (cfg.instance P ⟨d.data.length, true⟩).loaded mi dict

/-- The stores of an open that has nothing to repair. -/
def Config.openStores (P : Platform) (cfg : Config) (d : Disk) : List Write :=
  if cfg.readOnly then [] else openWrites P d

lemma Config.apply_openStores (P : Platform) (cfg : Config) (d : Disk) :
    ∃ a b, (d.apply (cfg.openStores P d)).data = d.data ++ a ∧ (d.apply (cfg.openStores P d)).crc = d.crc ++ b := by
  rw [Config.openStores]
  split
  · exact ⟨[], [], by simp⟩
  · rw [apply_openWrites]
    exact ⟨_, _, rfl, rfl⟩

lemma Config.openStores_of_writable {P : Platform} {cfg : Config} {d : Disk} (hro : cfg.readOnly = false) :
    cfg.openStores P d = openWrites P d := by simp [openStores, hro]

lemma Config.openStores_of_readOnly {P : Platform} {cfg : Config} {d : Disk} (hro : cfg.readOnly = true) :
    cfg.openStores P d = [] := by simp [openStores, hro]

lemma openMMKV_of_load {P : Platform} (sys : Sys) {cfg : Config} {d : Disk} {m : MMKV}
    (hlen : cfg.readOnly = true → 0 < d.data.length ∧ 0 < d.crc.length)
    (hload : (cfg.instance P ⟨(d.apply (cfg.openStores P d)).data.length, true⟩).loadData
      (d.apply (cfg.openStores P d)) = (m, none)) (hfull : m.needFullWriteback = false) :
    openMMKV P sys cfg d = (cfg.openStores P d, .ok m) := by
  cases hro : cfg.readOnly with
  | false =>
    rw [Config.openStores_of_writable hro] at hload ⊢
    simp [openMMKV, hro, MMKV.load, hload, hfull]
  | true =>
    have hempty : ¬ (d.data.length = 0 ∨ d.crc.length = 0) := by
      have := hlen hro
      omega
    rw [Config.openStores_of_readOnly hro, Disk.apply_nil] at hload
    rw [Config.openStores_of_readOnly hro]
    simp only [openMMKV, hro, if_true, if_neg hempty, MMKV.load, hload, hfull]
    rfl

lemma openMMKV_of_load_writable {P : Platform} (sys : Sys) {cfg : Config} {d : Disk} {m : MMKV} (hro : cfg.readOnly = false)
    (hload : (cfg.instance P ⟨(d.apply (openWrites P d)).data.length, true⟩).loadData (d.apply (openWrites P d)) =
      (m, none)) (hfull : m.needFullWriteback = false) :
    openMMKV P sys cfg d = (openWrites P d, .ok m) := by
  rw [← Config.openStores_of_writable hro] at hload ⊢
  exact openMMKV_of_load sys (by simp [hro]) hload hfull

theorem openMMKV_of_readable {P : Platform} (sys : Sys) {cfg : Config} {d : Disk} {mi : MetaInfo} {dict : Dict}
    (h : Readable d mi) (hro : cfg.readOnly = false)
    (hdec : parseDict (plainOf (cfg.crypt P) mi.iv (d.region mi.actualSize)) = .ok dict) :
    openMMKV P sys cfg d = (openWrites P d, .ok (cfg.opened P (d.apply (openWrites P d)) mi dict)) := by
  have hopen := apply_openWrites P d
  have hextend := h.extend (congrArg Disk.data hopen) (congrArg Disk.crc hopen)
  refine openMMKV_of_load_writable sys hro (MMKV.loadData_ok hextend rfl hextend.fits ?_) rfl
  rw [Disk.region_append (congrArg Disk.data hopen) h.fits]
  exact hdec

/-- **Opening for writing**: the files get their least sizes, and their map is loaded. -/
theorem openMMKV_of_stored {P : Platform} {sys : Sys} {cfg : Config} {d : Disk} {mi : MetaInfo} {dict : Dict}
    (h : Stored (cfg.crypt P) d mi dict) (hro : cfg.readOnly = false) :
    openMMKV P sys cfg d = (openWrites P d, .ok (cfg.opened P (d.apply (openWrites P d)) mi dict)) := by
  have himage := h.image (P := P)
  exact openMMKV_of_load_writable sys hro (MMKV.loadData_of_image himage rfl himage.fits) rfl

/-- **Opening read-only**: the map is loaded, and nothing is written. -/
theorem openMMKV_readOnly {P : Platform} {sys : Sys} {cfg : Config} {d : Disk} {mi : MetaInfo} {dict : Dict}
    (h : Readable d mi) (hro : cfg.readOnly = true)
    (hdec : parseDict (plainOf (cfg.crypt P) mi.iv (d.region mi.actualSize)) = .ok dict) :
    openMMKV P sys cfg d = ([], .ok (cfg.opened P d mi dict)) := by
  have hload := MMKV.loadData_ok (m := cfg.instance P ⟨d.data.length, true⟩) h rfl h.fits hdec
  have hfits := h.fits
  have hmeta := h.metaSize_le
  have hstores := Config.openStores_of_readOnly (P := P) (d := d) hro
  have hlen : cfg.readOnly = true → 0 < d.data.length ∧ 0 < d.crc.length :=
    fun _ => ⟨by omega, by rw [metaSize] at hmeta; omega⟩
  rw [openMMKV_of_load (P := P) sys hlen (by rw [hstores, Disk.apply_nil]; exact hload) rfl, hstores]
  rfl

/-- **Opening for writing files whose region does not parse** fails. -/
theorem openMMKV_error {P : Platform} {sys : Sys} {cfg : Config} {d : Disk} {mi : MetaInfo} {e : Err}
    (h : Readable d mi) (hro : cfg.readOnly = false)
    (he : parseDict (plainOf (cfg.crypt P) mi.iv (d.region mi.actualSize)) = .error e) :
    openMMKV P sys cfg d = (openWrites P d, .error e) := by
  have hopen := apply_openWrites P d
  have hextend := h.extend (congrArg Disk.data hopen) (congrArg Disk.crc hopen)
  have hload := MMKV.loadData_error (m := cfg.instance P ⟨(d.apply (openWrites P d)).data.length, true⟩) hextend rfl
    hextend.fits (by rw [Disk.region_append (congrArg Disk.data hopen) h.fits]; exact he)
  simp only [openMMKV, hro, MMKV.load, hload]
  simp

theorem Config.synced_opened {P : Platform} {cfg : Config} {d : Disk} {mi : MetaInfo} {dict : Dict}
    (h : Image (cfg.crypt P) d mi dict) (hro : cfg.readOnly = false) : Synced d (cfg.opened P d mi dict) :=
  MMKV.synced_loaded h rfl rfl rfl rfl hro

lemma Stored.image_of_length {crypt : Option Cipher} {d : Disk} {mi : MetaInfo} {dict : Dict} (h : Stored crypt d mi dict)
    (hdata : 4 ≤ d.data.length) (hcrc : metaSize ≤ d.crc.length) : Image crypt d mi dict := by
  rcases h with h | ⟨⟨hd, hc⟩, rfl, rfl⟩
  · exact h
  · rw [show d = ⟨d.data, d.crc⟩ from rfl, List.eq_replicate_of_mem hd, List.eq_replicate_of_mem hc]
    exact image_of_zeros crypt hdata hcrc

/-- **Opening files that hold a map**, for writing or for reading only: what the open stores, and what it returns. -/
theorem Stored.opens {P : Platform} {cfg : Config} {d : Disk} {mi : MetaInfo} {dict : Dict}
    (h : Stored (cfg.crypt P) d mi dict)
    (hro : cfg.readOnly = true → 4 ≤ d.data.length ∧ metaSize ≤ d.crc.length) (sys : Sys) :
    Image (cfg.crypt P) (d.apply (cfg.openStores P d)) mi dict ∧
      openMMKV P sys cfg d =
        (cfg.openStores P d, .ok (cfg.opened P (d.apply (cfg.openStores P d)) mi dict)) ∧
      Synced (d.apply (cfg.openStores P d)) (cfg.opened P (d.apply (cfg.openStores P d)) mi dict).writable := by
  have himage : Image (cfg.crypt P) (d.apply (cfg.openStores P d)) mi dict := by
    rw [Config.openStores]
    split
    · next hc => exact h.image_of_length (hro hc).1 (hro hc).2
    · exact h.image
  have hlen : cfg.readOnly = true → 0 < d.data.length ∧ 0 < d.crc.length := by
    intro hc
    have := hro hc
    rw [metaSize] at this
    omega
  exact ⟨himage, openMMKV_of_load sys hlen (MMKV.loadData_of_image himage rfl himage.fits) rfl,
    MMKV.synced_loaded (m := (cfg.instance P _).writable) himage rfl rfl rfl rfl rfl⟩

end MmkvGo.Store
