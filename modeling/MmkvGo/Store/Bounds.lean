import MmkvGo.Store.Agree

/-!
Loading arbitrary bytes.  A slice expression of Go panics when its bounds are out of range, which the slices of the model
do not: here every function that loads a store is given once more with its slices checked, `none` where the program
panics, and with the same result where it does not (`checkedLoadData_cases`).

The sizes come from the files.  Each is compared with the length of the file as an `int` and then added to 4 as a
`uint32`, so the bounds are right as long as that sum does not wrap (`Addressable`); and salvaging slices off a header
that a file of less than four bytes does not have.
-/

namespace MmkvGo.Store

open MmkvGo.Lib MmkvGo.Wire MmkvGo.Crypt

/-- The slice expression `b[lo:hi]`, `none` where it panics. -/
def checkedSlice (b : Bytes) (lo hi : ℕ) : Option Bytes :=
  if lo ≤ hi ∧ hi ≤ b.length then some (slice b lo hi) else none

namespace MMKV

variable (d : Disk) (m : MMKV)

/-- `m.data.memory()[4 : 4+actual]`. -/
def checkedRegion (actual : UInt32) : Option Bytes := checkedSlice (m.data.memory d) 4 (4 + actual).toNat

/-- `readActualSize`. -/
def checkedReadActualSize : Option UInt32 :=
  if versionActualSize ≤ m.info.version then some m.info.actualSize
  else if 4 ≤ m.data.len then (checkedSlice (m.data.memory d) 0 4).map fun b => getUint32 b 0
  else some 0

/-- `crcValid`. -/
def checkedCrcValid (actual want : UInt32) : Option Bool :=
  (m.checkedRegion d actual).map fun region => Crc32.checksum region == want

/-- The bounds and the CRC that `loadData` asks of a snapshot, in this order. -/
def checkedAccepts (actual want : UInt32) : Option Bool :=
  if actual.toNat < m.data.len ∧ actual.toNat + 4 ≤ m.data.len then m.checkedCrcValid d actual want else some false

/-- `decodeRegion`. -/
def checkedDecodeRegion (actual crc : UInt32) : Option (MMKV × Option Err) :=
  (m.checkedRegion d actual).map fun _ => m.decodeRegion d actual crc

/-- The size of the region that `salvage` decodes. -/
def salvageSize : UInt32 :=
  if m.data.len < m.info.actualSize.toNat + 4 then
    if 4 ≤ m.data.len then UInt32.ofNat (m.data.len - 4) else 0
  else m.info.actualSize

/-- `salvage`. -/
def checkedSalvage : Option MMKV := (m.checkedRegion d m.salvageSize).map fun _ => m.salvage d

/-- The part of `loadData` after the meta is read. -/
def checkedLoadRegion : Option (MMKV × Option Err) :=
  let mi := m.info
  (m.checkedReadActualSize d).bind fun actual =>
  (m.checkedAccepts d actual mi.crcDigest).bind fun current =>
  if current then m.checkedDecodeRegion d actual mi.crcDigest
  else
    (m.checkedAccepts d mi.lastActualSize mi.lastCRCDigest).bind fun last =>
    if last then
      let m := { m with info := { mi with actualSize := mi.lastActualSize, crcDigest := mi.lastCRCDigest } }
      m.checkedDecodeRegion d mi.lastActualSize mi.lastCRCDigest
    else if m.recover then (m.checkedSalvage d).map fun m => (m, none)
    else some ({ m with dict := ∅, actualSize := 0, crcDigest := 0 }, none)

/-- `loadData`. -/
def checkedLoadData : Option (MMKV × Option Err) :=
  match parseMeta d.crc with
  | .error e => some (m, some e)
  | .ok mi =>
    let m := { m with info := mi }
    if maxSupportedVersion < mi.version then some (m, some (.unsupportedVersion mi.version))
    else { m with enableExpire := decide (versionFlag ≤ mi.version) && mi.expireEnabled }.checkedLoadRegion d

end MMKV

/-- The files that an open maps. -/
def openedDisk (P : Platform) (cfg : Config) (d : Disk) : Disk :=
  if cfg.readOnly then d else d.apply (openWrites P d)

/-- `MMKVWithID`; a read-only open refuses empty files before it loads them. -/
def checkedOpen (P : Platform) (sys : Sys) (cfg : Config) (d : Disk) : Option (List Write × Except Err MMKV) :=
  if cfg.readOnly ∧ (d.data.length = 0 ∨ d.crc.length = 0) then some (openMMKV P sys cfg d)
  else
    ((cfg.instance P ⟨(openedDisk P cfg d).data.length, true⟩).checkedLoadData (openedDisk P cfg d)).map fun _ =>
      openMMKV P sys cfg d

/-- `buildSnapshot`. -/
def checkedBuildSnapshot (dec : Option Cipher) (d : Disk) : Option (Except Err Snapshot) :=
  match parseMeta d.crc with
  | .error e => some (.error e)
  | .ok mi =>
    if maxSupportedVersion < mi.version then some (.error (.unsupportedVersion mi.version))
    else
      let actual :=
        if versionActualSize ≤ mi.version then mi.actualSize
        else if 4 ≤ d.data.length then getUint32 d.data 0
        else 0
      if d.data.length < actual.toNat + 4 then some (.error (.sizeMismatch actual d.data.length))
      else (checkedSlice d.data 4 (4 + actual).toNat).map fun _ => buildSnapshot dec d

/-- `IsFileValid`. -/
def checkedIsFileValid (d : Disk) : Option Bool :=
  match parseMeta d.crc with
  | .error _ => some false
  | .ok mi =>
    if maxSupportedVersion < mi.version then some false
    else
      let actual :=
        if versionActualSize ≤ mi.version then mi.actualSize
        else if 4 ≤ d.data.length then getUint32 d.data 0
        else 0
      if d.data.length < actual.toNat + 4 then some false
      else (checkedSlice d.data 4 (4 + actual).toNat).map fun region => Crc32.checksum region == mi.crcDigest

/-- When a file of `n` bytes has room for a region of this size, its end is a `uint32`. -/
def Addressable (n : ℕ) (size : UInt32) : Prop := size.toNat + 4 ≤ n → size.toNat + 4 < 2 ^ 32

/-- The sizes that a load consults: the current one; the last-confirmed one when the current snapshot is not accepted; and
when neither is and the instance salvages, a file with a header, and the region cut to the file. -/
def MMKV.InBounds (d : Disk) (m : MMKV) : Prop :=
  Addressable m.data.len (m.readActualSize d) ∧
    (m.accepts d (m.readActualSize d) m.info.crcDigest = false →
      Addressable m.data.len m.info.lastActualSize ∧
        (m.accepts d m.info.lastActualSize m.info.lastCRCDigest = false → m.recover = true →
          4 ≤ m.data.len ∧ (m.data.len < 2 ^ 32 ∨ m.info.actualSize.toNat + 4 < 2 ^ 32)))

section Checked

variable {d : Disk} {m : MMKV} {actual want : UInt32}

lemma checkedSlice_eq_some {b r : Bytes} {lo hi : ℕ} (h : checkedSlice b lo hi = some r) : r = slice b lo hi := by
  rw [checkedSlice] at h
  split at h
  · exact (Option.some.inj h).symm
  · cases h

lemma isSome_checkedSlice {b : Bytes} {size : UInt32} :
    (checkedSlice b 4 (4 + size).toNat).isSome ↔ size.toNat + 4 ≤ b.length ∧ size.toNat + 4 < 2 ^ 32 := by
  have hlt := size.toNat_lt
  have hsum : (4 + size).toNat = (4 + size.toNat) % 2 ^ 32 := UInt32.toNat_add 4 size
  rw [checkedSlice, Option.isSome_ite, hsum]
  by_cases hwrap : size.toNat + 4 < 2 ^ 32
  · rw [Nat.mod_eq_of_lt (by omega)]
    omega
  · -- the sum wraps to less than the four bytes of the header
    rw [Nat.mod_eq_sub_mod (by omega), Nat.mod_eq_of_lt (by omega)]
    omega

lemma MMKV.checkedAccepts_eq {b : Bool} (h : m.checkedAccepts d actual want = some b) : b = m.accepts d actual want := by
  rw [checkedAccepts] at h
  split at h
  · next hroom =>
    obtain ⟨r, hr, rfl⟩ := Option.map_eq_some_iff.1 h
    rw [checkedSlice_eq_some hr, accepts, crcValid, region]
    simp [hroom]
  · next hroom =>
    cases h
    rw [accepts]
    simp only [not_and_or] at hroom
    simp only [Bool.false_eq, Bool.and_eq_false_iff, decide_eq_false_iff_not]
    exact .inl hroom

lemma MMKV.checkedDecodeRegion_eq {m' : MMKV} {crc : UInt32} (hm' : m'.data = m.data)
    (h : m.checkedAccepts d actual want = some true) :
    m'.checkedDecodeRegion d actual crc = some (m'.decodeRegion d actual crc) := by
  rw [checkedAccepts] at h
  split at h
  · obtain ⟨r, hr, -⟩ := Option.map_eq_some_iff.1 h
    have hr' : m'.checkedRegion d actual = some r := by rw [checkedRegion, hm', ← hr, checkedRegion]
    rw [checkedDecodeRegion, hr', Option.map_some]
  · cases h

/-! ### The slices of an instance that maps the whole file -/

section Mapped

variable (hdata : m.data = ⟨d.data.length, true⟩)

include hdata

lemma MMKV.length_memory : (m.data.memory d).length = m.data.len := by rw [hdata, MemoryFile.memory_whole]; rfl

lemma MMKV.isSome_checkedRegion :
    (m.checkedRegion d actual).isSome ↔ actual.toNat + 4 ≤ m.data.len ∧ actual.toNat + 4 < 2 ^ 32 := by
  rw [checkedRegion, isSome_checkedSlice, length_memory hdata]

lemma MMKV.checkedReadActualSize_eq : m.checkedReadActualSize d = some (m.readActualSize d) := by
  rw [checkedReadActualSize, readActualSize]
  split
  · rfl
  · split
    · next hlen =>
      rw [checkedSlice, if_pos ⟨by omega, by rw [length_memory hdata]; exact hlen⟩, Option.map_some,
        getUint32_eq_slice, getUint32_eq_slice]
      simp [slice, List.take_take]
    · rfl

/-- **Checking a snapshot** panics when the file has room for it but its end is not a `uint32`. -/
theorem MMKV.isSome_checkedAccepts : (m.checkedAccepts d actual want).isSome ↔ Addressable m.data.len actual := by
  rw [checkedAccepts, Addressable]
  split
  · next hroom =>
    rw [checkedCrcValid, Option.isSome_map, isSome_checkedRegion hdata]
    exact ⟨fun h _ => h.2, fun h => ⟨hroom.2, h hroom.2⟩⟩
  · next hroom =>
    exact iff_of_true rfl fun h => absurd ⟨by omega, h⟩ hroom

lemma MMKV.isSome_checkedSalvage : (m.checkedSalvage d).isSome ↔
    4 ≤ m.data.len ∧ (m.data.len < 2 ^ 32 ∨ m.info.actualSize.toNat + 4 < 2 ^ 32) := by
  have hlt := m.info.actualSize.toNat_lt
  rw [checkedSalvage, Option.isSome_map, isSome_checkedRegion hdata, salvageSize]
  split
  · split
    · rw [toNat_ofNat32 (by omega)]
      omega
    · rw [show (0 : UInt32).toNat = 0 from rfl]
      omega
  · omega

/-- **Loading a region never goes out of bounds exactly when the sizes it consults are in range**, and then it does what
it does without the checks. -/
theorem MMKV.checkedLoadRegion_cases :
    (m.InBounds d ∧ m.checkedLoadRegion d = some (m.loadRegion d)) ∨ (¬ m.InBounds d ∧ m.checkedLoadRegion d = none) := by
  rw [checkedLoadRegion, loadRegion, checkedReadActualSize_eq hdata, InBounds]
  simp only [Option.bind_some]
  -- in the order of the source: the current snapshot, the last-confirmed one, the salvage
  cases hcurrent : m.checkedAccepts d (m.readActualSize d) m.info.crcDigest with
  | none =>
    have hnot := (isSome_checkedAccepts hdata).not.1 (by rw [hcurrent]; simp)
    exact .inr ⟨fun h => hnot h.1, rfl⟩
  | some current =>
    have haddr := (isSome_checkedAccepts hdata).1 (by rw [hcurrent]; rfl)
    rw [← checkedAccepts_eq hcurrent]
    cases current with
    | true => simp [haddr, checkedDecodeRegion_eq rfl hcurrent]
    | false =>
      simp only [haddr, Option.bind_some, Bool.false_eq_true, if_false, true_and, forall_const]
      cases hlast : m.checkedAccepts d m.info.lastActualSize m.info.lastCRCDigest with
      | none =>
        have hnot := (isSome_checkedAccepts hdata).not.1 (by rw [hlast]; simp)
        exact .inr ⟨fun h => hnot h.1, rfl⟩
      | some last =>
        have haddr' := (isSome_checkedAccepts hdata).1 (by rw [hlast]; rfl)
        rw [← checkedAccepts_eq hlast]
        cases last with
        | true => exact .inl ⟨by simp [haddr'], checkedDecodeRegion_eq rfl hlast⟩
        | false =>
          simp only [haddr', Option.bind_some, Bool.false_eq_true, if_false, true_and, forall_const]
          split
          · next hrecover =>
            have hiff := isSome_checkedSalvage hdata
            cases hsalvage : m.checkedSalvage d with
            | none =>
              rw [hsalvage] at hiff
              exact .inr ⟨fun h => by simpa using hiff.2 (h hrecover), rfl⟩
            | some m' =>
              rw [hsalvage] at hiff
              obtain ⟨r, -, rfl⟩ := Option.map_eq_some_iff.1 hsalvage
              exact .inl ⟨fun _ => hiff.1 rfl, rfl⟩
          · next hrecover => exact .inl ⟨fun h => absurd h hrecover, rfl⟩

theorem MMKV.checkedLoadData_cases {mi : MetaInfo} (hparse : parseMeta d.crc = .ok mi)
    (hver : mi.version ≤ maxSupportedVersion) :
    ((m.underMeta mi).InBounds d ∧ m.checkedLoadData d = some (m.loadData d)) ∨
      (¬ (m.underMeta mi).InBounds d ∧ m.checkedLoadData d = none) := by
  have hchecked : m.checkedLoadData d = (m.underMeta mi).checkedLoadRegion d := by
    rw [checkedLoadData, hparse]
    simp only [if_neg (UInt32.not_lt.2 hver)]
    rfl
  rw [hchecked, loadData_supported hparse hver]
  exact checkedLoadRegion_cases hdata

end Mapped

end Checked

/-! ### Opening arbitrary files -/

/-- The instance of an open after it read the meta of the files. -/
def Config.reading (P : Platform) (cfg : Config) (d : Disk) (mi : MetaInfo) : MMKV :=
  (cfg.instance P ⟨(openedDisk P cfg d).data.length, true⟩).underMeta mi

/-- The sizes in the files are in range for each of the three ways to read them. -/
def SizesInRange (P : Platform) (cfg : Config) (d : Disk) : Prop :=
  ∀ mi, parseMeta d.crc = .ok mi → mi.version ≤ maxSupportedVersion →
    Addressable d.data.length (d.actualSize mi) ∧ (cfg.reading P d mi).InBounds (openedDisk P cfg d)

section Open

variable {P : Platform} {sys : Sys} {cfg : Config} {d : Disk} {mi : MetaInfo}

lemma length_openedDisk : (openedDisk P cfg d).data.length =
    if cfg.readOnly then d.data.length else max d.data.length P.pageSize := by
  rw [openedDisk]
  split
  · rfl
  · exact length_openWrites P d

lemma parseMeta_openedDisk (hparse : parseMeta d.crc = .ok mi) : parseMeta (openedDisk P cfg d).crc = .ok mi := by
  rw [openedDisk]
  split
  · exact hparse
  · exact parseMeta_append hparse (congrArg Disk.crc (apply_openWrites P d))

/-- **Opening files** goes out of bounds exactly when a size that the load consults is out of range. -/
theorem checkedOpen_cases (P : Platform) (sys : Sys) (cfg : Config) (hdata : d.data ≠ []) (hparse : parseMeta d.crc = .ok mi)
    (hver : mi.version ≤ maxSupportedVersion) :
    ((cfg.reading P d mi).InBounds (openedDisk P cfg d) ∧ checkedOpen P sys cfg d = some (openMMKV P sys cfg d)) ∨
      (¬ (cfg.reading P d mi).InBounds (openedDisk P cfg d) ∧ checkedOpen P sys cfg d = none) := by
  have hcrc := le_length_of_parseMeta hparse
  have hopen : ¬ (cfg.readOnly = true ∧ (d.data.length = 0 ∨ d.crc.length = 0)) := by
    rintro ⟨-, h | h⟩
    · exact hdata (List.length_eq_zero_iff.1 h)
    · simp only [metaSize] at hcrc
      omega
  rw [checkedOpen, if_neg hopen]
  refine (MMKV.checkedLoadData_cases (m := cfg.instance P ⟨(openedDisk P cfg d).data.length, true⟩) rfl
    (parseMeta_openedDisk hparse) hver).imp (fun h => ⟨h.1, ?_⟩) fun h => ⟨h.1, ?_⟩
  · rw [h.2, Option.map_some]
  · rw [h.2, Option.map_none]

lemma checkedOpen_unsupported (sys : Sys) (hparse : parseMeta d.crc = .ok mi) (hver : ¬ mi.version ≤ maxSupportedVersion) :
    (checkedOpen P sys cfg d).isSome := by
  rw [checkedOpen]
  split
  · rfl
  · rw [Option.isSome_map, MMKV.checkedLoadData, parseMeta_openedDisk hparse]
    simp only [if_pos (UInt32.not_le.1 hver), Option.isSome_some]

lemma isSome_checkedRead {α : Type} {x y : α} (f : Bytes → α) (hver : mi.version ≤ maxSupportedVersion) :
    (if maxSupportedVersion < mi.version then some x
      else if d.data.length < (d.actualSize mi).toNat + 4 then some y
      else (checkedSlice d.data 4 (4 + d.actualSize mi).toNat).map f).isSome ↔
      Addressable d.data.length (d.actualSize mi) := by
  rw [if_neg (UInt32.not_lt.2 hver), Addressable]
  split
  · exact iff_of_true rfl fun h => by omega
  · rw [Option.isSome_map, isSome_checkedSlice]
    omega

lemma isSome_checkedBuildSnapshot (dec : Option Cipher) (hparse : parseMeta d.crc = .ok mi)
    (hver : mi.version ≤ maxSupportedVersion) :
    (checkedBuildSnapshot dec d).isSome ↔ Addressable d.data.length (d.actualSize mi) := by
  rw [checkedBuildSnapshot, hparse]
  exact isSome_checkedRead _ hver

lemma isSome_checkedIsFileValid (hparse : parseMeta d.crc = .ok mi) (hver : mi.version ≤ maxSupportedVersion) :
    (checkedIsFileValid d).isSome ↔ Addressable d.data.length (d.actualSize mi) := by
  rw [checkedIsFileValid, hparse]
  exact isSome_checkedRead _ hver

/-- **Loading never goes out of bounds exactly when the sizes in the files are in range**, for every content of the two
files, every set of options and every key. -/
theorem load_in_bounds_iff (P : Platform) (sys : Sys) (cfg : Config) (dec : Option Cipher) (hdata : d.data ≠ [])
    (hmeta : metaSize ≤ d.crc.length) :
    ((checkedOpen P sys cfg d).isSome ∧ (checkedBuildSnapshot dec d).isSome ∧ (checkedIsFileValid d).isSome) ↔
      SizesInRange P cfg d := by
  obtain ⟨mi, hparse⟩ : ∃ mi, parseMeta d.crc = .ok mi := ⟨_, parseMeta_ok hmeta⟩
  by_cases hver : mi.version ≤ maxSupportedVersion
  · have hrange : SizesInRange P cfg d ↔ Addressable d.data.length (d.actualSize mi) ∧
        (cfg.reading P d mi).InBounds (openedDisk P cfg d) := by
      refine ⟨fun h => h mi hparse hver, fun h mi' hparse' _ => ?_⟩
      cases hparse.symm.trans hparse'
      exact h
    rw [hrange, isSome_checkedBuildSnapshot dec hparse hver, isSome_checkedIsFileValid hparse hver, and_self, and_comm]
    refine and_congr_right fun _ => ?_
    rcases checkedOpen_cases P sys cfg hdata hparse hver with ⟨hin, hopen⟩ | ⟨hout, hopen⟩
    · exact iff_of_true (by rw [hopen]; rfl) hin
    · exact iff_of_false (by rw [hopen]; simp) hout
  · refine iff_of_true ⟨checkedOpen_unsupported sys hparse hver, ?_, ?_⟩ fun mi' hparse' hver' => ?_
    · rw [checkedBuildSnapshot, hparse]
      simp only [if_pos (UInt32.not_le.1 hver), Option.isSome_some]
    · rw [checkedIsFileValid, hparse]
      simp only [if_pos (UInt32.not_le.1 hver), Option.isSome_some]
    · cases hparse.symm.trans hparse'
      exact absurd hver' hver

/-- Files of less than 4 GiB are in range, unless they have no header and a read-only instance is to salvage them. -/
theorem sizesInRange_of_lt (hlt : d.data.length < 2 ^ 32)
    (hheader : cfg.readOnly = true → cfg.recover = true → 4 ≤ d.data.length) : SizesInRange P cfg d := by
  have hp := P.pageSize_lt
  have hp4 := P.four_le_pageSize
  have hopened : (openedDisk P cfg d).data.length < 2 ^ 32 := by
    rw [length_openedDisk]
    split <;> omega
  intro mi _ _
  refine ⟨fun h => by omega, fun h => ?_, fun _ => ⟨fun h => ?_, fun _ hrecover => ⟨?_, .inl hopened⟩⟩⟩
  · exact Nat.lt_of_le_of_lt h hopened
  · exact Nat.lt_of_le_of_lt h hopened
  · show 4 ≤ (openedDisk P cfg d).data.length
    rw [length_openedDisk]
    split
    · next hro => exact hheader hro hrecover
    · omega

end Open

/-! ### A file of one byte -/

/-- A data file without a header, and a blank meta. -/
def headless : Disk := ⟨[0], List.replicate metaSize 0⟩

/-- A writable instance loads it. -/
theorem headless_loads :
    headless.data ≠ [] ∧ metaSize ≤ headless.crc.length ∧ (checkedOpen linux calm defaults headless).isSome ∧
      (checkedBuildSnapshot none headless).isSome ∧ (checkedIsFileValid headless).isSome :=
  ⟨by decide, by decide, (load_in_bounds_iff linux calm defaults none (by decide) (by decide)).2
    (sizesInRange_of_lt (by decide) (fun h => by cases h))⟩

/-- **A read-only instance that is to salvage it panics**: it slices the bytes after a header that is not there. -/
theorem headless_panics : (checkedOpen linux calm ⟨false, true, true, []⟩ headless).isNone := by decide +kernel

/-! ### Damaged files of the versions before 3

They keep the size of the region in the header of the data file, and their meta has no last-confirmed snapshot: its bytes
are zero.  Zero is the size and the CRC of an empty region, which every file has, so loading falls back to it. -/

/-- A store of version 0, 1 or 2 whose region lies in the file and does not have its CRC. -/
structure DamagedLegacy (d : Disk) (mi : MetaInfo) : Prop where
  parse : parseMeta d.crc = .ok mi
  version : mi.version < versionActualSize
  lastActualSize : mi.lastActualSize = 0
  lastCRCDigest : mi.lastCRCDigest = 0
  fits : 4 + (getUint32 d.data 0).toNat ≤ d.data.length
  crc : Crc32.checksum (d.region (getUint32 d.data 0)) ≠ mi.crcDigest

section Legacy

variable {P : Platform} {sys : Sys} {cfg : Config} {d : Disk} {mi : MetaInfo}

lemma DamagedLegacy.supported (h : DamagedLegacy d mi) : mi.version ≤ maxSupportedVersion :=
  UInt32.le_of_lt (UInt32.lt_trans h.version (by decide))

lemma openMMKV_of_loadData {m : MMKV} (sys : Sys) (hdata : d.data ≠ []) (hcrc : d.crc ≠ [])
    (hload : (cfg.instance P ⟨(openedDisk P cfg d).data.length, true⟩).loadData (openedDisk P cfg d) = (m, none))
    (hfull : m.needFullWriteback = false) : (openMMKV P sys cfg d).2 = .ok m := by
  rw [openedDisk] at hload
  cases hro : cfg.readOnly with
  | true =>
    simp only [hro, if_true] at hload
    simp [openMMKV, hro, hdata, hcrc, MMKV.load, hload, hfull]
  | false =>
    simp only [hro, Bool.false_eq_true, if_false] at hload
    rw [openMMKV_of_load_writable sys hro hload hfull]

lemma openedDisk_data (P : Platform) (cfg : Config) (d : Disk) : ∃ a, (openedDisk P cfg d).data = d.data ++ a := by
  rw [openedDisk]
  split
  · exact ⟨[], (List.append_nil _).symm⟩
  · exact ⟨_, congrArg Disk.data (apply_openWrites P d)⟩

namespace DamagedLegacy

variable (h : DamagedLegacy d mi)

include h

lemma four_le : 4 ≤ (openedDisk P cfg d).data.length := by
  obtain ⟨a, ha⟩ := openedDisk_data P cfg d
  have := h.fits
  rw [ha, List.length_append]
  omega

lemma readActualSize_eq :
    (cfg.reading P d mi).readActualSize (openedDisk P cfg d) = getUint32 d.data 0 := by
  obtain ⟨a, ha⟩ := openedDisk_data P cfg d
  have hfits := h.fits
  have hlen : (cfg.reading P d mi).data = ⟨(openedDisk P cfg d).data.length, true⟩ := rfl
  have hinfo : (cfg.reading P d mi).info = mi := rfl
  rw [MMKV.readActualSize, hinfo, hlen, if_neg (UInt32.not_le.2 h.version), MemoryFile.len_mapped, if_pos h.four_le,
    MemoryFile.memory_whole, getUint32_eq_slice, getUint32_eq_slice, ha, slice_append_left (by omega)]

lemma accepts_eq (P : Platform) (cfg : Config) (hbounded : 4 + (getUint32 d.data 0).toNat < 2 ^ 32) :
    (cfg.reading P d mi).accepts (openedDisk P cfg d) (getUint32 d.data 0) mi.crcDigest = false ∧
      (cfg.reading P d mi).accepts (openedDisk P cfg d) 0 0 = true := by
  obtain ⟨a, ha⟩ := openedDisk_data P cfg d
  have hlen : (cfg.reading P d mi).data = ⟨(openedDisk P cfg d).data.length, true⟩ := rfl
  constructor
  · rw [← Bool.not_eq_true, MMKV.accepts_iff hlen hbounded, Disk.region_append ha h.fits]
    exact fun hc => h.crc hc.2
  · rw [MMKV.accepts_iff hlen (by decide), Disk.region_zero]
    exact ⟨h.four_le, rfl⟩

/-- **What opening such files with the recovery on serves**: nothing, when the size in the header is one that the program
can add to the header's, and then it did not salvage. -/
theorem open_eq (P : Platform) (sys : Sys) (cfg : Config) (hbounded : 4 + (getUint32 d.data 0).toNat < 2 ^ 32) :
    ∃ m, (openMMKV P sys cfg d).2 = .ok m ∧ m.dict = ∅ ∧ m.needFullWriteback = false := by
  obtain ⟨hcurrent, hlast⟩ := h.accepts_eq P cfg hbounded
  have hfits := h.fits
  have hdata : d.data ≠ [] := fun h0 => by simp [h0] at hfits
  have hcrc : d.crc ≠ [] := fun h0 => by
    have := le_length_of_parseMeta h.parse
    simp [h0, metaSize] at this
  have hinfo : (cfg.reading P d mi).info = mi := rfl
  have hregion : ∀ m : MMKV, m.data = ⟨(openedDisk P cfg d).data.length, true⟩ →
      m.decodeRegion (openedDisk P cfg d) 0 0 = ({ m with dict := ∅, actualSize := 0, crcDigest := 0 }, none) := by
    intro m hm
    have hreg : m.region (openedDisk P cfg d) 0 = (openedDisk P cfg d).region 0 :=
      MMKV.region_eq hm h.four_le (by decide)
    refine MMKV.decodeRegion_ok 0 hreg ?_
    rw [Disk.region_zero]
    cases m.crypt <;> rfl
  have hload : (cfg.instance P ⟨(openedDisk P cfg d).data.length, true⟩).loadData (openedDisk P cfg d) = _ :=
    MMKV.loadData_supported (parseMeta_openedDisk h.parse) h.supported
  rw [← Config.reading, MMKV.loadRegion] at hload
  simp only [h.readActualSize_eq, hinfo, hcurrent, h.lastActualSize, h.lastCRCDigest, hlast, Bool.false_eq_true, if_false,
    if_true] at hload
  rw [hregion _ (by rfl)] at hload
  exact ⟨_, openMMKV_of_loadData sys hdata hcrc hload rfl, rfl, rfl⟩

end DamagedLegacy

/-- The only size that can be out of range is the one in the header. -/
lemma DamagedLegacy.inBounds_iff (h : DamagedLegacy d mi) :
    (cfg.reading P d mi).InBounds (openedDisk P cfg d) ↔ 4 + (getUint32 d.data 0).toNat < 2 ^ 32 := by
  obtain ⟨a, ha⟩ := openedDisk_data P cfg d
  have hfits := h.fits
  have hlen : (cfg.reading P d mi).data.len = (openedDisk P cfg d).data.length := rfl
  have hinfo : (cfg.reading P d mi).info = mi := rfl
  rw [MMKV.InBounds, h.readActualSize_eq, hinfo, hlen, h.lastActualSize, h.lastCRCDigest]
  refine ⟨fun hin => ?_, fun hbounded => ⟨fun _ => by omega, fun _ => ⟨fun _ => by decide, fun hlast => ?_⟩⟩⟩
  · have := hin.1 (by rw [ha, List.length_append]; omega)
    omega
  · rw [(h.accepts_eq P cfg hbounded).2] at hlast
    cases hlast

/-- **Which damaged files of the old versions are recovered.**  Such a store serves what can be decoded of the region that
the header names exactly when that is nothing, and the program can add the header's size to that of the region; the
option to recover makes no difference. -/
theorem legacy_recovered_iff (P : Platform) (sys : Sys) (cfg : Config) (h : DamagedLegacy d mi) :
    (∃ ws m, checkedOpen P sys cfg d = some (ws, .ok m) ∧
        m.dict = parseDictGreedy (plainOf (cfg.crypt P) mi.iv (d.region (getUint32 d.data 0)))) ↔
      4 + (getUint32 d.data 0).toNat < 2 ^ 32 ∧
        parseDictGreedy (plainOf (cfg.crypt P) mi.iv (d.region (getUint32 d.data 0))) = ∅ := by
  have hfits := h.fits
  have hdata : d.data ≠ [] := fun h0 => by simp [h0] at hfits
  have hcases := checkedOpen_cases P sys cfg hdata h.parse h.supported
  rw [h.inBounds_iff] at hcases
  rcases hcases with ⟨hbounded, hopen⟩ | ⟨hwraps, hopen⟩
  · obtain ⟨m, hm, hdict, -⟩ := h.open_eq P sys cfg hbounded
    rw [hopen]
    constructor
    · rintro ⟨ws, m', heq, hserves⟩
      rw [Option.some.inj heq] at hm
      cases hm
      exact ⟨hbounded, hserves.symm.trans hdict⟩
    · rintro ⟨-, hempty⟩
      exact ⟨_, m, congrArg some (Prod.ext rfl hm), hdict.trans hempty.symm⟩
  · rw [hopen]
    exact iff_of_false (by rintro ⟨ws, m, heq, -⟩; cases heq) fun hc => hwraps hc.1

end Legacy

/-! ### A damaged store of version 2 -/

/-- The options of `WithRecoverOnError`. -/
def recovering : Config := ⟨false, false, true, []⟩

/-- A store of version 2 whose meta has no CRC of this region. -/
def versionTwo (region : Bytes) : Disk :=
  ⟨[5, 0, 0, 0] ++ region, putUint32 (putUint32 (List.replicate metaSize 0) offCRC 1) offVersion 2⟩

/-- A damaged region that holds nothing. -/
theorem versionTwo_erased :
    ∃ ws m, checkedOpen linux calm recovering (versionTwo [0, 0, 0, 0, 0]) = some (ws, .ok m) ∧
      m.dict = parseDictGreedy (plainOf none blankMeta.iv ((versionTwo [0, 0, 0, 0, 0]).region 5)) := by
  have hdamaged : DamagedLegacy (versionTwo [0, 0, 0, 0, 0]) { blankMeta with crcDigest := 1, version := 2 } := by
    refine ⟨?_, ?_, ?_, ?_, ?_, ?_⟩ <;> decide +kernel
  have hsize : getUint32 (versionTwo [0, 0, 0, 0, 0]).data 0 = 5 := by decide +kernel
  have hrecovered := legacy_recovered_iff linux calm recovering hdamaged
  rw [hsize] at hrecovered
  exact hrecovered.2 ⟨by decide, rfl⟩

/-- **A damaged region that holds a pair**: it can be decoded, and is not served. -/
theorem versionTwo_not_recovered :
    let d := versionTwo [4, 1, 97, 1, 1]
    DamagedLegacy d { blankMeta with crcDigest := 1, version := 2 } ∧
      (parseDictGreedy (d.region (getUint32 d.data 0)))[([97] : Bytes)]? = some [1] ∧
      ((checkedOpen linux calm recovering d).map fun r => r.2.toOption.map fun m => m.dict[([97] : Bytes)]?) =
        some (some none) := by
  refine ⟨⟨?_, ?_, ?_, ?_, ?_, ?_⟩, ?_, ?_⟩ <;> decide +kernel

end MmkvGo.Store
