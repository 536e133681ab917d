import MmkvGo.Store.Instance

/-!
The operations of an instance (`mmkv.go`, `mmkv_io.go`, `mmkv_crypt.go`, `mmkv_expire.go`, `mmkv_compare.go`): opening,
the three write paths of a set (override, append, full write-back), removal, clearing, trimming, and the
changes of key and of expiration.

An operation is a function of the files and of the instance; it returns the stores it made, in program order, the
instance afterwards and the error.  What another process does between two operations is not part of it.
-/

namespace MmkvGo.Store

open MmkvGo.Lib MmkvGo.Wire MmkvGo.Crypt

/-- What an operation did. -/
structure Result where
  writes : List Write
  m : MMKV
  err : Option Err

/-! ### The loops on the file size -/

/-- `for target >= newSize { newSize *= 2 }`. -/
def doubleUntil (target : ℕ) : ℕ → ℕ → ℕ
  | 0, newSize => newSize
  | fuel + 1, newSize => if newSize ≤ target then doubleUntil target fuel (newSize * 2) else newSize

/-- `for target > limit { target /= 2 }`. -/
def halveUntil (limit : ℕ) : ℕ → ℕ → ℕ
  | 0, target => target
  | fuel + 1, target => if limit < target then halveUntil limit fuel (target / 2) else target

/-- The bytes a full write-back makes room for: a set makes room for more items of the average size. -/
def growthTarget (dictCount lenNeeded incoming : ℕ) : ℕ :=
  if 0 < incoming then
    let laterDicCount := max 1 (dictCount + 1)
    let avgItemSize := (lenNeeded + laterDicCount - 1) / laterDicCount
    let futureUsage := avgItemSize * max 8 (laterDicCount / 2)
    lenNeeded + futureUsage
  else lenNeeded

/-- The size a full write-back asks for the data file, `none` when it leaves it as it is. -/
def growth (fileSize dictCount lenNeeded : ℕ) (needSync : Bool) (incoming : ℕ) : Option ℕ :=
  let target := growthTarget dictCount lenNeeded incoming
  if fileSize ≤ lenNeeded ∨ (0 < incoming ∧ needSync ∧ fileSize ≤ target) then
    some (doubleUntil target (target + 1) (max fileSize 1))
  else none

/-- The size `Trim` gives the data file. -/
def trimTarget (P : Platform) (fileSize : ℕ) (actualSize : UInt32) : ℕ :=
  max (halveUntil ((actualSize.toNat + 4) * 2) fileSize fileSize) (pageRoundUp P 0)

/-! ### The write paths -/

namespace MMKV

variable (P : Platform) (sys : Sys) (d : Disk) (m : MMKV)

/-- The two meta words that an incremental write stores. -/
def metaWords (crcDigest actualSize : UInt32) : List Write :=
  [.word offCRC crcDigest, .word offActualSize actualSize]

/-- `appendRaw`. -/
def appendRaw (pair : Bytes) : List Write × MMKV :=
  let p := 4 + m.actualSize.toNat
  let actualSize := m.actualSize + UInt32.ofNat pair.length
  let crcDigest := Crc32.update m.crcDigest pair
  -- a process killed in here leaves the pair without its CRC, or the CRC without its size
  (dataWrites p pair ++ metaWords crcDigest actualSize,
    { m with
      actualSize := actualSize
      crcDigest := crcDigest
      info := { m.info with actualSize := actualSize, crcDigest := crcDigest } })

/-- `overrideRaw`. -/
def overrideRaw (key pair : Bytes) (blobLen : ℕ) : List Write × MMKV :=
  let p := 4 + itemSizeHolderBytes.length
  let stores := dataWrites 4 itemSizeHolderBytes ++ dataWrites p pair
  let mem := m.data.memory (d.apply stores)
  let actualSize := UInt32.ofNat (itemSizeHolderBytes.length + pair.length)
  -- the CRC is taken over the mapping, which by now has the pair
  let crcDigest := Crc32.checksum (slice mem 4 (4 + actualSize.toNat))
  let blobStart := p + (pair.length - blobLen)
  (stores ++ metaWords crcDigest actualSize,
    { m with
      actualSize := actualSize
      crcDigest := crcDigest
      info := { m.info with actualSize := actualSize, crcDigest := crcDigest }
      dict := m.dict.insert key (slice mem blobStart (blobStart + blobLen)) })

/-- What a full write-back puts on disk, and the IV: the region, encrypted under a fresh IV when there is a key. -/
def payload (region : Bytes) : Except Err (Bytes × Block) :=
  match m.crypt with
  | none => .ok (region, m.info.iv)
  | some E =>
    match sys.iv with
    | none => .error (.os .rand)
    | some iv =>
      match encrypt E region iv.toList with
      | .error e => .error e
      | .ok ct => .ok (ct, iv)

/-- The first error of the two `msync`s that end a write-back, a clear and a flush. -/
def flush : Option Err := (msync sys.syncData).or (msync sys.syncMeta)

/-- The part of `fullWritebackGrow` that makes room for `lenNeeded` bytes. -/
def grow (lenNeeded : ℕ) (needSync : Bool) (incoming : ℕ) : List Write × MemoryFile × Option Err :=
  match growth m.data.size m.dict.size lenNeeded needSync incoming with
  | none => ([], m.data, none)
  | some newSize => m.data.truncate P sys.grow newSize

/-- `fullWritebackGrow`. -/
def fullWritebackGrow (needSync : Bool) (incoming : ℕ) : Result :=
  let region := regionOf m.dict
  match m.payload sys region with
  -- nothing is stored, but the dict of m has the caller's change already
  | .error e => ⟨[], m, some e⟩
  | .ok (payload, iv) =>
    let m := { m with info := { m.info with iv := iv } }
    let (grown, data, err) := m.grow P sys (4 + payload.length + incoming) needSync incoming
    let m := { m with data := data }
    match err with
    -- the fresh IV stays in memory although no region was stored under it
    | some e => ⟨grown, m, some e⟩
    | none =>
      -- the length word of old versions stays zero
      let stores := grown ++ dataWrites 0 (List.replicate 4 0) ++ dataWrites 4 payload
      let mem := m.data.memory (d.apply stores)
      let actualSize := UInt32.ofNat payload.length
      let crcDigest := Crc32.checksum (slice mem 4 (4 + payload.length))
      let info : MetaInfo :=
        { m.info with
          sequence := m.info.sequence + 1
          version := versionFlag
          actualSize := actualSize
          crcDigest := crcDigest
          lastActualSize := actualSize
          lastCRCDigest := crcDigest }
      let m := { m with actualSize := actualSize, crcDigest := crcDigest, info := info }
      let writes := stores ++ crcWrites 0 info.marshal
      -- a plaintext region is parsed where it was stored, so that the dict is slices of the mapping
      let src := if m.crypt.isNone then slice mem 4 (4 + region.length) else region
      match parseDict src with
      -- both files are rewritten by now; the dict and the flag are as before
      | .error e => ⟨writes, m, some e⟩
      | .ok dict =>
        let m := { m with dict := dict, needFullWriteback := false }
        if !needSync then ⟨writes, m, none⟩ else ⟨writes, m, flush sys⟩

/-- `fullWriteback`. -/
def fullWriteback : Result := m.fullWritebackGrow P sys d true 0

/-- Whether a pair may be written in place: the region is plaintext, its CRC is right, and the meta is current. -/
def fastOK : Bool := m.crypt.isNone && !m.needFullWriteback && decide (versionFlag ≤ m.info.version)

/-- Whether `setBlob` takes the override path. -/
def overrides (key pair : Bytes) : Bool :=
  m.fastOK && !m.multiProcess && decide (4 + itemSizeHolderBytes.length + pair.length ≤ m.data.size) &&
    ((m.dict.contains key && m.dict.size == 1) || (m.dict.isEmpty && decide (0 < m.actualSize)))

/-- Whether `pair` fits the free tail; the source computes `spaceLeft` as a signed `int`. -/
def fitsTail (pair : Bytes) : Bool := decide (pair.length + 4 + m.actualSize.toNat ≤ m.data.size)

/-- Whether `setBlob` takes the append path, when it does not override. -/
def appends (pair : Bytes) : Bool := m.fastOK && m.fitsTail pair && !m.dict.isEmpty

/-- `setBlob`. -/
def setBlob (key blob : Bytes) : Result :=
  let wasEmpty := m.dict.isEmpty
  let pair := pairBytes key blob
  if m.overrides key pair then
    let (writes, m) := m.overrideRaw d key pair blob.length
    ⟨writes, m, none⟩
  else if m.appends pair then
    let p := 4 + m.actualSize.toNat
    let (writes, m) := m.appendRaw pair
    let blobStart := p + (pair.length - blob.length)
    let view := slice (m.data.memory (d.apply writes)) blobStart (blobStart + blob.length)
    ⟨writes, { m with dict := m.dict.insert key view }, none⟩
  -- the first pair of an empty store is not synced
  else { m with dict := m.dict.insert key blob }.fullWritebackGrow P sys d (!wasEmpty) pair.length

/-- `appendExpire`. -/
def appendExpire (blob : Bytes) (seconds : UInt32) : Bytes :=
  let ts := if seconds ≠ 0 then sys.now + seconds else 0
  blob ++ writeRawLittleEndian32 ts

/-- `setValueLocked`. -/
def setValueLocked (key blob : Bytes) : Result :=
  -- with expiration on, the stored bytes end in a timestamp and are not compared
  if m.compareBeforeSet && !m.enableExpire && m.dict[key]? == some blob then ⟨[], m, none⟩
  else m.setBlob P sys d key (if m.enableExpire then appendExpire sys blob m.expiredSeconds else blob)

/-- Whether `RemoveValueForKey` appends a tombstone: unlike `fastOK`, this does not ask for plaintext. -/
def appendsTombstone (tomb : Bytes) : Bool :=
  m.fitsTail tomb && decide (versionFlag ≤ m.info.version) && decide (0 < m.actualSize) && !m.needFullWriteback

/-- `RemoveValueForKey`, after the checks that all mutations share. -/
def removeValueForKey (key : Bytes) : Result :=
  if !m.dict.contains key then ⟨[], m, none⟩
  else
    -- the key is gone from memory whether or not the write-back below fails
    let m := { m with dict := m.dict.erase key }
    let tomb := pairBytes key []
    if m.appendsTombstone tomb then
      let (writes, m) := m.appendRaw tomb
      ⟨writes, m, none⟩
    else m.fullWriteback P sys d

/-- `RemoveValuesForKeys`, after the checks that all mutations share. -/
def removeValuesForKeys (keys : List Bytes) : Result :=
  if keys.all fun k => !m.dict.contains k then ⟨[], m, none⟩
  else { m with dict := keys.foldl (fun dict k => dict.erase k) m.dict }.fullWriteback P sys d

/-- `clearAllLocked`. -/
def clearAllLocked : Result :=
  let (resized, data, err) := m.data.truncate P sys.grow 0
  let m := { m with data := data }
  match err with
  | some e => ⟨resized, m, some e⟩
  | none =>
    -- the IV and the flags are kept
    let info : MetaInfo :=
      { m.info with
        sequence := m.info.sequence + 1
        version := versionFlag
        actualSize := 0
        crcDigest := 0
        lastActualSize := 0
        lastCRCDigest := 0 }
    ⟨resized ++ dataWrites 0 (List.replicate 4 0) ++ crcWrites 0 info.marshal,
      { m with dict := ∅, actualSize := 0, crcDigest := 0, info := info, needFullWriteback := false },
      flush sys⟩

/-- The part of `Trim` after the write-back: the file is cut down and the dict read back from it. -/
def shrink : Result :=
  let target := trimTarget P m.data.size m.actualSize
  if m.data.size ≤ target then ⟨[], m, none⟩
  else
    let (shrunk, data, err) := m.data.truncate P sys.shrink target
    let m := { m with data := data }
    match err with
    | some e => ⟨shrunk, m, some e⟩
    | none =>
      -- the dict's slices were of the old mapping
      match m.decodeRegion (d.apply shrunk) m.actualSize m.crcDigest with
      | (m, some e) => ⟨shrunk, m, some e⟩
      | (m, none) => ⟨shrunk, m, msync sys.syncTrim⟩

/-- `Trim`, after the checks that all mutations share. -/
def trim : Result :=
  if m.actualSize = 0 then m.clearAllLocked P sys
  else
    let r := m.fullWriteback P sys d
    match r.err with
    | some e => ⟨r.writes, r.m, some e⟩
    | none =>
      let s := r.m.shrink P sys (d.apply r.writes)
      ⟨r.writes ++ s.writes, s.m, s.err⟩

/-- `ReKey`, after the checks that all mutations share. -/
def reKey (newKey : Bytes) : Result :=
  let prev := m.crypt
  let crypt := if newKey = [] then none else some (newAESCFB P.aes newKey)
  let r := { m with crypt := crypt }.fullWriteback P sys d
  match r.err with
  -- the files may be under the new key already
  | some e => ⟨r.writes, { r.m with crypt := prev }, some e⟩
  | none => r

/-- The instance that `EnableAutoKeyExpire` writes back: on a first enable every value gets a timestamp of zero. -/
def withExpire (seconds : UInt32) : MMKV :=
  { m with
    expiredSeconds := seconds
    enableExpire := true
    compareBeforeSet := false
    info := { m.info with flags := m.info.flags ||| flagEnableExpire }
    dict := if m.enableExpire then m.dict else m.dict.map fun _ v => v ++ List.replicate 4 0 }

/-- `EnableAutoKeyExpire`, after the checks that all mutations share. -/
def enableAutoKeyExpire (seconds : UInt32) : Result := (m.withExpire seconds).fullWriteback P sys d

/-- The instance that `DisableAutoKeyExpire` writes back: the expired keys dropped, the other values stripped. -/
def withoutExpire : MMKV :=
  { m with
    dict := m.dict.filterMap fun _ v => slotValue true sys.now v
    enableExpire := false
    expiredSeconds := 0
    info := { m.info with flags := m.info.flags &&& ~~~flagEnableExpire } }

/-- `DisableAutoKeyExpire`, after the checks that all mutations share. -/
def disableAutoKeyExpire : Result :=
  if !m.enableExpire then ⟨[], m, none⟩ else (m.withoutExpire sys).fullWriteback P sys d

end MMKV

/-! ### Operations as the caller sees them -/

/-- A call that may change the instance or the files. -/
inductive Op where
  /-- `Set*` with the typed value -/
  | set (key : Bytes) (v : Value)
  | removeValueForKey (key : Bytes)
  | removeValuesForKeys (keys : List Bytes)
  | clearAll
  | trim
  /-- `Sync`, `Async` -/
  | sync
  | clearMemoryCache
  | enableAutoKeyExpire (seconds : UInt32)
  | disableAutoKeyExpire
  | enableCompareBeforeSet
  | disableCompareBeforeSet
  | reKey (newKey : Bytes)

namespace MMKV

variable (P : Platform) (sys : Sys) (d : Disk) (m : MMKV)

/-- The head of every mutation: a closed or a read-only instance refuses, any other one is brought up to date. -/
def mutate (body : MMKV → Result) : Result :=
  if m.closed then ⟨[], m, some .closed⟩
  else if m.readOnly then ⟨[], m, some .readOnly⟩
  else body (m.checkLoadData d sys)

/-- `ClearMemoryCache`. -/
def clearMemoryCache : MMKV :=
  if m.closed then m else { m with dict := ∅, actualSize := 0, crcDigest := 0, needLoad := true }

/-- `syncFlush`. -/
def syncFlush : Result :=
  if m.closed then ⟨[], m, some .closed⟩
  else if m.readOnly then ⟨[], m, none⟩
  else ⟨[], m, flush sys⟩

/-- `EnableCompareBeforeSet`. -/
def enableCompareBeforeSet : MMKV := if m.enableExpire then m else { m with compareBeforeSet := true }

/-- `DisableCompareBeforeSet`. -/
def disableCompareBeforeSet : MMKV := { m with compareBeforeSet := false }

/-- One call. -/
def exec : Op → Result
  | .set key v => m.mutate sys d fun m => m.setValueLocked P sys d key v.blob
  | .removeValueForKey key => m.mutate sys d fun m => m.removeValueForKey P sys d key
  | .removeValuesForKeys keys => m.mutate sys d fun m => m.removeValuesForKeys P sys d keys
  | .clearAll => m.mutate sys d fun m => m.clearAllLocked P sys
  | .trim => m.mutate sys d fun m => m.trim P sys d
  | .sync => m.syncFlush sys
  | .clearMemoryCache => ⟨[], m.clearMemoryCache, none⟩
  | .enableAutoKeyExpire seconds => m.mutate sys d fun m => m.enableAutoKeyExpire P sys d seconds
  | .disableAutoKeyExpire => m.mutate sys d fun m => m.disableAutoKeyExpire P sys d
  | .enableCompareBeforeSet => ⟨[], m.enableCompareBeforeSet, none⟩
  | .disableCompareBeforeSet => ⟨[], m.disableCompareBeforeSet, none⟩
  | .reKey newKey => m.mutate sys d fun m => m.reKey P sys d newKey

/-- A getter: a closed instance answers `zero`, any other one is brought up to date first. -/
def get {α : Type} (getter : View → α) (zero : α) : MMKV × α :=
  if m.closed then (m, zero)
  else
    let m := m.checkLoadData d sys
    (m, getter (m.view sys.now))

end MMKV

/-! ### Opening -/

/-- `mmkvConfig`, without the handler. -/
structure Config where
  multiProcess : Bool
  readOnly : Bool
  recover : Bool
  cryptKey : Bytes

/-- The key of a configuration. -/
def Config.crypt (P : Platform) (cfg : Config) : Option Cipher :=
  if cfg.cryptKey = [] then none else some (newAESCFB P.aes cfg.cryptKey)

/-- The record `MMKVWithID` starts from, with the data file mapped. -/
def Config.instance (P : Platform) (cfg : Config) (data : MemoryFile) : MMKV :=
  { multiProcess := cfg.multiProcess
    readOnly := cfg.readOnly
    recover := cfg.recover
    crypt := cfg.crypt P
    data := data
    info := ⟨0, 0, 0, Vector.replicate 16 0, 0, 0, 0, 0⟩
    dict := ∅
    actualSize := 0
    crcDigest := 0
    needLoad := false
    closed := false
    lastErr := none
    needFullWriteback := false
    enableExpire := false
    expiredSeconds := 0
    compareBeforeSet := false
    notified := 0 }

/-- The part of `open` after the files are mapped: load them, and repair a salvaged store. -/
def MMKV.load (P : Platform) (sys : Sys) (d : Disk) (m : MMKV) : List Write × Except Err MMKV :=
  match m.loadData d with
  | (_, some e) => ([], .error e)
  | (m, none) =>
    -- only salvage sets the flag; a read-only instance keeps what it salvaged in memory
    if m.needFullWriteback && !m.readOnly then
      let r := m.fullWriteback P sys d
      match r.err with
      | some e => (r.writes, .error e)
      | none => (r.writes, .ok r.m)
    else ([], .ok m)

/-- The stores of the two `openMemoryFile` calls of a writable open: the files get their least sizes. -/
def openWrites (P : Platform) (d : Disk) : List Write :=
  (if d.data.length < pageRoundUp P 0 then [.resize (pageRoundUp P 0)] else []) ++
    (if d.crc.length < pageRoundUp P metaSize then [.resizeCrc (pageRoundUp P metaSize)] else [])

/-- `MMKVWithID` on a file that this process does not have open: `open` with its files opened or created. -/
def openMMKV (P : Platform) (sys : Sys) (cfg : Config) (d : Disk) : List Write × Except Err MMKV :=
  if cfg.readOnly then
    if d.data.length = 0 ∨ d.crc.length = 0 then ([], .error .emptyFile)
    else (cfg.instance P ⟨d.data.length, true⟩).load P sys d
  else
    let opened := d.apply (openWrites P d)
    let (writes, res) := (cfg.instance P ⟨opened.data.length, true⟩).load P sys opened
    (openWrites P d ++ writes, res)

/-! ### What a call keeps -/

section Options

variable (P : Platform) (sys : Sys) (d : Disk) (m : MMKV)

/-- The instance `m'` has the key and the options of `m`, and as much to load. -/
def MMKV.SameOptions (m' m : MMKV) : Prop :=
  m'.closed = m.closed ∧ m'.readOnly = m.readOnly ∧ m'.crypt = m.crypt ∧ m'.needLoad = m.needLoad

lemma MMKV.loadRegion_options : (m.loadRegion d).1.SameOptions m := by
  have hdecode : ∀ (m' : MMKV) (actual crc : UInt32), (m'.decodeRegion d actual crc).1.SameOptions m' := by
    intro m' actual crc
    rw [decodeRegion]
    split
    · exact ⟨rfl, rfl, rfl, rfl⟩
    · split <;> exact ⟨rfl, rfl, rfl, rfl⟩
  simp only [loadRegion]
  split_ifs
  · exact hdecode ..
  · exact hdecode { m with info := _ } _ _
  · exact ⟨rfl, rfl, rfl, rfl⟩
  · exact ⟨rfl, rfl, rfl, rfl⟩

lemma MMKV.loadData_options : (m.loadData d).1.SameOptions m := by
  rw [loadData]
  split
  · exact ⟨rfl, rfl, rfl, rfl⟩
  · dsimp only
    split
    · exact ⟨rfl, rfl, rfl, rfl⟩
    · exact loadRegion_options d _

lemma MMKV.loadBestEffort_options : (m.loadBestEffort d).SameOptions m := by
  have hload := m.loadData_options d
  rw [loadBestEffort]
  split
  · next h =>
    rw [h] at hload
    exact hload
  · next h =>
    rw [h] at hload
    exact hload

lemma MMKV.checkLoadData_options : (m.checkLoadData d sys).SameOptions { m with needLoad := false } := by
  have hreload : ∀ (m' : MMKV) (remap : Bool), (m'.reloadBestEffort d sys remap).SameOptions m' := by
    intro m' remap
    rw [reloadBestEffort]
    split
    · split
      · exact ⟨rfl, rfl, rfl, rfl⟩
      · exact loadBestEffort_options d _
    · exact loadBestEffort_options d m'
  rw [checkLoadData]
  split
  · exact hreload _ true
  next hload =>
  have hsame : ({ m with needLoad := false } : MMKV) = m := by
    rw [Bool.not_eq_true] at hload
    rw [← hload]
  rw [hsame]
  split
  · exact ⟨rfl, rfl, rfl, rfl⟩
  split
  · exact ⟨rfl, rfl, rfl, rfl⟩
  split
  · exact hreload m true
  split
  · exact hreload m false
  · exact ⟨rfl, rfl, rfl, rfl⟩

lemma MMKV.fullWritebackGrow_closed (needSync : Bool) (incoming : ℕ) :
    (m.fullWritebackGrow P sys d needSync incoming).m.closed = m.closed := by
  rw [fullWritebackGrow]
  split
  · rfl
  dsimp only
  split
  · rfl
  split
  · rfl
  · split <;> rfl

lemma MMKV.setBlob_closed (key blob : Bytes) : (m.setBlob P sys d key blob).m.closed = m.closed := by
  dsimp only [setBlob]
  split
  · rfl
  split
  · rfl
  · exact fullWritebackGrow_closed ..

lemma MMKV.exec_set_closed (key : Bytes) (v : Value) : (m.exec P sys d (.set key v)).m.closed = m.closed := by
  have hset : ∀ m' : MMKV, (m'.setValueLocked P sys d key v.blob).m.closed = m'.closed := by
    intro m'
    rw [setValueLocked]
    split
    · rfl
    · exact setBlob_closed ..
  rw [exec, mutate]
  split
  · rfl
  split
  · rfl
  · exact (hset _).trans (m.checkLoadData_options sys d).1

lemma MMKV.get_closed {α : Type} (getter : View → α) (zero : α) : (m.get sys d getter zero).1.closed = m.closed := by
  rw [get]
  split
  · rfl
  · exact (m.checkLoadData_options sys d).1

lemma MMKV.load_closed {m m' : MMKV} (h : (m.load P sys d).2 = .ok m') : m'.closed = m.closed := by
  have hload := (m.loadData_options d).1
  rw [load] at h
  split at h
  · cases h
  next m₁ hm₁ =>
  rw [hm₁] at hload
  split at h
  · dsimp only at h
    split at h
    · cases h
    · cases h
      exact (fullWritebackGrow_closed ..).trans hload
  · cases h
    exact hload

lemma openMMKV_closed {cfg : Config} {m : MMKV} (h : (openMMKV P sys cfg d).2 = .ok m) : m.closed = false := by
  rw [openMMKV] at h
  split at h
  · split at h
    · cases h
    · exact MMKV.load_closed P sys d h
  · exact MMKV.load_closed P sys _ h

end Options

end MmkvGo.Store
