import MmkvGo.Lib.Crc32
import MmkvGo.Store.Disk
import MmkvGo.Wire.Values

/-!
An instance and how it loads its files (`mmkv.go`): `loadData` with its three outcomes, the current snapshot, the
last-confirmed one, and discarding or salvaging; and the freshness probe `checkLoadData`.

The dict of the source holds views into the mapping or into a heap buffer.  Here it holds the bytes a view showed
when it was made: every path of the source that changes bytes under a view replaces the view before the dict is
used again, except where a rewrite or a reload fails half-way.
-/

namespace MmkvGo.Store

open MmkvGo.Lib MmkvGo.Wire MmkvGo.Crypt

/-- `MMKV`.  The names, the registry key, the locks and the mapping of the ".crc" file are not part of
the record; `notified` counts the calls of the content-changed handler. -/
structure MMKV where
  multiProcess : Bool
  readOnly : Bool
  recover : Bool
  crypt : Option Cipher
  data : MemoryFile
  info : MetaInfo
  dict : Dict
  actualSize : UInt32
  crcDigest : UInt32
  needLoad : Bool
  closed : Bool
  lastErr : Option Err
  needFullWriteback : Bool
  enableExpire : Bool
  expiredSeconds : UInt32
  compareBeforeSet : Bool
  notified : ℕ

/-- What the system does during one operation: the clock, the IV drawn and the calls that fail. -/
structure Sys where
  /-- `nowUnix()` -/
  now : UInt32
  /-- `randomIV()`; `none` when it fails -/
  iv : Option Block
  /-- the call of `remap` that fails -/
  remap : Option Syscall
  /-- the call that fails in the `truncate` of a write-back or of a clear -/
  grow : Option Syscall
  /-- the call that fails in the second `truncate` of `Trim` -/
  shrink : Option Syscall
  /-- whether the `msync` of the data file fails -/
  syncData : Bool
  /-- whether the `msync` of the ".crc" file fails -/
  syncMeta : Bool
  /-- whether the last `msync` of `Trim` fails -/
  syncTrim : Bool

/-- No call fails. -/
structure Sys.OK (sys : Sys) : Prop where
  iv : sys.iv.isSome
  remap : sys.remap = none
  grow : sys.grow = none
  shrink : sys.shrink = none
  syncData : sys.syncData = false
  syncMeta : sys.syncMeta = false
  syncTrim : sys.syncTrim = false

namespace MMKV

variable (d : Disk) (m : MMKV)

/-- `readActualSize`: from the meta, or from the header of the data file before version 3. -/
def readActualSize : UInt32 :=
  if versionActualSize ≤ m.info.version then m.info.actualSize
  else if 4 ≤ m.data.len then getUint32 (m.data.memory d) 0
  else 0

/-- `m.data.memory()[4 : 4+actual]`, with the sum a `uint32`. -/
def region (actual : UInt32) : Bytes := slice (m.data.memory d) 4 (4 + actual).toNat

/-- `crcValid`. -/
def crcValid (actual want : UInt32) : Bool := Crc32.checksum (m.region d actual) == want

/-- The plaintext of a region, which is ciphertext when the instance has a key. -/
def plain (region : Bytes) : Except Err Bytes :=
  match m.crypt with
  | none => .ok region
  | some E => decrypt E region m.info.iv.toList

/-- `decodeRegion`. -/
def decodeRegion (actual crc : UInt32) : MMKV × Option Err :=
  match m.plain (m.region d actual) with
  | .error e => (m, some e)
  | .ok plain =>
    match parseDict plain with
    | .error e => (m, some e)
    | .ok dict => ({ m with dict := dict, actualSize := actual, crcDigest := crc }, none)

/-- `salvage`. -/
def salvage : MMKV :=
  let fileSize := m.data.len
  let actual :=
    if fileSize < m.info.actualSize.toNat + 4 then
      if 4 ≤ fileSize then UInt32.ofNat (fileSize - 4) else 0
    else m.info.actualSize
  let region := m.region d actual
  let plain :=
    match m.plain region with
    -- a region that cannot be decrypted is parsed as it is
    | .error _ => region
    | .ok plain => plain
  { m with
    dict := parseDictGreedy plain
    -- the words of the meta, not what was read, or every later check would reload
    actualSize := m.info.actualSize
    crcDigest := m.info.crcDigest
    needFullWriteback := true }

/-- The bounds and the CRC that `loadData` asks of a snapshot. -/
def accepts (actual want : UInt32) : Bool :=
  decide (actual.toNat < m.data.len) && decide (actual.toNat + 4 ≤ m.data.len) && m.crcValid d actual want

/-- The part of `loadData` after the meta is read: the current snapshot, else the last-confirmed one, else what can be
salvaged, else nothing. -/
def loadRegion : MMKV × Option Err :=
  let mi := m.info
  let actual := m.readActualSize d
  if m.accepts d actual mi.crcDigest then m.decodeRegion d actual mi.crcDigest
  else if m.accepts d mi.lastActualSize mi.lastCRCDigest then
    -- the meta in memory is rolled back with the region, the file is left as it is
    let m := { m with info := { mi with actualSize := mi.lastActualSize, crcDigest := mi.lastCRCDigest } }
    m.decodeRegion d mi.lastActualSize mi.lastCRCDigest
  else if m.recover then (m.salvage d, none)
  -- neither snapshot is whole: the store is empty, which is no error
  else ({ m with dict := ∅, actualSize := 0, crcDigest := 0 }, none)

/-- `loadData`. -/
def loadData : MMKV × Option Err :=
  match parseMeta d.crc with
  | .error e => (m, some e)
  | .ok mi =>
    let m := { m with info := mi }
    -- the meta is taken over even when its version is refused
    if maxSupportedVersion < mi.version then (m, some (.unsupportedVersion mi.version))
    else { m with enableExpire := decide (versionFlag ≤ mi.version) && mi.expireEnabled }.loadRegion d

/-- The part of `reloadBestEffort` after the remap: an error is only recorded. -/
def loadBestEffort : MMKV :=
  match m.loadData d with
  | (m, some e) => { m with lastErr := some e }
  | (m, none) => m

/-- `reloadBestEffort`. -/
def reloadBestEffort (sys : Sys) (remap : Bool) : MMKV :=
  if remap then
    match m.data.remap sys.remap d with
    | (mf, some e) => { m with data := mf, lastErr := some e }
    | (mf, none) => { m with data := mf }.loadBestEffort d
  else m.loadBestEffort d

/-- `notifyChanged`. -/
def notifyChanged : MMKV := { m with notified := m.notified + 1 }

/-- `checkLoadData`. -/
def checkLoadData (sys : Sys) : MMKV :=
  if m.needLoad then { m with needLoad := false }.reloadBestEffort d sys true
  else if !m.multiProcess then m
  else
    match parseMeta d.crc with
    | .error e => { m with lastErr := some e }
    | .ok live =>
      -- a new sequence means a write-back, which may have changed the file's size
      if live.sequence ≠ m.info.sequence then (m.reloadBestEffort d sys true).notifyChanged
      -- other words under the same sequence are taken for an append, and the file is not mapped again
      else if live.crcDigest ≠ m.crcDigest ∨ live.actualSize ≠ m.actualSize then
        (m.reloadBestEffort d sys false).notifyChanged
      else m

/-- What the getters of the instance read. -/
def view (now : UInt32) : View := ⟨m.dict, m.enableExpire, now⟩

end MMKV

end MmkvGo.Store
