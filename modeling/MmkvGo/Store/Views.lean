import MmkvGo.Store.Ops
import MmkvGo.Wire.Spans

/-!
The dict of an instance as the source has it (`mmkv.go`, `mmkv_io.go`, `mmkv_expire.go`).  Its values are slices, not
bytes: of the mapping of the data file where the region is plaintext, of a buffer on the heap where it is decrypted.
What a slice of the mapping shows is whatever the file holds there when it is read, and once the mapping is replaced it
shows nothing: to read it then is a fault.

`Views` is that dict.  Each function of the source that assigns to it, or that replaces the mapping, has its own below,
with its error paths.  An `Aliased` instance runs a call on the bytes that its slices show when the call has been
brought up to date, which is before the call stores anything; the field `dict` of its record is not looked at.
-/

namespace MmkvGo.Store

open MmkvGo.Lib MmkvGo.Wire MmkvGo.Crypt Std

/-- A byte slice, of a buffer on the heap that nothing writes to any more or of a mapping of the data file.  The mappings
are numbered in the order in which the instance makes them. -/
inductive Slice where
  | heap (bytes : Bytes)
  | mapped (mapping off len : ℕ)
  deriving DecidableEq

/-- What a slice shows while the instance has the mapping `mapping` with the bytes `mem`; `none` is a fault. -/
def Slice.read (mapping : ℕ) (mem : Bytes) : Slice → Option Bytes
  | .heap bytes => some bytes
  | .mapped n off len => if n = mapping ∧ off + len ≤ mem.length then some (slice mem off (off + len)) else none

/-- `s[span.off : span.off+span.len]`. -/
def Slice.part : Slice → Span → Slice
  | .heap bytes, span => .heap (slice bytes span.off (span.off + span.len))
  | .mapped n off _, span => .mapped n (off + span.off) span.len

/-- `MMKV.dict`, and the number of the mapping that the instance has. -/
structure Views where
  slices : ExtTreeMap Bytes Slice
  mapping : ℕ

/-- The dict that `parseDict` makes of the buffer `buf`, which holds `plain`. -/
def slicesOf (buf : Slice) (plain : Bytes) : Except Err (ExtTreeMap Bytes Slice) :=
  (parseSpans plain).map fun spans => spans.map fun _ span => buf.part span

/-- The dict that `parseDictGreedy` makes of the buffer `buf`, which holds `plain`. -/
def slicesOfGreedy (buf : Slice) (plain : Bytes) : ExtTreeMap Bytes Slice :=
  (parseSpansGreedy plain).map fun _ span => buf.part span

namespace Views

/-- The bytes that all the slices show, if none of them is a fault. -/
def resolve (v : Views) (mem : Bytes) : Option Dict := OrdMap.readAll (Slice.read v.mapping mem) v.slices

/-- The mapping after a `truncate` or a `remap`.  Both leave the record of the memory file as it was where they keep the
mapping, and only there. -/
def moved (v : Views) (old new : MemoryFile) : Views := if new = old then v else { v with mapping := v.mapping + 1 }

/-- `m.dict[key] = s`. -/
def assign (v : Views) (key : Bytes) (s : Slice) : Views := { v with slices := v.slices.insert key s }

variable (P : Platform) (sys : Sys) (d : Disk) (m : MMKV) (v : Views)

/-! ### Loading -/

/-- The buffer that holds the plaintext of a region: the region itself, or what it was decrypted to. -/
def plainBuffer (actual : UInt32) (plain : Bytes) : Slice :=
  if m.crypt.isNone then .mapped v.mapping 4 actual.toNat else .heap plain

/-- `decodeRegion`. -/
def decodeRegion (actual : UInt32) : Views :=
  match m.plain (m.region d actual) with
  | .error _ => v
  | .ok plain =>
    match slicesOf (v.plainBuffer m actual plain) plain with
    | .error _ => v
    | .ok slices => { v with slices := slices }

/-- `salvage`. -/
def salvage : Views :=
  let fileSize := m.data.len
  let actual :=
    if fileSize < m.info.actualSize.toNat + 4 then
      if 4 ≤ fileSize then UInt32.ofNat (fileSize - 4) else 0
    else m.info.actualSize
  let region := m.region d actual
  match m.plain region with
  | .error _ => { v with slices := slicesOfGreedy (.mapped v.mapping 4 actual.toNat) region }
  | .ok plain => { v with slices := slicesOfGreedy (v.plainBuffer m actual plain) plain }

/-- The part of `loadData` after the meta is read. -/
def loadRegion : Views :=
  let mi := m.info
  let actual := m.readActualSize d
  if m.accepts d actual mi.crcDigest then v.decodeRegion d m actual
  else if m.accepts d mi.lastActualSize mi.lastCRCDigest then v.decodeRegion d m mi.lastActualSize
  else if m.recover then v.salvage d m
  else { v with slices := ∅ }

/-- `loadData`. -/
def loadData : Views :=
  match parseMeta d.crc with
  | .error _ => v
  | .ok mi =>
    if maxSupportedVersion < mi.version then v
    else
      v.loadRegion d { m with info := mi, enableExpire := decide (versionFlag ≤ mi.version) && mi.expireEnabled }

/-- `reloadBestEffort`. -/
def reloadBestEffort (remap : Bool) : Views :=
  if remap then
    match m.data.remap sys.remap d with
    | (mf, some _) => v.moved m.data mf
    | (mf, none) => (v.moved m.data mf).loadData d { m with data := mf }
  else v.loadData d m

/-- `checkLoadData`. -/
def checkLoadData : Views :=
  if m.needLoad then v.reloadBestEffort sys d { m with needLoad := false } true
  else if !m.multiProcess then v
  else
    match parseMeta d.crc with
    | .error _ => v
    | .ok live =>
      if live.sequence ≠ m.info.sequence then v.reloadBestEffort sys d m true
      else if live.crcDigest ≠ m.crcDigest ∨ live.actualSize ≠ m.actualSize then v.reloadBestEffort sys d m false
      else v

/-! ### The write paths -/

/-- `fullWritebackGrow`: the dict is built anew, from the mapping that now holds the region or, with a key, from the
buffer that was encrypted. -/
def fullWritebackGrow (needSync : Bool) (incoming : ℕ) : Views :=
  let region := regionOf m.dict
  match m.payload sys region with
  | .error _ => v
  | .ok (payload, _) =>
    let (grown, data, err) := m.grow P sys (4 + payload.length + incoming) needSync incoming
    let v := v.moved m.data data
    match err with
    | some _ => v
    | none =>
      let stores := grown ++ dataWrites 0 (List.replicate 4 0) ++ dataWrites 4 payload
      let mem := data.memory (d.apply stores)
      let src := if m.crypt.isNone then slice mem 4 (4 + region.length) else region
      let buf := if m.crypt.isNone then Slice.mapped v.mapping 4 region.length else .heap region
      match slicesOf buf src with
      | .error _ => v
      | .ok slices => { v with slices := slices }

/-- `fullWriteback`. -/
def fullWriteback : Views := v.fullWritebackGrow P sys d m true 0

/-- `setBlob`: a view of the pair that was written in place, or a heap blob that the write-back replaces. -/
def setBlob (key blob : Bytes) : Views :=
  let pair := pairBytes key blob
  if m.overrides key pair then
    v.assign key (.mapped v.mapping (4 + itemSizeHolderBytes.length + (pair.length - blob.length)) blob.length)
  else if m.appends pair then
    v.assign key (.mapped v.mapping (4 + m.actualSize.toNat + (pair.length - blob.length)) blob.length)
  else
    (v.assign key (.heap blob)).fullWritebackGrow P sys d { m with dict := m.dict.insert key blob } (!m.dict.isEmpty)
      pair.length

/-- `setValueLocked`. -/
def setValueLocked (key blob : Bytes) : Views :=
  if m.compareBeforeSet && !m.enableExpire && m.dict[key]? == some blob then v
  else v.setBlob P sys d m key (if m.enableExpire then MMKV.appendExpire sys blob m.expiredSeconds else blob)

/-- `RemoveValueForKey`. -/
def removeValueForKey (key : Bytes) : Views :=
  if !m.dict.contains key then v
  else
    let m := { m with dict := m.dict.erase key }
    let v := { v with slices := v.slices.erase key }
    if m.appendsTombstone (pairBytes key []) then v else v.fullWriteback P sys d m

/-- `RemoveValuesForKeys`. -/
def removeValuesForKeys (keys : List Bytes) : Views :=
  if keys.all fun k => !m.dict.contains k then v
  else
    { v with slices := keys.foldl (fun slices k => slices.erase k) v.slices }.fullWriteback P sys d
      { m with dict := keys.foldl (fun dict k => dict.erase k) m.dict }

/-- `clearAllLocked`. -/
def clearAllLocked : Views :=
  let (_, data, err) := m.data.truncate P sys.grow 0
  let v := v.moved m.data data
  match err with
  | some _ => v
  | none => { v with slices := ∅ }

/-- The part of `Trim` after the write-back. -/
def shrink : Views :=
  let target := trimTarget P m.data.size m.actualSize
  if m.data.size ≤ target then v
  else
    let (shrunk, data, err) := m.data.truncate P sys.shrink target
    let v := v.moved m.data data
    match err with
    | some _ => v
    | none => v.decodeRegion (d.apply shrunk) { m with data := data } m.actualSize

/-- `Trim`. -/
def trim : Views :=
  if m.actualSize = 0 then v.clearAllLocked P sys m
  else
    let r := m.fullWriteback P sys d
    let v := v.fullWriteback P sys d m
    match r.err with
    | some _ => v
    | none => v.shrink P sys (d.apply r.writes) r.m

/-- `ReKey`. -/
def reKey (newKey : Bytes) : Views :=
  v.fullWriteback P sys d { m with crypt := if newKey = [] then none else some (newAESCFB P.aes newKey) }

/-- `EnableAutoKeyExpire`: a first enable copies every value to the heap. -/
def enableAutoKeyExpire (seconds : UInt32) : Views :=
  let m' := m.withExpire seconds
  let v := if m.enableExpire then v else { v with slices := m'.dict.map fun _ blob => .heap blob }
  v.fullWriteback P sys d m'

/-- `DisableAutoKeyExpire`: the values that are left are copied to the heap. -/
def disableAutoKeyExpire : Views :=
  if !m.enableExpire then v
  else
    let m' := m.withoutExpire sys
    { v with slices := m'.dict.map fun _ blob => .heap blob }.fullWriteback P sys d m'

/-- `ClearMemoryCache`. -/
def clearMemoryCache : Views := if m.closed then v else { v with slices := ∅ }

end Views

/-! ### Calls on the bytes that the slices show -/

/-- An instance whose dict is made of slices; the field `dict` of `m` is not part of it. -/
structure Aliased where
  m : MMKV
  v : Views

namespace Aliased

variable (P : Platform) (sys : Sys) (d : Disk) (a : Aliased)

/-- The instance with the bytes that its slices show. -/
def sees : Option MMKV := (a.v.resolve (a.m.data.memory d)).map fun dict => { a.m with dict := dict }

/-- `checkLoadData`. -/
def checkLoadData : Aliased := ⟨a.m.checkLoadData d sys, a.v.checkLoadData sys d a.m⟩

/-- The head of every mutation; `body` is what the call does to the record and the files, `after` what it does to the
slices. -/
def mutate (body : MMKV → Result) (after : MMKV → Views → Views) : Option (Result × Views) :=
  if a.m.closed then some (⟨[], a.m, some .closed⟩, a.v)
  else if a.m.readOnly then some (⟨[], a.m, some .readOnly⟩, a.v)
  else ((a.checkLoadData sys d).sees d).map fun m => (body m, after m (a.checkLoadData sys d).v)

/-- One call; `none` is a fault. -/
def exec : Op → Option (Result × Views)
  | .set key val => a.mutate sys d (fun m => m.setValueLocked P sys d key val.blob) fun m v =>
      v.setValueLocked P sys d m key val.blob
  | .removeValueForKey key => a.mutate sys d (fun m => m.removeValueForKey P sys d key) fun m v =>
      v.removeValueForKey P sys d m key
  | .removeValuesForKeys keys => a.mutate sys d (fun m => m.removeValuesForKeys P sys d keys) fun m v =>
      v.removeValuesForKeys P sys d m keys
  | .clearAll => a.mutate sys d (fun m => m.clearAllLocked P sys) fun m v => v.clearAllLocked P sys m
  | .trim => a.mutate sys d (fun m => m.trim P sys d) fun m v => v.trim P sys d m
  | .sync => some (a.m.syncFlush sys, a.v)
  | .clearMemoryCache => some (⟨[], a.m.clearMemoryCache, none⟩, a.v.clearMemoryCache a.m)
  | .enableAutoKeyExpire seconds => a.mutate sys d (fun m => m.enableAutoKeyExpire P sys d seconds) fun m v =>
      v.enableAutoKeyExpire P sys d m seconds
  | .disableAutoKeyExpire => a.mutate sys d (fun m => m.disableAutoKeyExpire P sys d) fun m v =>
      v.disableAutoKeyExpire P sys d m
  | .enableCompareBeforeSet => some (⟨[], a.m.enableCompareBeforeSet, none⟩, a.v)
  | .disableCompareBeforeSet => some (⟨[], a.m.disableCompareBeforeSet, none⟩, a.v)
  | .reKey newKey => a.mutate sys d (fun m => m.reKey P sys d newKey) fun m v => v.reKey P sys d m newKey

/-- A getter; `none` is a fault. -/
def get {α : Type} (getter : View → α) (zero : α) : Option (Aliased × α) :=
  if a.m.closed then some (a, zero)
  else
    ((a.checkLoadData sys d).sees d).map fun m => (a.checkLoadData sys d, getter (m.view sys.now))

/-- The part of `open` after the files are mapped. -/
def load : Option (List Write × Except Err Aliased) :=
  let v := a.v.loadData d a.m
  match a.m.loadData d with
  | (_, some e) => some ([], .error e)
  | (m, none) =>
    if m.needFullWriteback && !m.readOnly then
      ((⟨m, v⟩ : Aliased).sees d).map fun m =>
        let r := m.fullWriteback P sys d
        match r.err with
        | some e => (r.writes, .error e)
        | none => (r.writes, .ok ⟨r.m, v.fullWriteback P sys d m⟩)
    else some ([], .ok ⟨m, v⟩)

end Aliased

/-- `MMKVWithID` on a file that this process does not have open. -/
def openAliased (P : Platform) (sys : Sys) (cfg : Config) (d : Disk) : Option (List Write × Except Err Aliased) :=
  if cfg.readOnly then
    if d.data.length = 0 ∨ d.crc.length = 0 then some ([], .error .emptyFile)
    else (⟨cfg.instance P ⟨d.data.length, true⟩, ⟨∅, 0⟩⟩ : Aliased).load P sys d
  else
    let opened := d.apply (openWrites P d)
    ((⟨cfg.instance P ⟨opened.data.length, true⟩, ⟨∅, 0⟩⟩ : Aliased).load P sys opened).map fun r =>
      (openWrites P d ++ r.1, r.2)

end MmkvGo.Store
