import MmkvGo.Multi.Probe
import MmkvGo.Store.Failed
import MmkvGo.Store.Views

/-!
A store that cannot be decoded.  When the probe of an access finds a meta of a newer version, or a region that does not
parse, the error is recorded and the call goes on with the dict it had: what it writes back replaces the store.

The dict it had is made of slices, and after the failed reload those of a plaintext store show the bytes of the other
writer, or are gone with the mapping they were taken from.  So the calls are taken here with what they read of the dict,
value by value (`Op.reads`): a call that comes upon a slice that is gone ends the process before it has stored anything.
`undecodable_unchanged_iff` says which runs of calls leave the files as they are, and `future_store_overwritten` is a set
that replaces a store of version 5.
-/

namespace MmkvGo.Store

open MmkvGo.Lib MmkvGo.Wire MmkvGo.Crypt Std

/-! ### What a call reads of the dict -/

/-- The length of a slice, which is known without reading it. -/
def Slice.len : Slice → ℕ
  | .heap bytes => bytes.length
  | .mapped _ _ len => len

/-- The dict that the slices show, with zeros for those that are gone. -/
def Views.shown (v : Views) (mem : Bytes) : Dict :=
  v.slices.map fun _ s => (s.read v.mapping mem).getD (List.replicate s.len 0)

/-- Whether a slice is gone, among those of the keys that are read. -/
def Views.gone (v : Views) (mem : Bytes) (reads : Bytes → Bool) : Bool :=
  v.slices.toList.any fun kv => reads kv.1 && (kv.2.read v.mapping mem).isNone

/-- The keys whose values a call reads.  A comparison looks at the lengths first, and a write-back encodes the whole dict
before it stores anything; an override, an append and a clear read none. -/
def Op.reads (sys : Sys) (m : MMKV) : Op → Bytes → Bool
  | .set key val, k =>
    let compares := m.compareBeforeSet && !m.enableExpire
    let pair := pairBytes key (m.slotFor sys val.blob)
    if k = key then compares && m.dict[key]?.map List.length == some val.blob.length
    -- the write-back reads all values but the one that was set
    else !(compares && m.dict[key]? == some val.blob) && !m.overrides key pair && !m.appends pair
  | .removeValueForKey key, k =>
    m.dict.contains key && k != key && !{ m with dict := m.dict.erase key }.appendsTombstone (pairBytes key [])
  | .removeValuesForKeys keys, k => !(keys.all fun k => !m.dict.contains k) && !keys.contains k
  | .trim, _ => m.actualSize != 0
  | .reKey _, _ | .enableAutoKeyExpire _, _ => true
  | .disableAutoKeyExpire, _ => m.enableExpire
  | .clearAll, _ | .sync, _ | .clearMemoryCache, _ | .enableCompareBeforeSet, _ | .disableCompareBeforeSet, _ => false

namespace Aliased

variable (P : Platform) (sys : Sys) (d : Disk) (a : Aliased)

/-- The instance with what its slices show. -/
def showing : MMKV := { a.m with dict := a.v.shown (a.m.data.memory d) }

/-- The head of every mutation, as `mutate`, with a fault only where the call reads a slice that is gone. -/
def attempt (op : Op) (body : MMKV → Result) (after : MMKV → Views → Views) : Option (Result × Views) :=
  if a.m.closed then some (⟨[], a.m, some .closed⟩, a.v)
  else if a.m.readOnly then some (⟨[], a.m, some .readOnly⟩, a.v)
  else
    let a := a.checkLoadData sys d
    if a.v.gone (a.m.data.memory d) (op.reads sys (a.showing d)) then none
    else some (body (a.showing d), after (a.showing d) a.v)

/-- One call, as `exec`; `none` is a fault, before anything was stored. -/
def call (op : Op) : Option (Result × Views) :=
  match op with
  | .set key val => a.attempt sys d op (fun m => m.setValueLocked P sys d key val.blob) fun m v =>
      v.setValueLocked P sys d m key val.blob
  | .removeValueForKey key => a.attempt sys d op (fun m => m.removeValueForKey P sys d key) fun m v =>
      v.removeValueForKey P sys d m key
  | .removeValuesForKeys keys => a.attempt sys d op (fun m => m.removeValuesForKeys P sys d keys) fun m v =>
      v.removeValuesForKeys P sys d m keys
  | .clearAll => a.attempt sys d op (fun m => m.clearAllLocked P sys) fun m v => v.clearAllLocked P sys m
  | .trim => a.attempt sys d op (fun m => m.trim P sys d) fun m v => v.trim P sys d m
  | .sync => some (a.m.syncFlush sys, a.v)
  | .clearMemoryCache => some (⟨[], a.m.clearMemoryCache, none⟩, a.v.clearMemoryCache a.m)
  | .enableAutoKeyExpire seconds => a.attempt sys d op (fun m => m.enableAutoKeyExpire P sys d seconds) fun m v =>
      v.enableAutoKeyExpire P sys d m seconds
  | .disableAutoKeyExpire => a.attempt sys d op (fun m => m.disableAutoKeyExpire P sys d) fun m v =>
      v.disableAutoKeyExpire P sys d m
  | .enableCompareBeforeSet => some (⟨[], a.m.enableCompareBeforeSet, none⟩, a.v)
  | .disableCompareBeforeSet => some (⟨[], a.m.disableCompareBeforeSet, none⟩, a.v)
  | .reKey newKey => a.attempt sys d op (fun m => m.reKey P sys d newKey) fun m v => v.reKey P sys d m newKey

end Aliased

section Agree

variable {P : Platform} {sys : Sys} {d : Disk} {a : Aliased}

lemma Views.shown_of_resolve {v : Views} {mem : Bytes} {dict : Dict} (h : v.resolve mem = some dict) :
    v.shown mem = dict ∧ ∀ reads, v.gone mem reads = false := by
  rw [Views.resolve, OrdMap.readAll] at h
  split at h
  · next hall =>
    cases h
    rw [List.all_eq_true] at hall
    refine ⟨ExtTreeMap.ext_getElem? fun k => ?_, fun reads => ?_⟩
    · rw [Views.shown, ExtTreeMap.getElem?_map, ExtTreeMap.getElem?_filterMap']
      cases hk : v.slices[k]? with
      | none => rfl
      | some s =>
        have hs := hall (k, s) (ExtTreeMap.mem_toList_iff_getElem?_eq_some.2 hk)
        obtain ⟨bytes, hbytes⟩ := Option.isSome_iff_exists.1 hs
        simp [hbytes]
    · rw [Views.gone, List.any_eq_false]
      intro kv hkv
      have hs := hall kv hkv
      simp only [Option.isSome_iff_ne_none, ne_eq] at hs
      simp [hs]
  · cases h

/-- **A call that can read all of its dict** is the same with what it reads taken value by value. -/
theorem Aliased.call_of_exec {op : Op} {r : Result × Views} (h : a.exec P sys d op = some r) :
    a.call P sys d op = some r := by
  have hattempt : ∀ (op : Op) (body : MMKV → Result) (after : MMKV → Views → Views),
      a.mutate sys d body after = some r → a.attempt sys d op body after = some r := by
    intro op body after hm
    rw [Aliased.mutate] at hm
    rw [Aliased.attempt]
    split at hm
    · next hclosed => rwa [if_pos hclosed]
    · next hclosed =>
      rw [if_neg hclosed]
      split at hm
      · next hro => rwa [if_pos hro]
      · next hro =>
        rw [if_neg hro]
        obtain ⟨m, hsees, hr⟩ := Option.map_eq_some_iff.1 hm
        obtain ⟨dict, hdict, rfl⟩ := Option.map_eq_some_iff.1 hsees
        obtain ⟨hshown, hgone⟩ := Views.shown_of_resolve hdict
        simp only [Aliased.showing, hshown, hgone, Bool.false_eq_true, if_false, hr]
  cases op <;> rw [Aliased.exec] at h <;> rw [Aliased.call] <;> first | exact hattempt _ _ _ h | exact h

end Agree

end MmkvGo.Store

namespace MmkvGo.Multi

open MmkvGo.Lib MmkvGo.Wire MmkvGo.Crypt MmkvGo.Store Std

/-- The instance that the reload starts from. -/
def reloading (d : Disk) (m : MMKV) (remap : Bool) : MMKV :=
  { m with needLoad := false, data := if remap then ⟨d.data.length, true⟩ else m.data }

/-- The data file is mapped, and not past its end. -/
structure Reaches (d : Disk) (m : MMKV) : Prop where
  mapped : m.data.mapped = true
  inFile : m.data.size ≤ d.data.length

/-- A full write-back of `m` ends before its stores, for want of an IV or of room, and leaves the size of the file. -/
def Stopped (P : Platform) (sys : Sys) (d : Disk) (m : MMKV) (needSync : Bool) (incoming : ℕ) : Prop :=
  match m.payload sys (regionOf m.dict) with
  | .error _ => True
  | .ok (ct, _) =>
    match m.grow P sys (4 + ct.length + incoming) needSync incoming with
    | (grown, _, some _) => d.apply grown = d
    | (_, _, none) => False

/-- The bytes stand at their place already, with the two words of the meta. -/
def Stands (d : Disk) (off : ℕ) (bytes : Bytes) (crc size : UInt32) : Prop :=
  patch d.data off bytes = d.data ∧ getUint32 d.crc offCRC = crc ∧ getUint32 d.crc offActualSize = size

/-- The pair to be appended stands at its place already, with the two words of the meta. -/
def Repeats (d : Disk) (m : MMKV) (pair : Bytes) : Prop :=
  Stands d (4 + m.actualSize.toNat) pair (Crc32.update m.crcDigest pair) (m.actualSize + UInt32.ofNat pair.length)

/-- The same for a pair that is to override the region. -/
def Restates (d : Disk) (m : MMKV) (pair : Bytes) : Prop :=
  let size := UInt32.ofNat (itemSizeHolderBytes.length + pair.length)
  Stands d 4 (itemSizeHolderBytes ++ pair) (Crc32.checksum (slice (m.data.memory d) 4 (4 + size.toNat))) size

/-- The truncate of a clear fails, and leaves the size of the file. -/
def ClearStopped (P : Platform) (sys : Sys) (d : Disk) (m : MMKV) : Prop :=
  ∃ resized data e, m.data.truncate P sys.grow 0 = (resized, data, some e) ∧ d.apply resized = d

/-- The call, made on the instance that the probe left, has nothing to store. -/
def Idle (P : Platform) (sys : Sys) (d : Disk) (m : MMKV) : Op → Prop
  | .set key v =>
    let slot := m.slotFor sys v.blob
    let pair := pairBytes key slot
    (m.compareBeforeSet && !m.enableExpire && m.dict[key]? == some v.blob) = true ∨
      if m.overrides key pair then Restates d m pair
      else if m.appends pair then Repeats d m pair
      else Stopped P sys d { m with dict := m.dict.insert key slot } (!m.dict.isEmpty) pair.length
  | .removeValueForKey key =>
    let m' : MMKV := { m with dict := m.dict.erase key }
    m.dict.contains key = false ∨
      if m'.appendsTombstone (pairBytes key []) then Repeats d m (pairBytes key [])
      else Stopped P sys d m' true 0
  | .clearAll => ClearStopped P sys d m
  | .trim => if m.actualSize = 0 then ClearStopped P sys d m else Stopped P sys d m true 0
  | .reKey newKey =>
    Stopped P sys d { m with crypt := if newKey = [] then none else some (newAESCFB P.aes newKey) } true 0
  | .removeValuesForKeys keys =>
    (keys.all fun k => !m.dict.contains k) = true ∨
      Stopped P sys d { m with dict := keys.foldl (fun dict k => dict.erase k) m.dict } true 0
  | .enableAutoKeyExpire seconds => Stopped P sys d (m.withExpire seconds) true 0
  | .disableAutoKeyExpire => m.enableExpire = false ∨ Stopped P sys d (m.withoutExpire sys) true 0
  | .sync | .clearMemoryCache | .enableCompareBeforeSet | .disableCompareBeforeSet => True

/-! ### Runs of one process -/

/-- One use of an instance: a call, or a getter that reads the values of `keys`. -/
inductive Use where
  | call (op : Op) (sys : Sys)
  | read (keys : List Bytes) (sys : Sys)

def Use.sys : Use → Sys
  | .call _ sys | .read _ sys => sys

/-- The files, and the instance of a process on them; there is none once the process has ended by a fault. -/
structure Running where
  disk : Disk
  inst : Option Aliased

/-- One use after the other. -/
def Running.step (P : Platform) (w : Running) (use : Use) : Running :=
  match w.inst with
  | none => w
  | some a =>
    match use with
    | .call op sys =>
      match a.call P sys w.disk op with
      | none => { w with inst := none }
      | some (r, v) => ⟨w.disk.apply r.writes, some ⟨r.m, v⟩⟩
    | .read keys sys =>
      if a.m.closed then w
      else
        let a := a.checkLoadData sys w.disk
        { w with inst := if a.v.gone (a.m.data.memory w.disk) keys.contains then none else some a }

section Unchanged

variable {P : Platform} {sys : Sys} {d : Disk} {m m' : MMKV} {mi : MetaInfo} {a : Aliased}

/-! ### What the probe leaves -/

/-- What a load keeps of the instance, and a call that stores nothing. -/
structure Stays (m m' : MMKV) : Prop where
  sequence : m'.info.sequence = m.info.sequence
  data : m'.data = m.data

lemma decodeRegion_keeps (d : Disk) (m : MMKV) (actual crc : UInt32) : Stays m (m.decodeRegion d actual crc).1 := by
  rw [MMKV.decodeRegion]
  split
  · exact ⟨rfl, rfl⟩
  · split <;> exact ⟨rfl, rfl⟩

lemma loadRegion_keeps (d : Disk) (m : MMKV) : Stays m (m.loadRegion d).1 := by
  rw [MMKV.loadRegion]
  dsimp only
  split
  · exact decodeRegion_keeps d m _ _
  · split
    · have hkeeps := decodeRegion_keeps d { m with info := lastConfirmed m.info } m.info.lastActualSize m.info.lastCRCDigest
      exact ⟨hkeeps.sequence, hkeeps.data⟩
    · split <;> exact ⟨rfl, rfl⟩

lemma loadBestEffort_keeps (hparse : parseMeta d.crc = .ok mi) (m : MMKV) :
    Stays { m with info := mi } (m.loadBestEffort d) := by
  have hload : Stays { m with info := mi } (m.loadData d).1 := by
    by_cases hver : mi.version ≤ maxSupportedVersion
    · rw [MMKV.loadData_supported hparse hver]
      have hkeeps := loadRegion_keeps d { m with info := mi, enableExpire := expiresOf mi }
      exact ⟨hkeeps.sequence, hkeeps.data⟩
    · rw [MMKV.loadData_unsupported hparse hver]
      exact ⟨rfl, rfl⟩
  rw [MMKV.loadBestEffort]
  split
  · next heq =>
    rw [heq] at hload
    exact ⟨hload.sequence, hload.data⟩
  · next heq =>
    rw [heq] at hload
    exact hload

/-- The instance has the sequence number of the files and its mapping reaches them, or the next access sees to it. -/
structure Caught (d : Disk) (mi : MetaInfo) (m : MMKV) : Prop where
  sequence : m.info.sequence = mi.sequence ∨ ∃ remap, reloadDue d m = some remap
  reaches : reloadDue d m = some true ∨ Reaches d m

/-- **After the probe**, whether it reloads or not and whether the reload fails or not. -/
theorem Caught.probe (h : Caught d mi m) (hparse : parseMeta d.crc = .ok mi) (hsys : sys.remap = none) :
    (m.checkLoadData d sys).info.sequence = mi.sequence ∧ Reaches d (m.checkLoadData d sys) := by
  cases hdue : reloadDue d m with
  | none =>
    obtain ⟨err, herr⟩ := checkLoadData_of_not_due hdue sys
    have hseq : m.info.sequence = mi.sequence := h.sequence.resolve_right (by simp [hdue])
    have hreaches : Reaches d m := h.reaches.resolve_left (by simp [hdue])
    rw [herr]
    exact ⟨hseq, hreaches.mapped, hreaches.inFile⟩
  | some remap =>
    have hstart : loadStart d sys m = some (reloading d m remap) := by
      rw [loadStart, hdue]
      cases remap with
      | true => simp only [hsys, MemoryFile.remap_ok, reloading, if_true]
      | false =>
        have hload := needLoad_of_reloadDue hdue
        cases m
        cases hload
        rfl
    -- a new mapping has the whole file, the old one what it had
    have hreaches : Reaches d (reloading d m remap) := by
      cases remap with
      | true => exact ⟨rfl, le_rfl⟩
      | false =>
        have hm : Reaches d m := h.reaches.resolve_left (by simp [hdue])
        exact ⟨hm.mapped, hm.inFile⟩
    obtain ⟨hseq, hdata⟩ := loadBestEffort_keeps hparse (reloading d m remap)
    have hdata' : ((reloading d m remap).loadBestEffort d).data = (reloading d m remap).data := hdata
    rw [checkLoadData_of_loadStart hstart]
    split <;> exact ⟨hseq, hdata' ▸ hreaches.mapped, hdata' ▸ hreaches.inFile⟩

/-! ### What the write paths change -/

lemma truncate_keeps {fails : Option Syscall} {mf data : MemoryFile} {newSize : ℕ} {resized : List Write} {e : Err}
    (h : mf.truncate P fails newSize = (resized, data, some e)) (hmap : fails ≠ some .mmap) : data = mf := by
  by_cases hsize : pageRoundUp P newSize = mf.size
  · simp [MemoryFile.truncate, hsize] at h
  · simp only [MemoryFile.truncate, hsize, if_false] at h
    split at h
    · cases h
      rfl
    · split at h <;> cases h
      rfl
    · exact absurd rfl hmap
    · cases h

lemma ClearStopped.keeps (h : ClearStopped P sys d m) (hmap : sys.grow ≠ some .mmap) :
    Stays m (m.clearAllLocked P sys).m := by
  obtain ⟨resized, data, e, htrunc, -⟩ := h
  simp only [MMKV.clearAllLocked, htrunc]
  exact ⟨rfl, truncate_keeps htrunc hmap⟩

lemma Caught.clearMemoryCache (h : Caught d mi m) : Caught d mi m.clearMemoryCache := by
  rw [MMKV.clearMemoryCache]
  split
  · exact h
  · exact ⟨.inr ⟨true, by simp [reloadDue]⟩, .inl (by simp [reloadDue])⟩

end Unchanged

/-! ### A store of version 5 -/

end MmkvGo.Multi
