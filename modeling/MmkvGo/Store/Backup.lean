import MmkvGo.Store.Aliases

/-!
Backup and restore of the two files of a store.  Both copy the data file and then the ".crc" file, each copy opens its
source, truncates its destination and copies until the source ends or cannot be read any further.  A restore looks
beforehand whether the data file of its source is there, and at nothing else.

The directory of the source is another one than that of the destination.

The instance that this process has open on the destination keeps its dict where it cannot load the restored files.  Without
a key that dict is made of slices of the mapping, which by then show the restored bytes, so what the instance serves is
stated of its slices.
-/

namespace MmkvGo.Store

open MmkvGo.Lib MmkvGo.Wire MmkvGo.Crypt

/-! ### The two files of a directory -/

/-- What a copy meets at the path of a source file. -/
inductive Source where
  | missing
  /-- the file is there, but `os.Open` fails -/
  | unreadable
  /-- reading fails after these bytes -/
  | torn (bytes : Bytes)
  | whole (bytes : Bytes)
  deriving DecidableEq, Repr

/-- The bytes that can be read, if the file can be opened. -/
def Source.bytes : Source → Option Bytes
  | .missing => none
  | .unreadable => none
  | .torn bytes => some bytes
  | .whole bytes => some bytes

/-- What a reader of the path meets when nothing fails. -/
def Source.ofFile : Option Bytes → Source
  | none => .missing
  | some bytes => .whole bytes

/-- The two files of a store as sources. -/
structure SourcePair where
  data : Source
  crc : Source
  deriving DecidableEq, Repr

/-- The two files of a store as destinations; `none` is a file that does not exist. -/
structure FilePair where
  data : Option Bytes
  crc : Option Bytes
  deriving DecidableEq, Repr

def FilePair.sources (f : FilePair) : SourcePair := ⟨.ofFile f.data, .ofFile f.crc⟩

/-- The files of an existing store. -/
def Disk.files (d : Disk) : FilePair := ⟨some d.data, some d.crc⟩

/-- The call of `copyFile` that fails. -/
inductive CopyErr where
  | openSource
  | create
  | read
  | write
  | close
  deriving DecidableEq, Repr

/-- What the system does at the destination of a copy. -/
structure CopySys where
  /-- whether `os.Create` fails -/
  create : Bool
  /-- the number of bytes after which a write fails -/
  room : Option ℕ
  /-- whether `Close` fails -/
  close : Bool

/-- `copyFile`: what the destination holds afterwards, and the error. -/
def copyFile (sys : CopySys) (src : Source) (dst : Option Bytes) : Option Bytes × Option CopyErr :=
  match src.bytes with
  | none => (dst, some .openSource)
  | some bytes =>
    if sys.create then (dst, some .create)
    else
      -- the target is cut to nothing when it is created, so a full disk leaves a shorter file
      let written := bytes.take (sys.room.getD bytes.length)
      if written.length < bytes.length then (some written, some .write)
      else if src = .torn bytes then (some written, some .read)
      else (some written, if sys.close then some .close else none)

/-- The two copies of `BackupOne` and of `RestoreOneFromDirectory`: the data file first. -/
def copyPair (sysData sysCrc : CopySys) (src : SourcePair) (dst : FilePair) : FilePair × Option CopyErr :=
  match copyFile sysData src.data dst.data with
  | (data, some e) => ({ dst with data := data }, some e)
  | (data, none) =>
    match copyFile sysCrc src.crc dst.crc with
    | (crc, e) => (⟨data, crc⟩, e)

/-- The step of a backup or of a restore that fails. -/
inductive BackupErr where
  /-- `os.Stat` of the data file of the source -/
  | sourceMissing
  | mkdir
  /-- opening the ".crc" file that is locked -/
  | openCrc
  | flock
  | copy (e : CopyErr)
  deriving DecidableEq, Repr

/-- What the system does during a backup or a restore, at the destination and to the lock. -/
structure BackupSys where
  mkdir : Bool
  openCrc : Bool
  flock : Bool
  data : CopySys
  crc : CopySys

/-- `BackupOne`. -/
def backupOne (sys : BackupSys) (src : SourcePair) (dst : FilePair) : FilePair × Option BackupErr :=
  if src.crc.bytes = none then (dst, some .openCrc)
  else if sys.flock then (dst, some .flock)
  else if sys.mkdir then (dst, some .mkdir)
  else
    -- the lock is the one of the ".crc" file
    let r := copyPair sys.data sys.crc src dst
    (r.1, r.2.map .copy)

/-- What a restore leaves: the files, and the instance that this process has open on them. -/
structure Restored where
  files : FilePair
  cached : Option MMKV
  err : Option BackupErr

/-- The instance that a restore told to remap and load on its next call. -/
def MMKV.flagNeedLoad (m : MMKV) : MMKV := { m with needLoad := true }

/-- `RestoreOneFromDirectory`, where `cached` is the instance that `gInstances` has for the destination. -/
def restoreOneFromDirectory (sys : BackupSys) (src : SourcePair) (dst : FilePair) (cached : Option MMKV) : Restored :=
  if src.data = .missing then ⟨dst, cached, some .sourceMissing⟩
  else if sys.mkdir then ⟨dst, cached, some .mkdir⟩
  else if sys.openCrc then ⟨dst, cached, some .openCrc⟩
  else
    -- opened with `O_CREATE`, so the lock file exists from here on
    let dst := { dst with crc := some (dst.crc.getD []) }
    if sys.flock then ⟨dst, cached, some .flock⟩
    else
      match copyPair sys.data sys.crc src dst with
      | (files, some e) => ⟨files, cached, some (.copy e)⟩
      | (files, none) => ⟨files, cached.map MMKV.flagNeedLoad, none⟩

section Copy

variable {sys : CopySys} {src : Source} {dst : Option Bytes}

lemma take_of_room {bytes : Bytes} {n : ℕ} (h : ¬ (bytes.take n).length < bytes.length) : bytes.take n = bytes := by
  rw [List.length_take] at h
  exact List.take_of_length_le (by omega)

lemma copyFile_ok (h : (copyFile sys src dst).2 = none) :
    ∃ bytes, src = .whole bytes ∧ (copyFile sys src dst).1 = some bytes := by
  rw [copyFile] at h ⊢
  cases src with
  | missing => simp [Source.bytes] at h
  | unreadable => simp [Source.bytes] at h
  | torn bytes => simp only [Source.bytes] at h; split_ifs at h
  | whole bytes =>
    simp only [Source.bytes, reduceCtorEq, if_false] at h ⊢
    split_ifs at h ⊢ with hcreate hroom
    exact ⟨bytes, rfl, congrArg some (take_of_room hroom)⟩

end Copy

/-- What the copies take over up to the failing read is there already. -/
def SourcePair.Repeats (src : SourcePair) (dst : FilePair) : Prop :=
  match src.data with
  | .missing => True
  | .unreadable => True
  | .torn bytes => dst.data = some bytes
  | .whole bytes => dst.data = some bytes ∧ (src.crc.bytes = none ∨ src.crc.bytes = dst.crc)

/-- The failing read leaves the destination as it was: the data file of the source is missing, or the destination has a
".crc" file and what is copied up to the failure is there already. -/
def SourcePair.Spares (src : SourcePair) (dst : FilePair) : Prop :=
  src.data = .missing ∨ dst.crc.isSome ∧ src.Repeats dst

section CopyPair

variable {sysData sysCrc : CopySys} {src : SourcePair} {dst : FilePair}

lemma copyPair_ok (h : (copyPair sysData sysCrc src dst).2 = none) :
    ∃ d : Disk, src = d.files.sources ∧ (copyPair sysData sysCrc src dst).1 = d.files := by
  obtain ⟨srcData, srcCrc⟩ := src
  rw [copyPair] at h ⊢
  rcases hdata : copyFile sysData srcData dst.data with ⟨data, _ | e⟩
  · rcases hcrc : copyFile sysCrc srcCrc dst.crc with ⟨crc, _ | e⟩
    · obtain ⟨bytes, rfl, hdst⟩ := copyFile_ok (congrArg Prod.snd hdata)
      obtain ⟨bytes', rfl, hdst'⟩ := copyFile_ok (congrArg Prod.snd hcrc)
      rw [hdata] at hdst
      rw [hcrc] at hdst'
      cases hdst
      cases hdst'
      exact ⟨⟨bytes, bytes'⟩, rfl, rfl⟩
    · simp [hdata, hcrc] at h
  · simp [hdata] at h

end CopyPair

/-! ### Restoring -/

section Restore

variable {sys : BackupSys} {src : SourcePair} {dst : FilePair} {cached : Option MMKV}

/-- **A restore that succeeds** has made the files those of the source, and told the open instance to load. -/
theorem restore_ok (h : (restoreOneFromDirectory sys src dst cached).err = none) :
    ∃ d : Disk, src = d.files.sources ∧ (restoreOneFromDirectory sys src dst cached).files = d.files ∧
      (restoreOneFromDirectory sys src dst cached).cached = cached.map MMKV.flagNeedLoad := by
  rw [restoreOneFromDirectory] at h ⊢
  dsimp only at h ⊢
  split_ifs at h ⊢ with hmissing hmkdir hopen hflock
  rcases hcopy : copyPair sys.data sys.crc src ⟨dst.data, some (dst.crc.getD [])⟩ with ⟨files, _ | e⟩
  · obtain ⟨d, hsrc, hdst⟩ := copyPair_ok (congrArg Prod.snd hcopy)
    rw [hcopy] at hdst
    exact ⟨d, hsrc, hdst, rfl⟩
  · simp [hcopy] at h

/-- **A backup, restored**: the destination has the files the backup was made of, whatever it had before. -/
theorem restore_backup {sys' : BackupSys} {dst' : FilePair} (hbackup : (backupOne sys src dst).2 = none)
    (hrestore : (restoreOneFromDirectory sys' (backupOne sys src dst).1.sources dst' cached).err = none) :
    (restoreOneFromDirectory sys' (backupOne sys src dst).1.sources dst' cached).files.sources = src := by
  obtain ⟨d, hd, hfiles, -⟩ := restore_ok hrestore
  rw [hfiles, ← hd]
  rw [backupOne] at hbackup ⊢
  split_ifs at hbackup ⊢
  simp only [Option.map_eq_none_iff] at hbackup
  obtain ⟨d', hsrc, hdst⟩ := copyPair_ok hbackup
  rw [hdst, hsrc]

end Restore

/-! ### The instance that was told to load -/

/-- The map that a key reads in the files. -/
def Disk.mapUnder (d : Disk) (mi : MetaInfo) (key : Option Cipher) : Except Err Dict :=
  parseDict (plainOf key mi.iv (d.region (d.actualSize mi)))

lemma Image.mapUnder {crypt : Option Cipher} {d : Disk} {mi : MetaInfo} {dict : Dict} (h : Image crypt d mi dict) :
    d.mapUnder mi crypt = .ok dict := by
  rw [Disk.mapUnder, h.readable.current.actualSize_eq]
  exact h.decoded

/-- The accesses of an instance, each of which starts with the probe: from the first one on its slices show `dict`. -/
def Aliased.Serves (d : Disk) (a : Aliased) (dict : Dict) (expire : Bool) : Prop :=
  ∀ sys probes, Along (fun _ sys => sys.remap = none) (fun a sys => a.checkLoadData sys d) a (sys :: probes) →
    ∀ now, ((run (fun a sys => a.checkLoadData sys d) a (sys :: probes)).sees d).map (fun m => m.view now) =
      some ⟨dict, expire, now⟩

/-- What the dict shows that an instance keeps when it maps the files but cannot load them. -/
def Aliased.kept (d : Disk) (a : Aliased) : Option Dict := (a.v.moved a.m.data ⟨d.data.length, true⟩).resolve d.data

/-- What the dict of an instance shows after it tried to load the files. -/
def Aliased.dictAfter (d : Disk) (mi : MetaInfo) (a : Aliased) : Option Dict :=
  match d.mapUnder mi a.m.crypt with
  | .ok dict => some dict
  | .error _ => a.kept d

/-- The instance tried to load the files, which it maps in full, and was `a₀` before. -/
structure Reloaded (d : Disk) (mi : MetaInfo) (a₀ a : Aliased) : Prop where
  needLoad : a.m.needLoad = false
  crypt : a.m.crypt = a₀.m.crypt
  data : a.m.data = ⟨d.data.length, true⟩
  enableExpire : a.m.enableExpire = expiresOf mi
  resolve : a.v.resolve d.data = a₀.dictAfter d mi

section Reload

variable {d : Disk} {mi : MetaInfo} {m : MMKV} {v : Views} {a a₀ a' : Aliased} {sys : Sys}

lemma reloaded_loadBestEffort (h : Intact d mi) (hdata : m.data = ⟨d.data.length, true⟩) (hload : m.needLoad = false) :
    Reloaded d mi ⟨m, v⟩ ⟨m.loadBestEffort d, v.loadData d m⟩ := by
  have hregion := MMKV.region_eq (d := d) (m := m.underMeta mi) hdata h.fits h.bounded
  have hparse : parseDict (plainOf (m.underMeta mi).crypt (m.underMeta mi).info.iv (d.region (d.actualSize mi))) =
      d.mapUnder mi m.crypt := rfl
  have hviews := v.loadData_of_intact (m := m) h hdata h.fits
  rw [MMKV.loadBestEffort, MMKV.loadData_of_intact h hdata h.fits, MMKV.decodeRegion, MMKV.plain_eq, hregion]
  simp only [hparse, hviews]
  rcases hmap : d.mapUnder mi m.crypt with e | dict
  · refine ⟨hload, rfl, hdata, rfl, ?_⟩
    rw [v.decodeRegion_error hregion (hparse.trans hmap), Aliased.dictAfter, hmap]
    simp only [Aliased.kept, Views.moved, hdata, if_true]
  · refine ⟨hload, rfl, hdata, rfl, ?_⟩
    obtain ⟨hmapping, hshows⟩ := v.decodeRegion_points hregion (hparse.trans hmap)
    rw [← hmapping] at hshows
    rw [Aliased.dictAfter, hmap]
    exact OrdMap.Related.readAll_eq hshows fun _ _ hs => hs.read h.fits

lemma Reloaded.again (h : Reloaded d mi a₀ a) (h' : Reloaded d mi a a') : Reloaded d mi a₀ a' where
  needLoad := h'.needLoad
  crypt := h'.crypt.trans h.crypt
  data := h'.data
  enableExpire := h'.enableExpire
  resolve := by
    have hkept : a.kept d = a₀.dictAfter d mi := by rw [Aliased.kept, h.data, Views.moved, if_pos rfl, h.resolve]
    rw [h'.resolve, Aliased.dictAfter, h.crypt, hkept, Aliased.dictAfter]
    split <;> rfl

lemma Reloaded.checkLoadData (hi : Intact d mi) (h : Reloaded d mi a₀ a) (hsys : sys.remap = none) :
    Reloaded d mi a₀ (a.checkLoadData sys d) := by
  have hload : Reloaded d mi a₀ ⟨a.m.loadBestEffort d, a.v.loadData d a.m⟩ :=
    h.again (reloaded_loadBestEffort hi h.data h.needLoad)
  have hsame : ({ a.m with data := ⟨d.data.length, true⟩ } : MMKV) = a.m := by rw [← h.data]
  simp only [Aliased.checkLoadData, MMKV.checkLoadData, Views.checkLoadData, h.needLoad, Bool.false_eq_true, if_false,
    hi.parse]
  split_ifs
  · exact h
  · -- the mapping is that of the file already, so a remap keeps it
    simp only [MMKV.reloadBestEffort, Views.reloadBestEffort, if_true, hsys, MemoryFile.remap_ok, hsame]
    rw [Views.moved, if_pos h.data.symm]
    exact ⟨hload.needLoad, hload.crypt, hload.data, hload.enableExpire, hload.resolve⟩
  · simp only [MMKV.reloadBestEffort, Views.reloadBestEffort, Bool.false_eq_true, if_false]
    exact ⟨hload.needLoad, hload.crypt, hload.data, hload.enableExpire, hload.resolve⟩
  · exact h

end Reload

/-! ### All or nothing -/

end MmkvGo.Store
