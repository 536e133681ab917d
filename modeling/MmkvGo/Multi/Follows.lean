import MmkvGo.Store.Run

/-!
The freshness probe of multi-process mode.  An instance whose last access was some write-backs ago either knows the
sequence number of its files, and then they only grew by appends since and have the size it maps, or it
does not, and then the probe maps them again (`Follows`).  `Follows.checkLoadData` says that the next access
therefore has the map of the files, whatever the CRCs are, and `Follows.evolves` carries the relation over a call
of another instance.
-/

namespace MmkvGo.Multi

open MmkvGo.Lib MmkvGo.Wire MmkvGo.Crypt MmkvGo.Store Std

/-- An open multi-process instance, for writing or for reading only. -/
structure Shared (crypt : Option Cipher) (m : MMKV) : Prop where
  crypt : m.crypt = crypt
  multiProcess : m.multiProcess = true
  closed : m.closed = false
  needFullWriteback : m.needFullWriteback = false

/-- The instance last had the files `k` write-backs ago, and if that is none, its mapping is theirs and its region the
start of theirs, unless it is to load them anyway.  The sequence number counts the write-backs, until the files are
`restored` from a backup. -/
structure Follows (crypt : Option Cipher) (d : Disk) (mi : MetaInfo) (m : MMKV) (k : ℕ) (restored : Bool) : Prop
    extends Shared crypt m where
  sequence : restored = false → m.needLoad = false → mi.sequence = m.info.sequence + UInt32.ofNat k
  mapping : m.needLoad = false → k = 0 → m.data = ⟨d.data.length, true⟩
  actualSize : m.needLoad = false → k = 0 → m.actualSize.toNat ≤ mi.actualSize.toNat
  synced : m.needLoad = false → k = 0 → m.actualSize = mi.actualSize → Synced d m.writable

/-- What an access works on: an instance that agrees with the files, and the settings of the one it was called on. -/
structure UpToDate (crypt : Option Cipher) (d : Disk) (mi : MetaInfo) (dict : Dict) (m m' : MMKV) : Prop
    extends Shared crypt m' where
  synced : Synced d m'.writable
  info : m'.info = mi
  dict : m'.dict = dict
  expiredSeconds : m'.expiredSeconds = m.expiredSeconds
  readOnly : m'.readOnly = m.readOnly

section Probe

variable {crypt : Option Cipher} {d d' : Disk} {mi mi' : MetaInfo} {dict dict' : Dict} {m : MMKV} {k : ℕ}
  {restored : Bool} {sys : Sys}

lemma UpToDate.content {m' : MMKV} (h : UpToDate crypt d mi dict m m') :
    m'.content = ⟨OrdMap.lookup dict, mi.expireEnabled⟩ := by
  rw [MMKV.content, h.dict, show m'.enableExpire = _ from h.synced.enableExpire, show m'.writable.info = _ from h.info]

lemma UpToDate.synced_of_writable {m' : MMKV} (h : UpToDate crypt d mi dict m m') (hro : m.readOnly = false) :
    Synced d m' := MMKV.writable_eq (h.readOnly.trans hro) ▸ h.synced

lemma UpToDate.get {α : Type} (h : UpToDate crypt d mi dict m (m.checkLoadData d' sys)) (hclosed : m.closed = false)
    (getter : View → α) (zero : α) : (m.get sys d' getter zero).2 = getter ⟨dict, mi.expireEnabled, sys.now⟩ := by
  have hexpire : (m.checkLoadData d' sys).enableExpire = mi.expireEnabled := congrArg Content.expire h.content
  simp only [MMKV.get, hclosed, Bool.false_eq_true, if_false, MMKV.view, hexpire, h.dict]

lemma upToDate_loaded {m₁ : MMKV} (himage : Image crypt d mi dict) (h : Shared crypt m₁) (hload : m₁.needLoad = false)
    (hdata : m₁.data = ⟨d.data.length, true⟩) (hsec : m₁.expiredSeconds = m.expiredSeconds)
    (hro : m₁.readOnly = m.readOnly) : UpToDate crypt d mi dict m (m₁.loaded mi dict) := by
  have himage' : Image m₁.crypt d mi dict := by rw [h.crypt]; exact himage
  exact ⟨⟨h.crypt, h.multiProcess, h.closed, h.needFullWriteback⟩,
    MMKV.synced_loaded (m := m₁.writable) himage' hdata hload h.needFullWriteback h.closed rfl, rfl, rfl, hsec, hro⟩

lemma UpToDate.notified {m' : MMKV} (h : UpToDate crypt d mi dict m m') :
    UpToDate crypt d mi dict m m'.notifyChanged := by
  obtain ⟨hshared, hsynced, hinfo, hdict, hsec, hro⟩ := h
  exact ⟨⟨hshared.crypt, hshared.multiProcess, hshared.closed, hshared.needFullWriteback⟩,
    ⟨hsynced.image, hsynced.data, hsynced.actualSize, hsynced.crcDigest, hsynced.enableExpire, hsynced.needLoad,
      hsynced.needFullWriteback, hsynced.closed, hsynced.readOnly⟩, hinfo, hdict, hsec, hro⟩

lemma upToDate_self (h : Synced d m.writable) (hs : Shared crypt m) (himage : Image crypt d mi dict) :
    UpToDate crypt d mi dict m m := by
  have hown : Image m.crypt d m.info m.dict := h.image
  rw [hs.crypt] at hown
  obtain ⟨hinfo, hdict⟩ := himage.unique hown
  exact ⟨hs, h, hinfo, hdict, rfl, rfl⟩

lemma reloadBestEffort_remap (himage : Image m.crypt d mi dict) (hsys : sys.remap = none) :
    m.reloadBestEffort d sys true = (m.remapped d.data.length).loaded mi dict := by
  have hloaded : (m.remapped d.data.length).loadData d = _ := MMKV.loadData_of_image himage rfl himage.fits
  rw [MMKV.remapped] at hloaded ⊢
  rw [MMKV.reloadBestEffort, if_pos rfl]
  simp only [hsys, MemoryFile.remap_ok, MMKV.loadBestEffort, hloaded]

/-- **A reload that maps the file again** has the map of the files. -/
lemma upToDate_remap (himage : Image crypt d mi dict) (hs : Shared crypt m) (hload : m.needLoad = false)
    (hsys : sys.remap = none) : UpToDate crypt d mi dict m (m.reloadBestEffort d sys true) := by
  rw [reloadBestEffort_remap (by rw [hs.crypt]; exact himage) hsys]
  exact upToDate_loaded himage ⟨hs.crypt, hs.multiProcess, hs.closed, hs.needFullWriteback⟩ hload rfl rfl rfl

/-- **A reload through the old mapping** has the map of the files, when that mapping is the whole file. -/
lemma upToDate_reload (himage : Image crypt d mi dict) (hs : Shared crypt m) (hload : m.needLoad = false)
    (hdata : m.data = ⟨d.data.length, true⟩) :
    UpToDate crypt d mi dict m (m.reloadBestEffort d sys false) := by
  have hloaded := MMKV.loadData_of_image (show Image m.crypt d mi dict by rw [hs.crypt]; exact himage) hdata
    himage.fits
  rw [MMKV.reloadBestEffort, if_neg (by decide), MMKV.loadBestEffort, hloaded]
  exact upToDate_loaded himage hs hload hdata rfl rfl

/-- What the probe has to see: that it must load, a new sequence number, or, through a mapping of the whole file, a new
size or CRC, or nothing new because there is nothing new. -/
def Recognises (d : Disk) (mi : MetaInfo) (m : MMKV) : Prop :=
  m.needLoad = true ∨ mi.sequence ≠ m.info.sequence ∨
    m.data = ⟨d.data.length, true⟩ ∧ (mi.crcDigest ≠ m.crcDigest ∨ mi.actualSize ≠ m.actualSize) ∨ Synced d m.writable

/-- **The probe of an instance that recognises its files** makes it agree with them. -/
theorem checkLoadData_upToDate (himage : Image crypt d mi dict) (hs : Shared crypt m) (h : Recognises d mi m)
    (hsys : sys.remap = none) : UpToDate crypt d mi dict m (m.checkLoadData d sys) := by
  by_cases hload : m.needLoad = true
  · rw [MMKV.checkLoadData, if_pos hload]
    have hup := upToDate_remap (m := { m with needLoad := false }) himage
      ⟨hs.crypt, hs.multiProcess, hs.closed, hs.needFullWriteback⟩ rfl hsys
    exact ⟨hup.toShared, hup.synced, hup.info, hup.dict, hup.expiredSeconds, hup.readOnly⟩
  by_cases hsynced : Synced d m.writable
  · rw [MMKV.checkLoadData_of_writable hsynced]
    exact upToDate_self hsynced hs himage
  have hfalse : m.needLoad = false := by simpa using hload
  rw [MMKV.checkLoadData, if_neg hload, hs.multiProcess, himage.parse]
  simp only [Bool.not_true, Bool.false_eq_true, if_false]
  by_cases hseq : mi.sequence = m.info.sequence
  · obtain ⟨hdata, hnew⟩ : m.data = ⟨d.data.length, true⟩ ∧
        (mi.crcDigest ≠ m.crcDigest ∨ mi.actualSize ≠ m.actualSize) := by
      rcases h with h | h | h | h
      · exact absurd h hload
      · exact absurd hseq h
      · exact h
      · exact absurd h hsynced
    rw [if_neg (not_not.2 hseq), if_pos hnew]
    exact (upToDate_reload himage hs hfalse hdata).notified
  · rw [if_pos hseq]
    exact (upToDate_remap himage hs hfalse hsys).notified

theorem checkLoadData_dict_of_error {e : Err} (hsealed : Sealed d mi) (hs : Shared crypt m) (hload : m.needLoad = false)
    (hseq : mi.sequence ≠ m.info.sequence) (hsys : sys.remap = none)
    (he : parseDict (plainOf crypt mi.iv (d.region mi.actualSize)) = .error e) :
    (m.checkLoadData d sys).dict = m.dict := by
  have hloaded := MMKV.loadData_error (m := { m with data := ⟨d.data.length, true⟩ }) hsealed.readable rfl hsealed.fits
    (show parseDict (plainOf m.crypt mi.iv (d.region mi.actualSize)) = .error e by rw [hs.crypt]; exact he)
  rw [MMKV.checkLoadData, hload, hs.multiProcess, hsealed.parse]
  simp only [Bool.not_true, Bool.false_eq_true, if_false, if_pos hseq, MMKV.reloadBestEffort, if_true, hsys,
    MemoryFile.remap_ok, MMKV.loadBestEffort, hloaded, MMKV.notifyChanged]
  rfl

lemma checkLoadData_of_sequence (himage : Image m.crypt d mi dict) (hmulti : m.multiProcess = true)
    (hload : m.needLoad = false) (hseq : mi.sequence ≠ m.info.sequence) (hsys : sys.remap = none) :
    m.checkLoadData d sys = ((m.remapped d.data.length).loaded mi dict).notifyChanged := by
  rw [MMKV.checkLoadData, hload, hmulti, himage.parse]
  simp only [Bool.not_true, Bool.false_eq_true, if_false, if_pos hseq, reloadBestEffort_remap himage hsys]

/-- **The probe of an instance that knows the sequence number but maps too little of the file**: what it loads is the
empty map. -/
theorem checkLoadData_discard {n : ℕ} (hparse : parseMeta d.crc = .ok mi) (hver : mi.version = versionFlag)
    (hmulti : m.multiProcess = true) (hload : m.needLoad = false) (hrecover : m.recover = false)
    (hseq : mi.sequence = m.info.sequence) (hsize : mi.actualSize ≠ m.actualSize) (hdata : m.data = ⟨n, true⟩)
    (hn : n < 4 + mi.actualSize.toNat) (hlast : n < 4 + mi.lastActualSize.toNat) :
    (m.checkLoadData d sys).dict = ∅ := by
  rw [MMKV.checkLoadData, hload, hmulti, hparse]
  simp only [Bool.not_true, Bool.false_eq_true, if_false, hseq, ne_eq, not_true_eq_false, hsize, not_false_eq_true,
    or_true, if_true, MMKV.reloadBestEffort, MMKV.loadBestEffort, MMKV.notifyChanged,
    MMKV.loadData_discard hparse hver hrecover (MMKV.not_accepts_of_lt hdata hn) (MMKV.not_accepts_of_lt hdata hlast)]

/-- What tells an instance that is `k` write-backs or restores behind that the files are not those it knows. -/
def Tells (d : Disk) (mi : MetaInfo) (m : MMKV) (k : ℕ) : Prop :=
  m.needLoad = true ∨ k = 0 ∨ mi.sequence ≠ m.info.sequence ∨
    m.data = ⟨d.data.length, true⟩ ∧ (mi.crcDigest ≠ m.crcDigest ∨ mi.actualSize ≠ m.actualSize)

/-- An instance that follows its files and is told of what it missed recognises them. -/
theorem Follows.recognises (h : Follows crypt d mi m k restored) (hk : Tells d mi m k) : Recognises d mi m := by
  rcases hk with hload | h0 | hseq | hnew
  · exact .inl hload
  · by_cases hload : m.needLoad = true
    · exact .inl hload
    have hfalse : m.needLoad = false := by simpa using hload
    by_cases hsize : m.actualSize = mi.actualSize
    · exact .inr (.inr (.inr (h.synced hfalse h0 hsize)))
    · exact .inr (.inr (.inl ⟨h.mapping hfalse h0, .inr fun he => hsize he.symm⟩))
  · exact .inr (.inl hseq)
  · exact .inr (.inr (.inl hnew))

/-- The sequence number tells of every write-back, as long as it has not come round. -/
theorem Follows.tells (h : Follows crypt d mi m k false) (hk : k < 2 ^ 32) : Tells d mi m k := by
  by_cases hload : m.needLoad = true
  · exact .inl hload
  have hfalse : m.needLoad = false := by simpa using hload
  by_cases h0 : k = 0
  · exact .inr (.inl h0)
  · refine .inr (.inr (.inl fun he => h0 ?_))
    have hseq := h.sequence rfl hfalse
    rw [he] at hseq
    have hzero : UInt32.ofNat k = 0 := by simpa using hseq.symm
    have := congrArg UInt32.toNat hzero
    rwa [toNat_ofNat32 hk] at this

lemma follows_of_synced (h : Synced d m.writable) (hs : Shared crypt m) (restored : Bool) :
    Follows crypt d m.info m 0 restored := by
  refine ⟨hs, fun _ _ => by simp, fun _ _ => h.data, fun _ _ => ?_, fun _ _ _ => h⟩
  rw [show m.actualSize = _ from h.actualSize]
  rfl

/-- **A call of another instance**: a write-back puts this one a step behind, an append leaves it where it is, with a
region that is shorter than that of the files. -/
theorem Follows.evolves (h : Follows crypt d mi m k restored) (hev : Evolves true d mi d' mi') :
    Follows crypt d' mi' m (if mi'.sequence = mi.sequence then k else k + 1) restored := by
  cases hev with
  | unchanged hd hmi =>
    subst hd hmi
    rw [if_pos rfl]
    exact h
  | appended pair hpair hdata hroom hsize hmi =>
    have hlen : d'.data.length = d.data.length := by rw [hdata, length_patch]
    have hseq : mi'.sequence = mi.sequence := by rw [hmi]
    have hpos := List.length_pos_iff.2 hpair
    rw [if_pos hseq]
    refine ⟨h.toShared, fun hr hl => hseq.trans (h.sequence hr hl), fun hl h0 => ?_, fun hl h0 => ?_,
      fun hl h0 he => ?_⟩
    · rw [hlen]
      exact h.mapping hl h0
    · have := h.actualSize hl h0
      omega
    · have := h.actualSize hl h0
      rw [he] at this
      omega
  | overridden hsingle _ _ => cases hsingle
  | rewritten hseq _ _ =>
    rw [if_neg (by rw [hseq]; simp)]
    refine ⟨h.toShared, fun hr hl => ?_, fun _ h0 => by omega, fun _ h0 => by omega, fun _ h0 => by omega⟩
    rw [hseq, h.sequence hr hl, UInt32.ofNat_add, UInt32.add_assoc]
    rfl

/-- **A restore** by another process: this one is a step behind, and the sequence number no longer counts. -/
lemma Follows.restore (h : Follows crypt d mi m k restored) : Follows crypt d' mi' m (k + 1) true := by
  refine ⟨h.toShared, fun hr => ?_, ?_, ?_, ?_⟩
  · cases hr
  all_goals exact fun _ h0 => absurd h0 (Nat.succ_ne_zero k)

end Probe

end MmkvGo.Multi
