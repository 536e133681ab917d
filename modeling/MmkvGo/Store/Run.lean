import MmkvGo.Lib.Runs
import MmkvGo.Store.Step

/-!
Whole runs of one process with one instance: calls, drops of the memory cache and reopenings, in any order.
`Tracks` ties the files and the instance to a `Model` that knows nothing of them, `step_tracks` carries it over
one action, and the simulation rule over a run (`run_tracks`).  The next access finds the instance as it was before its
memory cache was dropped.  What bounds a run is that the 32 bits of the meta address the region each call leaves
(`Op.regionAfter`); the data file itself may have any size.
-/

namespace MmkvGo.Store

open MmkvGo.Lib MmkvGo.Wire MmkvGo.Crypt Std

/-- The files, and the instance of the one process that has them open, or the error of its last open. -/
structure World where
  disk : Disk
  inst : Except Err MMKV

/-- What the process does. -/
inductive Act where
  /-- One call on the instance. -/
  | call (op : Op) (sys : Sys)
  /-- `Close`, then `MMKVWithID` with the options `cfg`. -/
  | reopen (cfg : Config) (sys : Sys)

/-- The world after `MMKVWithID` on the files `d`. -/
def World.start (P : Platform) (cfg : Config) (sys : Sys) (d : Disk) : World :=
  ⟨d.apply (openMMKV P sys cfg d).1, (openMMKV P sys cfg d).2⟩

def World.step (P : Platform) (w : World) : Act → World
  | .call op sys =>
    match w.inst with
    | .error _ => w
    | .ok m => ⟨w.disk.apply (m.exec P sys w.disk op).writes, .ok (m.exec P sys w.disk op).m⟩
  | .reopen cfg sys => World.start P cfg sys w.disk

lemma World.step_call (P : Platform) (d : Disk) (m : MMKV) (op : Op) (sys : Sys) :
    (⟨d, .ok m⟩ : World).step P (.call op sys) = ⟨d.apply (m.exec P sys d op).writes, .ok (m.exec P sys d op).m⟩ := rfl

/-- What an instance stands for: the map, the key it is encrypted with, and the caller's default duration. -/
structure Model where
  content : Content
  crypt : Option Cipher
  seconds : UInt32

def Model.step (P : Platform) (s : Model) : Act → Model
  | .call op sys =>
    ⟨s.content.after sys s.seconds op, op.cryptAfter P s.crypt, op.secondsAfter s.content.expire s.seconds⟩
  | .reopen cfg _ => ⟨s.content, cfg.crypt P, 0⟩

/-- The condition on an action: no call of the system fails, no empty key is set, no tombstone is appended to ciphertext,
the region stays below 4 GiB, and a reopen uses the current key. -/
def Act.OK (P : Platform) (w : World) : Act → Prop
  | .call op sys => sys.OK ∧ ∀ m, w.inst = .ok m →
      op.Good (m.checkLoadData w.disk sys) ∧
        4 + (op.regionAfter sys w.disk (m.checkLoadData w.disk sys)).length < 2 ^ 32
  | .reopen cfg _ => cfg.readOnly = false ∧ ∀ m, w.inst = .ok m → cfg.crypt P = m.crypt

/-- The instance agrees with its files and stands for the model, up to a drop of the memory cache. -/
structure Tracks (w : World) (s : Model) (m : MMKV) : Prop where
  synced : Synced w.disk m
  inst : w.inst = .ok m ∨ w.inst = .ok m.clearMemoryCache
  content : m.content = s.content
  crypt : m.crypt = s.crypt
  seconds : m.expiredSeconds = s.seconds

/-! ### Dropping the memory cache -/

section Cache

variable {P : Platform} {sys : Sys} {d : Disk} {m : MMKV}

lemma MMKV.clearMemoryCache_eq (h : m.closed = false) :
    m.clearMemoryCache = { m with dict := ∅, actualSize := 0, crcDigest := 0, needLoad := true } := by
  simp [clearMemoryCache, h]

lemma MMKV.get_of_probe {m' : MMKV} {α : Type} (getter : View → α) (zero : α) (hclosed : m.closed = false)
    (hprobe : m.checkLoadData d sys = m') : (m.get sys d getter zero).2 = getter (m'.view sys.now) := by
  simp [get, hclosed, hprobe]

lemma Synced.get_eq {α : Type} (h : Synced d m) (sys : Sys) (getter : View → α) (zero : α) :
    (m.get sys d getter zero).2 = getter (m.view sys.now) :=
  MMKV.get_of_probe getter zero h.closed (MMKV.checkLoadData_of_synced h)

theorem MMKV.checkLoadData_clearMemoryCache (h : Synced d m) (hsys : sys.remap = none) :
    m.clearMemoryCache.checkLoadData d sys = m := by
  have heq := clearMemoryCache_eq h.closed
  have hdec : parseDict (plainOf m.clearMemoryCache.crypt m.info.iv (d.region m.info.actualSize)) = .ok m.dict := by
    rw [heq]
    exact h.image.decoded
  rw [checkLoadData_reloads h.image.readable hdec (by rw [heq]) hsys, heq]
  obtain ⟨-, hdata, hact, hcrc, hexp, hload, -, -, -⟩ := h
  cases m
  simp_all [loaded]

lemma MMKV.clearMemoryCache_clearMemoryCache (h : m.closed = false) :
    m.clearMemoryCache.clearMemoryCache = m.clearMemoryCache := by
  rw [clearMemoryCache_eq h]
  simp [clearMemoryCache, h]

lemma MMKV.mutate_clearMemoryCache (h : Synced d m) (hsys : sys.remap = none) (body : MMKV → Result) :
    m.clearMemoryCache.mutate sys d body = m.mutate sys d body := by
  have hclosed : m.clearMemoryCache.closed = false := by rw [clearMemoryCache_eq h.closed]; exact h.closed
  have hro : m.clearMemoryCache.readOnly = false := by rw [clearMemoryCache_eq h.closed]; exact h.readOnly
  rw [mutate_of_synced h]
  simp [mutate, hclosed, hro, checkLoadData_clearMemoryCache h hsys]

lemma MMKV.exec_clearMemoryCache (h : Synced d m) (hsys : sys.remap = none) (op : Op) :
    (m.clearMemoryCache.exec P sys d op).writes = (m.exec P sys d op).writes ∧
      ((m.clearMemoryCache.exec P sys d op).m = (m.exec P sys d op).m ∨
        (m.clearMemoryCache.exec P sys d op).m = (m.exec P sys d op).m.clearMemoryCache) := by
  have heq := clearMemoryCache_eq h.closed
  cases op with
  | sync =>
    rw [heq]
    simp [exec, syncFlush, h.closed, h.readOnly, heq]
  | clearMemoryCache => exact ⟨rfl, .inl (clearMemoryCache_clearMemoryCache h.closed)⟩
  | enableCompareBeforeSet =>
    refine ⟨rfl, .inr ?_⟩
    simp only [exec, enableCompareBeforeSet, heq]
    split <;> simp [clearMemoryCache, h.closed]
  | disableCompareBeforeSet =>
    refine ⟨rfl, .inr ?_⟩
    simp [exec, disableCompareBeforeSet, clearMemoryCache, h.closed]
  | _ => simp only [exec, mutate_clearMemoryCache h hsys, true_or, and_self]

/-- `m₀` is `m`, up to a drop of the memory cache. -/
structure UpToDrop (m₀ m : MMKV) : Prop where
  closed : m₀.closed = m.closed
  readOnly : m₀.readOnly = m.readOnly
  crypt : m₀.crypt = m.crypt
  info : m₀.info = m.info
  enableExpire : m₀.enableExpire = m.enableExpire
  expiredSeconds : m₀.expiredSeconds = m.expiredSeconds
  /-- Its map is that of `m`, unless it is to load one. -/
  dict : m₀.needLoad = false → m₀.dict = m.dict

lemma MMKV.upToDrop_clearMemoryCache (h : m.closed = false) : UpToDrop m.clearMemoryCache m := by
  rw [clearMemoryCache_eq h]
  exact ⟨rfl, rfl, rfl, rfl, rfl, rfl, fun hload => by cases hload⟩

end Cache

/-! ### The instance of the process -/

section Inst

variable {P : Platform} {w : World} {s : Model} {m m₀ : MMKV} {sys : Sys}

lemma Tracks.inst_eq (h : Tracks w s m) : ∃ m₀, w.inst = .ok m₀ ∧ UpToDrop m₀ m := by
  rcases h.inst with hi | hi
  · exact ⟨m, hi, rfl, rfl, rfl, rfl, rfl, rfl, fun _ => rfl⟩
  · exact ⟨_, hi, MMKV.upToDrop_clearMemoryCache h.synced.closed⟩

lemma Tracks.upToDrop (h : Tracks w s m) (hinst : w.inst = .ok m₀) : UpToDrop m₀ m := by
  obtain ⟨m₁, hinst', hdrop⟩ := h.inst_eq
  cases hinst.symm.trans hinst'
  exact hdrop

lemma Tracks.inst_crypt (h : Tracks w s m) (hinst : w.inst = .ok m₀) : m₀.crypt = s.crypt :=
  (h.upToDrop hinst).crypt.trans h.crypt

theorem Tracks.checkLoadData (h : Tracks w s m) (hinst : w.inst = .ok m₀) (hsys : sys.remap = none) :
    m₀.checkLoadData w.disk sys = m := by
  rcases h.inst with hi | hi
  · cases hinst.symm.trans hi
    exact MMKV.checkLoadData_of_synced h.synced
  · cases hinst.symm.trans hi
    exact MMKV.checkLoadData_clearMemoryCache h.synced hsys

lemma Tracks.mutate (h : Tracks w s m) (hinst : w.inst = .ok m₀) (hsys : sys.remap = none) (body : MMKV → Result) :
    m₀.mutate sys w.disk body = body m := by
  rcases h.inst with hi | hi
  · cases hinst.symm.trans hi
    exact MMKV.mutate_of_synced h.synced body
  · cases hinst.symm.trans hi
    rw [MMKV.mutate_clearMemoryCache h.synced hsys, MMKV.mutate_of_synced h.synced]

lemma Tracks.exec (h : Tracks w s m) (hinst : w.inst = .ok m₀) (hsys : sys.remap = none) (op : Op) :
    (m₀.exec P sys w.disk op).writes = (m.exec P sys w.disk op).writes ∧
      ((m₀.exec P sys w.disk op).m = (m.exec P sys w.disk op).m ∨
        (m₀.exec P sys w.disk op).m = (m.exec P sys w.disk op).m.clearMemoryCache) := by
  rcases h.inst with hi | hi
  · cases hinst.symm.trans hi
    exact ⟨rfl, .inl rfl⟩
  · cases hinst.symm.trans hi
    exact MMKV.exec_clearMemoryCache h.synced hsys op

lemma Tracks.step_call (h : Tracks w s m) (hsys : sys.remap = none) (op : Op) :
    ∃ m', w.step P (.call op sys) = ⟨w.disk.apply (m.exec P sys w.disk op).writes, .ok m'⟩ ∧
      (m' = (m.exec P sys w.disk op).m ∨ m' = (m.exec P sys w.disk op).m.clearMemoryCache) := by
  obtain ⟨m₀, hinst, -⟩ := h.inst_eq
  obtain ⟨hwrites, hm⟩ := h.exec (P := P) hinst hsys op
  exact ⟨_, by simp only [World.step, hinst, hwrites], hm⟩

lemma Tracks.step_clearMemoryCache (h : Tracks w s m) (hsys : sys.remap = none) :
    w.step P (.call .clearMemoryCache sys) = ⟨w.disk, .ok m.clearMemoryCache⟩ := by
  obtain ⟨m', hstep, hm⟩ := h.step_call (P := P) hsys .clearMemoryCache
  rw [hstep]
  rcases hm with rfl | rfl
  · rfl
  · rw [show (m.exec P sys w.disk .clearMemoryCache).m = m.clearMemoryCache from rfl,
      MMKV.clearMemoryCache_clearMemoryCache h.synced.closed]
    rfl

end Inst

/-! ### One action -/

section Step

variable {P : Platform} {w : World} {s : Model} {m : MMKV}

/-- **The files of an instance that agrees with them reopen to its map.** -/
theorem Synced.reopens {d : Disk} {cfg : Config} (h : Synced d m) (hro : cfg.readOnly = false)
    (hkey : cfg.crypt P = m.crypt) (sys : Sys) :
    ∃ m', (World.start P cfg sys d).inst = .ok m' ∧ m'.dict = m.dict ∧ m'.enableExpire = m.enableExpire := by
  have himage := h.image
  rw [← hkey] at himage
  rw [World.start, openMMKV_of_stored (.inl himage) hro]
  exact ⟨_, rfl, rfl, h.enableExpire.symm⟩

lemma Synced.reopens_content {d : Disk} {cfg : Config} {c : Content} (h : Synced d m) (hro : cfg.readOnly = false)
    (hkey : cfg.crypt P = m.crypt) (sys : Sys) (hc : m.content = c) :
    ∃ m', (World.start P cfg sys d).inst = .ok m' ∧ m'.content = c := by
  obtain ⟨m', hm', hdict, hexp⟩ := h.reopens hro hkey sys
  refine ⟨m', hm', ?_⟩
  rw [MMKV.content, hdict, hexp]
  exact hc

theorem tracks_start {cfg : Config} (sys : Sys) {d : Disk} {mi : MetaInfo} {dict : Dict}
    (h : Stored (cfg.crypt P) d mi dict) (hro : cfg.readOnly = false) :
    ∃ m, Tracks (World.start P cfg sys d) ⟨⟨OrdMap.lookup dict, mi.expireEnabled⟩, cfg.crypt P, 0⟩ m ∧
      m.info = mi := by
  rw [World.start, openMMKV_of_stored h hro]
  exact ⟨_, ⟨Config.synced_opened h.image hro, .inl rfl, rfl, rfl, rfl⟩, rfl⟩

/-- **One action**: the instance agrees with its files again and stands for the model after the action, and the
last-confirmed snapshot is the one it was, under the same key and in a file that is no shorter, or the current one. -/
theorem step_tracks_last {a : Act} (h : Tracks w s m) (hok : a.OK P w) :
    ∃ m', Tracks (w.step P a) (s.step P a) m' ∧
      ((m'.crypt = m.crypt ∧ KeepsLast m.info m'.info) ∧ w.disk.data.length ≤ (w.step P a).disk.data.length ∨
        Confirms m.info m'.info) := by
  cases a with
  | reopen cfg sys =>
    obtain ⟨hro, hkey⟩ := hok
    obtain ⟨m₀, hinst, hdrop⟩ := h.inst_eq
    have hcrypt : cfg.crypt P = m.crypt := (hkey m₀ hinst).trans hdrop.crypt
    have himage := h.synced.image
    rw [← hcrypt] at himage
    obtain ⟨m', h', hinfo⟩ := tracks_start sys (.inl himage) hro
    have hcontent : (⟨OrdMap.lookup m.dict, m.info.expireEnabled⟩ : Content) = s.content := by
      rw [← h.content, ← h.synced.enableExpire]
      rfl
    rw [hcontent] at h'
    refine ⟨m', h', .inl ⟨⟨h'.crypt.trans hcrypt, by rw [KeepsLast, hinfo]⟩, ?_⟩⟩
    rw [World.step, World.start, openMMKV_of_stored (.inl himage) hro, apply_openWrites]
    simp
  | call op sys =>
    obtain ⟨hsys, hcall⟩ := hok
    obtain ⟨m₀, hinst, -⟩ := h.inst_eq
    obtain ⟨hgood, hlt⟩ := hcall m₀ hinst
    -- whether or not the cache was dropped, this is the call on `m`
    rw [h.checkLoadData hinst hsys.remap] at hgood hlt
    by_cases hcache : op = .clearMemoryCache
    · subst hcache
      rw [h.step_clearMemoryCache hsys.remap]
      exact ⟨m, ⟨h.synced, .inr rfl, h.content, h.crypt, h.seconds⟩, .inl ⟨⟨rfl, rfl⟩, le_rfl⟩⟩
    · have heffect := exec_effect (P := P) h.synced hsys hgood hlt hcache
      obtain ⟨m', hstep, hm'⟩ := h.step_call (P := P) hsys.remap op
      rw [hstep]
      refine ⟨(m.exec P sys w.disk op).m, ⟨heffect.synced, hm'.imp (congrArg Except.ok) (congrArg Except.ok), ?_, ?_, ?_⟩,
        ?_⟩
      · rw [heffect.content, h.content, h.seconds]
        rfl
      · rw [heffect.crypt, h.crypt]
        rfl
      · have hexp : m.enableExpire = s.content.expire := by rw [← h.content]; rfl
        rw [heffect.seconds, h.seconds, hexp]
        rfl
      · by_cases hkey : (m.exec P sys w.disk op).m.crypt = m.crypt
        · exact heffect.evolves.last.imp_left fun hlast => ⟨⟨hkey, hlast.1⟩, hlast.2.ge⟩
        · exact .inr (heffect.rekeyed hkey)

theorem step_tracks {a : Act} (h : Tracks w s m) (hok : a.OK P w) : ∃ m', Tracks (w.step P a) (s.step P a) m' :=
  (step_tracks_last h hok).imp fun _ => And.left

theorem run_tracks {cfg : Config} {sys : Sys} {d : Disk} {mi : MetaInfo} {dict : Dict} {acts : List Act}
    (hstored : Stored (cfg.crypt P) d mi dict) (hro : cfg.readOnly = false)
    (hacts : Along (Act.OK P) (World.step P) (World.start P cfg sys d) acts) :
    ∃ m, Tracks (run (World.step P) (World.start P cfg sys d) acts)
      (run (Model.step P) ⟨⟨OrdMap.lookup dict, mi.expireEnabled⟩, cfg.crypt P, 0⟩ acts) m := by
  obtain ⟨m, h, -⟩ := tracks_start sys hstored hro
  refine hacts.simulation (R := fun w s => ∃ m, Tracks w s m) ?_ ⟨m, h⟩
  rintro w s a ⟨m, h⟩ hok
  exact step_tracks h hok

end Step

/-! ### Fresh files -/

section Fresh

variable {P : Platform} {cfg : Config} {sys : Sys}

/-- The files that opening an absent store creates. -/
def freshDisk (P : Platform) : Disk :=
  ⟨List.replicate P.pageSize 0, List.replicate (pageRoundUp P metaSize) 0⟩

lemma image_freshDisk (P : Platform) (crypt : Option Cipher) : Image crypt (freshDisk P) blankMeta ∅ :=
  image_of_zeros crypt P.four_le_pageSize (le_pageRoundUp P metaSize)

/-- The instance that opening an absent store returns. -/
def Config.fresh (P : Platform) (cfg : Config) : MMKV := cfg.opened P (freshDisk P) blankMeta ∅

theorem start_absent (hro : cfg.readOnly = false) :
    World.start P cfg sys ⟨[], []⟩ = ⟨freshDisk P, .ok (cfg.fresh P)⟩ := by
  have hstored : Stored (cfg.crypt P) ⟨[], []⟩ blankMeta ∅ := .inr ⟨blank_absent, rfl, rfl⟩
  have hdisk : (⟨[], []⟩ : Disk).apply (openWrites P ⟨[], []⟩) = freshDisk P := by
    simp [apply_openWrites, freshDisk, pageRoundUp_zero]
  rw [World.start, openMMKV_of_stored hstored hro, hdisk, Config.fresh]

theorem start_fresh (hro : cfg.readOnly = false) :
    World.start P cfg sys (freshDisk P) = ⟨freshDisk P, .ok (cfg.fresh P)⟩ := by
  have hdisk : (freshDisk P).apply (openWrites P (freshDisk P)) = freshDisk P := by
    simp [apply_openWrites, freshDisk, pageRoundUp_zero]
  rw [World.start, openMMKV_of_stored (.inl (image_freshDisk P _)) hro, hdisk, Config.fresh]

theorem synced_fresh (P : Platform) (hro : cfg.readOnly = false) : Synced (freshDisk P) (cfg.fresh P) :=
  Config.synced_opened (image_freshDisk P _) hro

lemma fastOK_fresh (P : Platform) (cfg : Config) : (cfg.fresh P).fastOK = false := by
  have hver : decide (versionFlag ≤ (cfg.fresh P).info.version) = false :=
    show decide (versionFlag ≤ blankMeta.version) = false by decide
  rw [MMKV.fastOK, hver, Bool.and_false]

lemma enableExpire_fresh (P : Platform) (cfg : Config) : (cfg.fresh P).enableExpire = false :=
  show blankMeta.expireEnabled = false by decide

theorem exec_first_set (hro : cfg.readOnly = false) (key : Bytes) (v : Value) :
    (cfg.fresh P).exec P sys (freshDisk P) (.set key v) =
      ({ cfg.fresh P with dict := (∅ : Dict).insert key v.blob } : MMKV).fullWritebackGrow P sys (freshDisk P) false
        (pairBytes key v.blob).length := by
  rw [MMKV.exec, MMKV.mutate_of_synced (synced_fresh P hro)]
  have hdict : (cfg.fresh P).dict = ∅ := rfl
  rw [MMKV.setValueLocked_eq rfl (enableExpire_fresh P cfg), MMKV.setBlob_of_not_fastOK (fastOK_fresh P cfg), hdict,
    ExtTreeMap.isEmpty_empty, Bool.not_true]

lemma regionAfter_plain_set {d : Disk} {m : MMKV} {key : Bytes} {v : Value} (hcmp : m.compareBeforeSet = false)
    (hexp : m.enableExpire = false) : (Op.set key v).regionAfter sys d m = m.regionAfterSet d key v.blob := by
  have hslot : m.content.slot sys m.expiredSeconds v.blob = v.blob := by
    rw [Content.slot, MMKV.content, hexp, if_neg Bool.false_ne_true]
  rw [Op.regionAfter, MMKV.regionAfterPut, if_neg (by simp [hcmp]), hslot]

lemma regionAfter_first_set (cfg : Config) (sys : Sys) (d : Disk) (key : Bytes) (v : Value) :
    (Op.set key v).regionAfter sys d (cfg.fresh P) = regionOf ((∅ : Dict).insert key v.blob) := by
  have hfast := fastOK_fresh P cfg
  rw [regionAfter_plain_set rfl (enableExpire_fresh P cfg), MMKV.regionAfterSet,
    if_neg (by simp [MMKV.overrides, hfast]), if_neg (by simp [MMKV.appends, hfast])]
  rfl

lemma ok_first_set (hro : cfg.readOnly = false) (hsys : sys.OK) {key : Bytes} {v : Value} (hk : key ≠ [])
    (hlt : 4 + (regionOf ((∅ : Dict).insert key v.blob)).length < 2 ^ 32) :
    (Act.call (.set key v) sys).OK P ⟨freshDisk P, .ok (cfg.fresh P)⟩ := by
  refine ⟨hsys, fun m hm => ?_⟩
  cases hm
  rw [MMKV.checkLoadData_of_synced (synced_fresh P hro), regionAfter_first_set]
  exact ⟨hk, hlt⟩

/-- The instance that writes its first pair back. -/
def Config.first (P : Platform) (cfg : Config) (key : Bytes) (v : Value) : MMKV :=
  { cfg.fresh P with dict := (∅ : Dict).insert key v.blob }

/-- The meta of the first write-back. -/
def Config.firstInfo (P : Platform) (cfg : Config) (sys : Sys) (key : Bytes) (v : Value) : MetaInfo :=
  (cfg.first P key v).writtenInfo ((cfg.first P key v).stored sys) ((cfg.first P key v).nextIV sys)

lemma Config.first_info (P : Platform) (cfg : Config) (key : Bytes) (v : Value) :
    (cfg.first P key v).info = blankMeta := rfl

lemma Config.firstInfo_sequence (P : Platform) (cfg : Config) (sys : Sys) (key : Bytes) (v : Value) :
    (cfg.firstInfo P sys key v).sequence = 1 := rfl

/-- The files after the first write-back. -/
def Config.firstDisk (P : Platform) (cfg : Config) (sys : Sys) (key : Bytes) (v : Value) : Disk :=
  ⟨MMKV.rewritten (freshDisk P) P.pageSize ((cfg.first P key v).stored sys),
    patch (freshDisk P).crc 0 (cfg.firstInfo P sys key v).marshal⟩

/-- The instance after the first write-back. -/
def Config.afterFirst (P : Platform) (cfg : Config) (sys : Sys) (key : Bytes) (v : Value) : MMKV :=
  (cfg.first P key v).written P.pageSize (cfg.firstInfo P sys key v) ((∅ : Dict).insert key v.blob)

/-- **The first set on a fresh store** that has room for it: the files hold the one pair, in the size they had. -/
theorem first_set (hro : cfg.readOnly = false) (hsys : sys.OK) (key : Bytes) (v : Value) (hk : key ≠ [])
    (hroom : 4 + (regionOf ((∅ : Dict).insert key v.blob)).length + (pairBytes key v.blob).length < P.pageSize) :
    (cfg.fresh P).exec P sys (freshDisk P) (.set key v) =
        ⟨MMKV.regionWrites P.pageSize P.pageSize ((cfg.first P key v).stored sys) ++
          crcWrites 0 (cfg.firstInfo P sys key v).marshal, cfg.afterFirst P sys key v, none⟩ ∧
      (freshDisk P).apply ((cfg.fresh P).exec P sys (freshDisk P) (.set key v)).writes = cfg.firstDisk P sys key v ∧
      Synced (cfg.firstDisk P sys key v) (cfg.afterFirst P sys key v) := by
  have hdata : (cfg.first P key v).data = ⟨(freshDisk P).data.length, true⟩ := (synced_fresh P hro).data
  have hlen : (freshDisk P).data.length = P.pageSize := by simp [freshDisk]
  have hsize : (cfg.first P key v).data.size = P.pageSize := by rw [hdata]; exact hlen
  have hwf : WF (cfg.first P key v).dict := wf_empty.insert hk v.blob_ne_nil
  have hp := P.pageSize_lt
  have hparse : parseDict (regionOf (cfg.first P key v).dict) = .ok (cfg.first P key v).dict :=
    parseDict_regionOf hwf (Nat.lt_of_le_of_lt (show _ ≤ _ by simp only [Config.first]; omega) hp)
  -- the first page has room, so the file keeps its size
  have hgrown : (cfg.first P key v).grownSize P
      (4 + (regionOf (cfg.first P key v).dict).length + (pairBytes key v.blob).length) false
      (pairBytes key v.blob).length = P.pageSize :=
    (MMKV.grownSize_of_lt (by rw [hsize]; exact hroom)).trans hsize
  have hexec : (cfg.fresh P).exec P sys (freshDisk P) (.set key v) =
      ⟨MMKV.regionWrites P.pageSize P.pageSize ((cfg.first P key v).stored sys) ++
        crcWrites 0 (cfg.firstInfo P sys key v).marshal, cfg.afterFirst P sys key v, none⟩ := by
    rw [exec_first_set hro, ← Config.first, MMKV.fullWritebackGrow_eq hdata hsys]
    simp only [hparse, hgrown, hlen]
    rfl
  have hdisk : (freshDisk P).apply ((cfg.fresh P).exec P sys (freshDisk P) (.set key v)).writes =
      cfg.firstDisk P sys key v := by
    have := MMKV.apply_fullWriteback (freshDisk P) P.pageSize ((cfg.first P key v).stored sys)
      (cfg.firstInfo P sys key v)
    rw [hlen] at this
    rw [hexec, this, Config.firstDisk]
  refine ⟨hexec, hdisk, ?_⟩
  have hgood : (Op.set key v).Good (cfg.fresh P) := hk
  have heffect := exec_effect (P := P) (synced_fresh P hro) hsys hgood
    (by rw [regionAfter_first_set]; omega) (by simp)
  have hsynced := heffect.synced
  rw [hdisk, hexec] at hsynced
  exact hsynced

theorem run_first_set (hro : cfg.readOnly = false) (hsys : sys.OK) (key : Bytes) (v : Value) (hk : key ≠ [])
    (hroom : 4 + (regionOf ((∅ : Dict).insert key v.blob)).length + (pairBytes key v.blob).length < P.pageSize) :
    run (World.step P) (World.start P cfg sys ⟨[], []⟩) [.call (.set key v) sys] =
        ⟨cfg.firstDisk P sys key v, .ok (cfg.afterFirst P sys key v)⟩ ∧
      Along (Act.OK P) (World.step P) (World.start P cfg sys ⟨[], []⟩) [.call (.set key v) sys] := by
  obtain ⟨hset, hdisk, -⟩ := first_set (P := P) hro hsys key v hk hroom
  have hp := P.pageSize_lt
  rw [start_absent hro]
  exact ⟨by rw [run_cons, run_nil, World.step_call, hdisk, hset], ok_first_set hro hsys hk (by omega), trivial⟩

lemma regionAfter_append_set {d : Disk} {m : MMKV} {key : Bytes} {v : Value} (hcmp : m.compareBeforeSet = false)
    (hexp : m.enableExpire = false) (hover : m.overrides key (pairBytes key v.blob) = false)
    (happend : m.appends (pairBytes key v.blob) = true) :
    (Op.set key v).regionAfter sys d m = m.plainRegion d ++ pairBytes key v.blob := by
  rw [regionAfter_plain_set hcmp hexp, MMKV.regionAfterSet, if_neg (by simp [hover]), if_pos happend]

/-- **A further set on the append path**, as an action of a run. -/
theorem append_set {d : Disk} {m : MMKV} {key : Bytes} {v : Value} (h : Synced d m) (hsys : sys.OK) (hk : key ≠ [])
    (hcmp : m.compareBeforeSet = false) (hexp : m.enableExpire = false)
    (hover : m.overrides key (pairBytes key v.blob) = false) (happend : m.appends (pairBytes key v.blob) = true)
    (hlt : 4 + m.actualSize.toNat + (pairBytes key v.blob).length < 2 ^ 32) :
    let d' := d.apply (m.appendRaw (pairBytes key v.blob)).1
    let m' := m.inPlace (m.appendedInfo (pairBytes key v.blob)) (m.dict.insert key v.blob)
    World.step P ⟨d, .ok m⟩ (.call (.set key v) sys) = ⟨d', .ok m'⟩ ∧ (Act.call (.set key v) sys).OK P ⟨d, .ok m⟩ ∧
      Synced d' m' := by
  have hexec : m.exec P sys d (.set key v) = _ := MMKV.exec_set_of_appends h hcmp hexp hover happend
  have hbound : 4 + ((Op.set key v).regionAfter sys d m).length < 2 ^ 32 := by
    rw [regionAfter_append_set hcmp hexp hover happend, List.length_append, h.steady.length_plainRegion, ← h.actualSize]
    omega
  have hgood : (Op.set key v).Good m := hk
  have heffect := (exec_effect (P := P) h hsys hgood hbound (by simp)).synced
  rw [hexec] at heffect
  refine ⟨by rw [World.step_call, hexec], ⟨hsys, fun m₀ hm₀ => ?_⟩, heffect⟩
  cases hm₀
  rw [MMKV.checkLoadData_of_synced h]
  exact ⟨hk, hbound⟩

/-- **A further set on the override path**, as an action of a run: the file keeps its length. -/
theorem override_set {d : Disk} {m : MMKV} {key : Bytes} {v : Value} (h : Synced d m) (hsys : sys.OK) (hk : key ≠ [])
    (hcmp : m.compareBeforeSet = false) (hexp : m.enableExpire = false)
    (hover : m.overrides key (pairBytes key v.blob) = true)
    (hlt : 4 + (itemSizeHolderBytes ++ pairBytes key v.blob).length < 2 ^ 32) :
    let r := m.exec P sys d (.set key v)
    World.step P ⟨d, .ok m⟩ (.call (.set key v) sys) = ⟨d.apply r.writes, .ok r.m⟩ ∧
      (Act.call (.set key v) sys).OK P ⟨d, .ok m⟩ ∧ Synced (d.apply r.writes) r.m ∧
      (d.apply r.writes).data.length = d.data.length ∧
      r.m = m.inPlace (m.overriddenInfo (pairBytes key v.blob)) (m.dict.insert key v.blob) := by
  have hexec : m.exec P sys d (.set key v) = _ := MMKV.exec_set_of_overrides h hcmp hexp hover hlt
  have hbound : 4 + ((Op.set key v).regionAfter sys d m).length < 2 ^ 32 := by
    rw [regionAfter_plain_set hcmp hexp, MMKV.regionAfterSet, if_pos hover]
    exact hlt
  have hgood : (Op.set key v).Good m := hk
  refine ⟨World.step_call .., ⟨hsys, fun m₀ hm₀ => ?_⟩, (exec_effect h hsys hgood hbound (by simp)).synced, ?_, ?_⟩
  · cases hm₀
    rw [MMKV.checkLoadData_of_synced h]
    exact ⟨hk, hbound⟩
  · rw [hexec, Disk.apply_append, Disk.apply_dataWrites, MMKV.apply_metaWords, length_patch]
  · rw [hexec]

/-- **The first set on a fresh store**, whatever room it takes: what the files hold, and under which meta. -/
theorem first_set_rewritten (hro : cfg.readOnly = false) (hsys : sys.OK) (key : Bytes) (v : Value) (hk : key ≠ [])
    (hlt : 4 + (regionOf ((∅ : Dict).insert key v.blob)).length < 2 ^ 32) :
    ∃ mi, (cfg.first P key v).Rewritten P (freshDisk P) mi ((∅ : Dict).insert key v.blob)
        ((cfg.fresh P).exec P sys (freshDisk P) (.set key v)) ∧
      mi.actualSize.toNat = (regionOf ((∅ : Dict).insert key v.blob)).length := by
  have himage := image_freshDisk P none
  have hdata : (cfg.first P key v).data = ⟨(freshDisk P).data.length, true⟩ := (synced_fresh P hro).data
  have hwf : WF (cfg.first P key v).dict := wf_empty.insert hk v.blob_ne_nil
  have hst : Stamped (cfg.first P key v).info (cfg.first P key v).dict :=
    fun h => absurd (show blankMeta.expireEnabled = true from h) (by decide)
  rw [exec_first_set hro, ← Config.first]
  obtain ⟨mi, hr⟩ := MMKV.fullWritebackGrow_spec (P := P) hdata himage.metaSize_le hwf hst hsys hlt _ _
  obtain ⟨hsealed, hregion, -, -⟩ := MMKV.fullWritebackGrow_sealed (P := P) hdata himage.metaSize_le hsys hlt _ _
  have hlen := hsealed.length_region
  rw [hregion, MMKV.length_stored] at hlen
  rw [← Except.ok.inj (hsealed.parse.symm.trans hr.image.parse)] at hr
  exact ⟨_, hr, hlen.symm⟩

lemma exec_of_fresh_restored (hro : cfg.readOnly = false) {sys' : Sys} (hsys : sys'.remap = none) (key key' : Bytes)
    (v v' : Value) :
    ({ cfg.afterFirst P sys key v with needLoad := true } : MMKV).exec P sys' (freshDisk P) (.set key' v') =
      (cfg.fresh P).exec P sys' (freshDisk P) (.set key' v') := by
  have hcheck : ({ cfg.afterFirst P sys key v with needLoad := true } : MMKV).checkLoadData (freshDisk P) sys' =
      cfg.fresh P := MMKV.checkLoadData_of_needLoad (image_freshDisk P _) rfl hsys
  rw [MMKV.exec, MMKV.exec, MMKV.mutate_of_synced (synced_fresh P hro), MMKV.mutate, hcheck]
  simp [Config.afterFirst, MMKV.written, Config.first, Config.fresh, Config.opened, MMKV.loaded, Config.instance, hro]

theorem region_firstDisk (cfg : Config) (sys : Sys) (key : Bytes) (v : Value)
    (hroom : 4 + (regionOf ((∅ : Dict).insert key v.blob)).length ≤ P.pageSize) :
    (cfg.firstDisk P sys key v).region (cfg.firstInfo P sys key v).actualSize = (cfg.first P key v).stored sys := by
  have hlen : 4 + ((cfg.first P key v).stored sys).length ≤ P.pageSize := by
    rw [MMKV.length_stored]
    exact hroom
  exact (MMKV.sealed_of_stored (by rw [Config.firstDisk]) (image_freshDisk P none).metaSize_le hlen
    (Nat.lt_of_le_of_lt hlen P.pageSize_lt) rfl rfl rfl).2

end Fresh

end MmkvGo.Store
