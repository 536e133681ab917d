import MmkvGo.Store.Run

/-!
What a killed process leaves behind, and what the next open makes of it.  The meta names two snapshots: the current one
and the last-confirmed one, which is that of the last completed write-back.  `Snapshot` is the ghost record of that
write-back, the bytes it stored and the map they hold; `Confirmed` says that the meta names it, and `Confirmed.next`
carries this over a step.  `reopens_current` and `reopens_last` are the two ways in which torn files are read back.
-/

namespace MmkvGo.Crash

open MmkvGo.Lib MmkvGo.Wire MmkvGo.Crypt MmkvGo.Store Std

/-- What a completed write-back stored: the bytes of the region, and the map they hold. -/
structure Snapshot where
  region : Bytes
  content : Content

/-- The snapshot of a store that nothing was written to. -/
def Snapshot.empty : Snapshot := ⟨[], Content.empty⟩

/-- The region that the meta file names. -/
def currentRegion (d : Disk) : Bytes :=
  match parseMeta d.crc with
  | .error _ => []
  | .ok mi => d.region mi.actualSize

lemma currentRegion_of_parse {d : Disk} {mi : MetaInfo} (hparse : parseMeta d.crc = .ok mi) :
    currentRegion d = d.region mi.actualSize := by
  rw [currentRegion, hparse]

lemma parseMeta_blank {d : Disk} (hblank : Blank d) :
    parseMeta d.crc = .ok blankMeta ∨ parseMeta d.crc = .error (.metaTooShort d.crc.length) := by
  have hcrc : d.crc = List.replicate d.crc.length 0 := List.eq_replicate_of_mem hblank.2
  by_cases hlen : metaSize ≤ d.crc.length
  · left
    rw [hcrc, parseMeta_zeros hlen]
  · exact .inr (if_pos (Nat.not_le.1 hlen))

/-- The last completed write-back after a step from the files `d` to the files `d'`, which hold the map `c`: a write-back
is known by its new sequence number. -/
def Snapshot.after (s : Snapshot) (d d' : Disk) (c : Content) : Snapshot :=
  if sequenceOf d' = sequenceOf d then s else ⟨currentRegion d', c⟩

/-- A system and the model of its map, with the record of the last completed write-back. -/
structure Logged (σ τ : Type) where
  world : σ
  model : τ
  last : Snapshot

section Logged

variable {σ τ α : Type} (disk : σ → Disk) (map : τ → Content) (world : σ → α → σ) (model : τ → α → τ)

def Logged.step (s : Logged σ τ) (a : α) : Logged σ τ where
  world := world s.world a
  model := model s.model a
  last := s.last.after (disk s.world) (disk (world s.world a)) (map (model s.model a))

/-- The last completed write-back of a run; `last` is the one before it. -/
def lastWriteback (w : σ) (s : τ) (last : Snapshot) (acts : List α) : Snapshot :=
  (run (Logged.step disk map world model) ⟨w, s, last⟩ acts).last

variable {disk map world model}

/-- **The invariant rule for recorded runs**: what every step keeps of the system, of the model and of the last write-back
holds after the run. -/
theorem logged_invariant {ok : σ → α → Prop} {Inv : σ → τ → Snapshot → Prop} {w : σ} {s : τ} {last : Snapshot}
    {acts : List α}
    (hstep : ∀ w s last a, Inv w s last → ok w a →
      Inv (world w a) (model s a) (last.after (disk w) (disk (world w a)) (map (model s a))))
    (hinit : Inv w s last) (hacts : Along ok world w acts) :
    Inv (run world w acts) (run model s acts) (lastWriteback disk map world model w s last acts) := by
  induction acts generalizing w s last with
  | nil => exact hinit
  | cons a acts ih => exact ih (hstep w s last a hinit hacts.1) hacts.2

end Logged

/-- The last-confirmed snapshot that the meta `mi` names is `s`. -/
structure Confirmed (crypt : Option Cipher) (mi : MetaInfo) (s : Snapshot) : Prop where
  length : s.region.length = mi.lastActualSize.toNat
  bounded : 4 + mi.lastActualSize.toNat < 2 ^ 32
  crc : Crc32.checksum s.region = mi.lastCRCDigest
  map : ∃ dict, parseDict (plainOf crypt mi.iv s.region) = .ok dict ∧
    s.content = ⟨OrdMap.lookup dict, mi.expireEnabled⟩

section Confirmed

variable {crypt crypt' : Option Cipher} {d d' : Disk} {mi mi' : MetaInfo} {dict : Dict} {s : Snapshot}

lemma confirmed_blank (crypt : Option Cipher) : Confirmed crypt blankMeta .empty := by
  refine ⟨rfl, by decide, by decide, ∅, ?_, ?_⟩
  · cases crypt <;> rfl
  · rw [OrdMap.lookup_empty]
    rfl

lemma confirmed_current (h : Image crypt d mi dict) (hsize : mi.lastActualSize = mi.actualSize)
    (hcrc : mi.lastCRCDigest = mi.crcDigest) :
    Confirmed crypt mi ⟨currentRegion d, ⟨OrdMap.lookup dict, mi.expireEnabled⟩⟩ := by
  have hregion : currentRegion d = d.region mi.actualSize := by rw [currentRegion, h.parse]
  rw [hregion]
  refine ⟨?_, ?_, ?_, dict, h.decoded, rfl⟩
  · rw [hsize, h.length_region]
  · rw [hsize]
    exact h.bounded
  · rw [hcrc, h.crc]

theorem Confirmed.next (h : Confirmed crypt mi s) (hseq : sequenceOf d = mi.sequence) (himage : Image crypt' d' mi' dict)
    (hlast : crypt' = crypt ∧ KeepsLast mi mi' ∨ Confirms mi mi') :
    Confirmed crypt' mi' (s.after d d' ⟨OrdMap.lookup dict, mi'.expireEnabled⟩) := by
  rw [Snapshot.after, sequenceOf_image himage, hseq]
  rcases hlast with ⟨rfl, hkeep⟩ | hconfirms
  · rw [KeepsLast] at hkeep
    rw [hkeep, if_pos rfl]
    exact ⟨h.length, h.bounded, h.crc, h.map⟩
  · rw [hconfirms.sequence, if_neg (by simp)]
    exact confirmed_current himage hconfirms.lastActualSize hconfirms.lastCRCDigest

/-- In plaintext nothing of the meta matters but the snapshot and the expiration flag. -/
lemma Confirmed.congr (h : Confirmed none mi s) (hsize : mi'.lastActualSize = mi.lastActualSize)
    (hcrc : mi'.lastCRCDigest = mi.lastCRCDigest) (hexpire : mi'.expireEnabled = mi.expireEnabled) :
    Confirmed none mi' s := by
  obtain ⟨hlen, hbounded, hsum, dict, hdec, hcontent⟩ := h
  exact ⟨by rw [hsize, hlen], by rw [hsize]; exact hbounded, by rw [hcrc, hsum], dict, hdec, by rw [hexpire, hcontent]⟩

end Confirmed

/-! ### Reopening -/

section Reopen

variable {P : Platform} {cfg : Config} {t : Disk} {mi : MetaInfo} {dict : Dict}

/-- **The current snapshot is whole**: the open decodes it. -/
theorem reopens_current (h : Readable t mi) (hro : cfg.readOnly = false)
    (hdec : parseDict (plainOf (cfg.crypt P) mi.iv (t.region mi.actualSize)) = .ok dict) (sys : Sys) :
    ∃ m, (World.start P cfg sys t).inst = .ok m ∧ m.content = ⟨OrdMap.lookup dict, mi.expireEnabled⟩ := by
  rw [World.start, openMMKV_of_readable sys h hro hdec]
  exact ⟨_, rfl, rfl⟩

/-- **The current snapshot is torn, and its CRC tells, but the last-confirmed one is whole**: the open decodes that. -/
theorem reopens_last {s : Snapshot} (hparse : parseMeta t.crc = .ok mi) (hver : Versioned t mi)
    (hbounded : 4 + mi.actualSize.toNat < 2 ^ 32) (hfits : 4 + mi.actualSize.toNat ≤ t.data.length)
    (hcrc : Crc32.checksum (t.region mi.actualSize) ≠ mi.crcDigest) (hro : cfg.readOnly = false)
    (hlast : Confirmed (cfg.crypt P) mi s) (hwhole : 4 + mi.lastActualSize.toNat ≤ t.data.length)
    (hregion : t.region mi.lastActualSize = s.region) (sys : Sys) :
    ∃ m, (World.start P cfg sys t).inst = .ok m ∧ m.content = s.content := by
  obtain ⟨dict, hdec, hcontent⟩ := hlast.map
  -- the open may add zeros at the end of the files, beyond both snapshots
  have hopen := apply_openWrites P t
  have hdata := congrArg Disk.data hopen
  have hlen : t.data.length ≤ (t.apply (openWrites P t)).data.length := by
    rw [hdata, List.length_append]
    omega
  have hmeta := parseMeta_append hparse (congrArg Disk.crc hopen)
  have hcurrent := Disk.region_append hdata hfits
  have hconfirmed := (Disk.region_append hdata hwhole).trans hregion
  have hversion : Versioned (t.apply (openWrites P t)) mi :=
    hver.congr (by rw [hdata, slice_append_left (by omega)])
  have hreject : ((cfg.instance P ⟨(t.apply (openWrites P t)).data.length, true⟩).withMeta mi).accepts
      (t.apply (openWrites P t)) mi.actualSize mi.crcDigest = false := by
    rw [Bool.eq_false_iff, ne_eq, MMKV.accepts_iff (n := (t.apply (openWrites P t)).data.length) rfl hbounded, hcurrent]
    exact fun h => hcrc h.2
  have hload := MMKV.loadData_lastConfirmed hmeta hversion rfl hreject (by omega) hlast.bounded
    (by rw [hconfirmed, hlast.crc]) (by rw [hconfirmed]; exact hdec)
  rw [World.start, openMMKV_of_load_writable sys hro hload rfl]
  exact ⟨_, rfl, hcontent.symm⟩

/-- **Neither snapshot is whole, and the CRCs tell**: the open discards the map. -/
theorem reopens_discarded (hparse : parseMeta t.crc = .ok mi) (hver : mi.version = versionFlag)
    (hbounded : 4 + mi.actualSize.toNat < 2 ^ 32) (hfits : 4 + mi.actualSize.toNat ≤ t.data.length)
    (hcrc : Crc32.checksum (t.region mi.actualSize) ≠ mi.crcDigest) (hlastBounded : 4 + mi.lastActualSize.toNat < 2 ^ 32)
    (hlast : 4 + mi.lastActualSize.toNat ≤ t.data.length)
    (hlastCRC : Crc32.checksum (t.region mi.lastActualSize) ≠ mi.lastCRCDigest) (hro : cfg.readOnly = false)
    (hrecover : cfg.recover = false) (sys : Sys) :
    ∃ m, (World.start P cfg sys t).inst = .ok m ∧ m.dict = ∅ := by
  have hopen := apply_openWrites P t
  have hmeta := parseMeta_append hparse (congrArg Disk.crc hopen)
  have hreject : ∀ {actual want : UInt32}, 4 + actual.toNat < 2 ^ 32 → 4 + actual.toNat ≤ t.data.length →
      Crc32.checksum (t.region actual) ≠ want →
      ((cfg.instance P ⟨(t.apply (openWrites P t)).data.length, true⟩).withMeta mi).accepts
        (t.apply (openWrites P t)) actual want = false := by
    intro actual want hlt hle hne
    rw [Bool.eq_false_iff, ne_eq, MMKV.accepts_iff (n := (t.apply (openWrites P t)).data.length) rfl hlt,
      Disk.region_append (congrArg Disk.data hopen) hle]
    exact fun h => hne h.2
  have hload := MMKV.loadData_discard hmeta hver hrecover (hreject hbounded hfits hcrc)
    (hreject hlastBounded hlast hlastCRC)
  rw [World.start, openMMKV_of_load_writable sys hro hload rfl]
  exact ⟨_, rfl, rfl⟩

end Reopen

end MmkvGo.Crash
