import MmkvGo.Crash.Cuts
import MmkvGo.Store.Refine

/-!
A process that is killed while it rewrites the region of a plaintext store in place: a set on the override path, or a
full write-back.  These paths store over the bytes that both snapshots of the meta describe, and only then store the
meta.  `CutOK` says of a cut point which front part of the new region may stand over the old one, and how much of the
new meta it takes; `torn_rewrite_recovers` that the next open then finds the map before the call, the one after it or
the one of the last write-back, and that before the meta it finds nothing at all otherwise.
`override_kill_loses_map` is such a loss.
-/

namespace MmkvGo.Crash

open MmkvGo.Lib MmkvGo.Wire MmkvGo.Crypt MmkvGo.Store Std

/-- The condition on a kill after the first `n` stores of a rewrite; `mi` is the meta before it and `last` the last
write-back.
* No store of the meta is made, and the front part of the new region that is stored is the same as the old one's.
* The meta names the new region, which is plaintext.
* The meta names the last write-back, of which what is stored so far has left no byte different, and the CRC tells that
  the current region is torn. -/
def CutOK (P : Platform) (sys : Sys) (d : Disk) (mi : MetaInfo) (last : Snapshot) (rw : Rewrite) (n : ℕ) : Prop :=
  let j := rw.metaStores P sys d n
  let current := rw.tornAt P sys d n mi.actualSize
  (j = 0 ∧ current = d.region mi.actualSize) ∨ (rw.Names sys mi j ∧ rw.base.crypt = none) ∨
    (rw.tornAt P sys d n mi.lastActualSize = last.region ∧
      (j = 0 ∧ Crc32.checksum current ≠ mi.crcDigest ∨
        rw.Straddles j ∧ Crc32.checksum current ≠ (rw.info sys).crcDigest))

/-- The CRCs of the meta tell the two snapshots of a cut rewrite from torn ones. -/
structure Telling (P : Platform) (sys : Sys) (d : Disk) (mi : MetaInfo) (last : Snapshot) (rw : Rewrite) (n : ℕ) :
    Prop where
  current : Crc32.checksum (rw.tornAt P sys d n mi.actualSize) = mi.crcDigest →
    rw.tornAt P sys d n mi.actualSize = d.region mi.actualSize
  last : Crc32.checksum (rw.tornAt P sys d n mi.lastActualSize) = mi.lastCRCDigest →
    rw.tornAt P sys d n mi.lastActualSize = last.region

/-- The current snapshot of the files `d`, whose meta is `mi`, is still that of the torn files `t`: their meta `mi'` names
it, and its bytes are in place. -/
structure Survives (t d : Disk) (mi mi' : MetaInfo) : Prop where
  before : parseMeta d.crc = .ok mi
  parse : parseMeta t.crc = .ok mi'
  current : Versioned t mi'
  actualSize : mi'.actualSize = mi.actualSize
  crcDigest : mi'.crcDigest = mi.crcDigest
  expire : mi'.expireEnabled = mi.expireEnabled
  fits : 4 + mi.actualSize.toNat ≤ t.data.length
  region : t.region mi.actualSize = d.region mi.actualSize

/-- The torn files `t` fall back to the snapshot `s`, the last-confirmed one of the meta `mi`: the CRC tells that the
current one is torn, their meta `mi'` names `s`, and its bytes are in place. -/
structure FallsBack (t d : Disk) (mi mi' : MetaInfo) (s : Snapshot) : Prop where
  before : parseMeta d.crc = .ok mi
  parse : parseMeta t.crc = .ok mi'
  current : Versioned t mi'
  actualSize : mi'.actualSize = mi.actualSize
  fits : 4 + mi.actualSize.toNat ≤ t.data.length
  torn : Crc32.checksum (t.region mi.actualSize) ≠ mi'.crcDigest
  lastActualSize : mi'.lastActualSize = mi.lastActualSize
  lastCRCDigest : mi'.lastCRCDigest = mi.lastCRCDigest
  expire : mi'.expireEnabled = mi.expireEnabled
  whole : 4 + mi.lastActualSize.toNat ≤ t.data.length
  region : t.region mi.lastActualSize = s.region

section Runs

variable {P : Platform} {cfg : Config} {t d : Disk} {mi mi' : MetaInfo} {dict : Dict} {m : MMKV} {sys : Sys} {op : Op}
  {rw : Rewrite} {last : Snapshot} {n : ℕ}

theorem Survives.reopens (h : Survives t d mi mi') (himage : Image none d mi dict) (hro : cfg.readOnly = false)
    (hkey : cfg.crypt P = none) (sys : Sys) :
    ∃ m, (World.start P cfg sys t).inst = .ok m ∧ m.content = ⟨OrdMap.lookup dict, mi.expireEnabled⟩ := by
  have hreadable : Readable t mi' := by
    refine ⟨h.parse, h.current, ?_, ?_, ?_⟩ <;> rw [h.actualSize]
    · exact h.fits
    · exact himage.bounded
    · rw [h.region, himage.crc, h.crcDigest]
  have hdec : parseDict (plainOf (cfg.crypt P) mi'.iv (t.region mi'.actualSize)) = .ok dict := by
    rw [hkey, h.actualSize, h.region]
    exact himage.decoded
  rw [← h.expire]
  exact reopens_current hreadable hro hdec sys

theorem FallsBack.reopens {s : Snapshot} (h : FallsBack t d mi mi' s) (hlast : Confirmed none mi s)
    (hbounded : 4 + mi.actualSize.toNat < 2 ^ 32) (hro : cfg.readOnly = false) (hkey : cfg.crypt P = none) (sys : Sys) :
    ∃ m, (World.start P cfg sys t).inst = .ok m ∧ m.content = s.content := by
  have hconfirmed : Confirmed (cfg.crypt P) mi' s := by
    rw [hkey]
    exact hlast.congr h.lastActualSize h.lastCRCDigest h.expire
  rw [← h.actualSize] at hbounded
  exact reopens_last h.parse h.current hbounded (by rw [h.actualSize]; exact h.fits) (by rw [h.actualSize]; exact h.torn)
    hro hconfirmed (by rw [h.lastActualSize]; exact h.whole) (by rw [h.lastActualSize]; exact h.region) sys

/-! ### What a cut leaves -/

lemma Rewrites.base_data (h : Rewrites P sys d m op rw) (hm : Synced d m) : rw.base.data = ⟨d.data.length, true⟩ :=
  h.data.trans hm.data

lemma Rewrites.override_info (h : Rewrites P sys d m op rw) (m' : MMKV) (pair : Bytes) (hrw : rw = .override m' pair) :
    m'.info = m.info ∧ m.info.version = versionFlag := by
  obtain ⟨rfl, hver⟩ := h.override m' pair hrw
  exact ⟨rfl, hver⟩

lemma Rewrites.survives (h : Rewrites P sys d m op rw) (hm : Synced d m) (hn : rw.metaStores P sys d n = 0)
    (hsame : rw.tornAt P sys d n m.info.actualSize = d.region m.info.actualSize) :
    Survives (d.apply ((m.exec P sys d op).writes.take n)) d m.info m.info := by
  obtain ⟨size, hwrites⟩ := h.writes
  have hfits := hm.image.fits
  obtain ⟨data', hbody, ht⟩ := Rewrite.apply_cut (h.base_data hm) (by omega) (resizeWrites _ size) hn
  have hlen := hbody.length
  rw [hwrites, ht]
  refine ⟨hm.image.parse, hm.image.parse, hbody.versioned hm.image.toSealed _ _, rfl, rfl, rfl, ?_, ?_⟩
  · rw [length_patch]
    omega
  · rw [hbody.region_patch _ _ hfits]
    exact hsame

lemma Rewrites.fallsBack (h : Rewrites P sys d m op rw) (hm : Synced d m)
    (hwhole : 4 + m.info.lastActualSize.toNat ≤ d.data.length)
    (hlast : rw.tornAt P sys d n m.info.lastActualSize = last.region)
    (hcut : rw.metaStores P sys d n = 0 ∧ Crc32.checksum (rw.tornAt P sys d n m.info.actualSize) ≠ m.info.crcDigest ∨
      rw.Straddles (rw.metaStores P sys d n) ∧
        Crc32.checksum (rw.tornAt P sys d n m.info.actualSize) ≠ (rw.info sys).crcDigest) :
    ∃ mi', FallsBack (d.apply ((m.exec P sys d op).writes.take n)) d m.info mi' last := by
  obtain ⟨size, hwrites⟩ := h.writes
  have hfits := hm.image.fits
  rw [hwrites]
  rcases hcut with ⟨hn, htorn⟩ | ⟨hstraddles, htorn⟩
  · obtain ⟨data', hbody, ht⟩ := Rewrite.apply_cut (h.base_data hm) (by omega) (resizeWrites _ size) hn
    have hlen := hbody.length
    rw [ht]
    refine ⟨m.info, hm.image.parse, hm.image.parse, hbody.versioned hm.image.toSealed _ _, rfl, ?_, ?_, rfl, rfl, rfl, ?_,
      ?_⟩
    · rw [length_patch]
      omega
    · rw [hbody.region_patch _ _ hfits]
      exact htorn
    · rw [length_patch]
      omega
    · rw [hbody.region_patch _ _ hwhole]
      exact hlast
  · -- all of the region is stored
    have hpos : _ ∧ _ ≤ (rw.record sys).length := hstraddles.bounds
    have htake : (rw.region sys).take (n - (rw.lead P d).length) = rw.region sys := by
      refine List.take_of_length_le ?_
      have := hpos.1
      rw [Rewrite.metaStores] at this
      omega
    obtain ⟨data', hbody, hlead⟩ := rw.apply_take_lead (P := P) (h.base_data hm) (by omega) (rw.lead P d).length
    rw [List.take_length] at hlead
    have hlen := hbody.length
    obtain ⟨mi', hparse, hver, hsize, hcrc, hlastSize, hlastCRC, hflags⟩ :=
      hstraddles.parse sys hm.image.parse h.override_info
    rw [Rewrite.apply_cut_record _ hpos.1 hpos.2, hlead]
    rw [Rewrite.tornAt, htake] at hlast htorn
    refine ⟨mi', hm.image.parse, hparse, .inl hver, hsize, ?_, ?_, hlastSize, hlastCRC, MMKV.expireEnabled_congr hflags, ?_,
      ?_⟩
    · rw [length_patch]
      exact hfits.trans hlen
    · rw [hcrc, hbody.region_patch _ _ hfits]
      exact htorn
    · rw [length_patch]
      exact hwhole.trans hlen
    · rw [hbody.region_patch _ _ hwhole]
      exact hlast

/-- A cut after which the meta names the new region: the files hold what they hold after the whole call. -/
lemma Rewrites.completes (h : Rewrites P sys d m op rw) (hm : Synced d m)
    (himage : Image none (d.apply (m.exec P sys d op).writes) mi dict)
    (hnames : rw.Names sys m.info (rw.metaStores P sys d n)) :
    ∃ mi', Survives (d.apply ((m.exec P sys d op).writes.take n)) (d.apply (m.exec P sys d op).writes) mi mi' := by
  obtain ⟨size, hwrites⟩ := h.writes
  by_cases hall : (m.exec P sys d op).writes.length ≤ n
  · rw [List.take_of_length_le hall]
    exact ⟨mi, himage.parse, himage.parse, himage.toSealed.versioned, rfl, rfl, rfl, himage.fits, rfl⟩
  -- what is missing is a part of the record, or the resize of a trim
  have hpos : 0 < rw.metaStores P sys d n := by
    rcases Nat.eq_zero_or_pos (rw.metaStores P sys d n) with hzero | hpos
    · rw [hzero] at hnames
      cases rw <;> simp [Rewrite.Names, offVersion] at hnames
    · exact hpos
  have hle : rw.metaStores P sys d n ≤ (rw.record sys).length := by
    have hrest : (resizeWrites (d.apply (rw.stores P sys d)).data.length size).length ≤ 1 := by
      rw [resizeWrites]
      split <;> simp
    rw [hwrites, List.length_append, Rewrite.length_stores] at hall
    rw [Rewrite.metaStores]
    omega
  obtain ⟨mi', hparse, hver, hsize, hcrc, hflags⟩ := hnames.parse hm.image.parse h.override_info
  have hdone : d.apply (m.exec P sys d op).writes =
      ⟨resize 0 (patch (d.apply (rw.lead P d)).data 4 (rw.region sys)) size, (d.apply (rw.record sys)).crc⟩ := by
    rw [hwrites, Disk.apply_append, Disk.apply_resizeWrites, Rewrite.apply_stores]
  -- the meta after the whole call names the same region
  obtain ⟨mi₁, hparse₁, -, hsize₁, hcrc₁, hflags₁⟩ :=
    (rw.names_record m.info).parse hm.image.parse h.override_info
  rw [List.take_length] at hparse₁
  obtain rfl : mi = mi₁ := by
    have hmi := himage.parse
    rw [hdone] at hmi
    exact Except.ok.inj (hmi.symm.trans hparse₁)
  have hlen : (rw.info sys).actualSize.toNat ≤ (rw.region sys).length := by
    cases rw with
    | override m' pair =>
      rw [Rewrite.info, Rewrite.region, MMKV.overriddenInfo, List.length_append]
      exact Nat.mod_le ..
    | writeback m' needSync incoming => exact Nat.mod_le ..
  have hroom := h.room
  have hfits : 4 + mi.actualSize.toNat ≤ (patch (d.apply (rw.lead P d)).data 4 (rw.region sys)).length := by
    rw [length_patch, hsize₁]
    omega
  have himfits := himage.fits
  rw [hwrites, Rewrite.apply_cut_record _ hpos hle, ← hwrites]
  refine ⟨mi', himage.parse, hparse, .inl hver, hsize.trans hsize₁.symm, hcrc.trans hcrc₁.symm,
    MMKV.expireEnabled_congr (hflags.trans hflags₁.symm), hfits, ?_⟩
  rw [hdone] at himfits ⊢
  rw [length_resize] at himfits
  exact (slice_resize himfits hfits).symm

/-- **A cut before the meta that tore both snapshots**: nothing is found. -/
theorem Rewrites.lost (h : Rewrites P sys d m op rw) (hm : Synced d m)
    (hwhole : 4 + m.info.lastActualSize.toNat ≤ d.data.length) (hbounded : 4 + m.info.lastActualSize.toNat < 2 ^ 32)
    (hn : rw.metaStores P sys d n = 0) (htells : Telling P sys d m.info last rw n)
    (hcut : ¬ CutOK P sys d m.info last rw n) (hro : cfg.readOnly = false) (hrecover : cfg.recover = false) (sys' : Sys) :
    ∃ m', (World.start P cfg sys' (d.apply ((m.exec P sys d op).writes.take n))).inst = .ok m' ∧ m'.dict = ∅ := by
  rw [CutOK, not_or, not_or] at hcut
  obtain ⟨hkept, -, hback⟩ := hcut
  have hcurrent : Crc32.checksum (rw.tornAt P sys d n m.info.actualSize) ≠ m.info.crcDigest :=
    fun hcrc => hkept ⟨hn, htells.current hcrc⟩
  have hlast : Crc32.checksum (rw.tornAt P sys d n m.info.lastActualSize) ≠ m.info.lastCRCDigest :=
    fun hcrc => hback ⟨htells.last hcrc, .inl ⟨hn, hcurrent⟩⟩
  have hcfits := hm.image.fits
  -- an empty region cannot be torn
  have hver : m.info.version = versionFlag := by
    rcases hm.image.current with hver | ⟨hblank, -⟩
    · exact hver
    · refine absurd ?_ hcurrent
      rw [hblank, Rewrite.tornAt, show blankMeta.actualSize = 0 from rfl, Disk.region_zero]
      generalize (rw.region sys).take _ = bytes
      have hnil : patch ([] : Bytes) 0 bytes = [] := List.length_eq_zero_iff.1 (length_patch ..)
      rw [hnil]
      decide
  obtain ⟨size, hwrites⟩ := h.writes
  obtain ⟨data', hbody, ht⟩ := Rewrite.apply_cut (h.base_data hm) (by omega) (resizeWrites _ size) hn
  have hlen := hbody.length
  rw [hwrites, ht]
  refine reopens_discarded (t := ⟨patch data' 4 _, d.crc⟩) hm.image.parse hver hm.image.bounded ?_ ?_ hbounded ?_ ?_ hro
    hrecover sys'
  · rw [length_patch]
    omega
  · rw [hbody.region_patch _ _ hcfits]
    exact hcurrent
  · rw [length_patch]
    omega
  · rw [hbody.region_patch _ _ hwhole]
    exact hlast

/-! ### Runs -/

/-- The instance stands for the model, and the meta names the last write-back, whose place lies in the file. -/
def Recorded (w : World) (s : Model) (last : Snapshot) : Prop :=
  ∃ m, Tracks w s m ∧ Confirmed m.crypt m.info last ∧ 4 + m.info.lastActualSize.toNat ≤ w.disk.data.length

theorem step_recorded {w : World} {s : Model} {a : Act} (h : Recorded w s last) (hok : a.OK P w) :
    Recorded (w.step P a) (s.step P a) (last.after w.disk (w.step P a).disk (s.step P a).content) := by
  obtain ⟨m, htracks, hlast, hwhole⟩ := h
  obtain ⟨m', h', hnext⟩ := step_tracks_last htracks hok
  refine ⟨m', h', ?_, ?_⟩
  · rw [← h'.content, MMKV.content, h'.synced.enableExpire]
    exact hlast.next (sequenceOf_image htracks.synced.image) h'.synced.image (hnext.imp_left And.left)
  · rcases hnext with ⟨⟨-, hkeep⟩, hlen⟩ | hconfirms
    · rw [KeepsLast] at hkeep
      rw [hkeep]
      exact hwhole.trans hlen
    · rw [hconfirms.lastActualSize]
      exact h'.synced.image.fits

/-- **A kill in the middle of a rewrite of a plaintext store.**  After any run, where a process is killed after the first
`n` stores of a call that rewrites the region: if the cut meets the condition, the files open without error, to the
map before the call, the map after it, or the map of the last completed write-back; if it does not, and no store of
the meta was made, they open to nothing. -/
theorem torn_rewrite_recovers {sys₀ : Sys} {acts : List Act} (hblank : Blank d) (hro : cfg.readOnly = false)
    (hacts : Along (Act.OK P) (World.step P) (World.start P cfg sys₀ d) acts) :
    let w := run (World.step P) (World.start P cfg sys₀ d) acts
    let s := run (Model.step P) ⟨.empty, cfg.crypt P, 0⟩ acts
    let last := lastWriteback World.disk Model.content (World.step P) (Model.step P) (World.start P cfg sys₀ d)
      ⟨.empty, cfg.crypt P, 0⟩ .empty acts
    s.crypt = none → ∀ m₀ op sys rw n, w.inst = .ok m₀ → (Act.call op sys).OK P w →
      rewriteOf P sys (m₀.checkLoadData w.disk sys) op = some rw →
      let mi := (m₀.checkLoadData w.disk sys).info
      let t := w.disk.apply ((m₀.exec P sys w.disk op).writes.take n)
      ∀ cfg' sys', cfg'.readOnly = false → cfg'.cryptKey = [] →
        (CutOK P sys w.disk mi last rw n → ∃ m', (World.start P cfg' sys' t).inst = .ok m' ∧
          (m'.content = s.content ∨ m'.content = (s.step P (.call op sys)).content ∨ m'.content = last.content)) ∧
        (¬ CutOK P sys w.disk mi last rw n → rw.metaStores P sys w.disk n = 0 → Telling P sys w.disk mi last rw n →
          cfg'.recover = false → ∃ m', (World.start P cfg' sys' t).inst = .ok m' ∧ m'.dict = ∅) := by
  have hinit : Recorded (World.start P cfg sys₀ d) ⟨.empty, cfg.crypt P, 0⟩ .empty := by
    have hstored : Stored (cfg.crypt P) d blankMeta ∅ := .inr ⟨hblank, rfl, rfl⟩
    obtain ⟨m, h, hinfo⟩ := tracks_start sys₀ hstored hro
    rw [OrdMap.lookup_empty] at h
    have hfits := h.synced.image.fits
    rw [hinfo] at hfits
    refine ⟨m, h, ?_, by rw [hinfo]; exact hfits⟩
    rw [hinfo]
    exact confirmed_blank m.crypt
  have hrecorded := logged_invariant (fun _ _ _ _ => step_recorded) hinit hacts
  intro w s last hplain m₀ op sys rw n hinst hok hop mi t cfg' sys' hro' hkey'
  have hcfg : cfg'.crypt P = none := by rw [Config.crypt, if_pos hkey']
  obtain ⟨m, h, hlast, hwhole⟩ := hrecorded
  obtain ⟨hsys, hcall⟩ := hok
  have hlt := (hcall m₀ hinst).2
  have hok : (Act.call op sys).OK P w := ⟨hsys, hcall⟩
  -- whether or not the cache was dropped, this is the call on `m`
  have hprobe : m₀.checkLoadData w.disk sys = m := h.checkLoadData hinst hsys.remap
  have hexec : (m₀.exec P sys w.disk op).writes = (m.exec P sys w.disk op).writes :=
    (h.exec hinst hsys.remap op).1
  simp only [mi, t, hprobe, hexec] at hop hlt ⊢
  have hrw : Rewrites P sys w.disk m op rw := rewrites_of_rewriteOf h.synced hsys hlt hop
  have hnone : m.crypt = none := h.crypt.trans hplain
  have himage := h.synced.image
  rw [hnone] at himage hlast
  have hcontent : (⟨OrdMap.lookup m.dict, m.info.expireEnabled⟩ : Content) = s.content := by
    rw [← h.content, MMKV.content, h.synced.enableExpire]
  refine ⟨?_, fun hcut hn htells hrecover => hrw.lost h.synced hwhole hlast.bounded hn htells hcut hro' hrecover sys'⟩
  rintro (⟨hn, hsame⟩ | ⟨hnames, hstays⟩ | ⟨hregion, hcut⟩)
  · obtain ⟨m', hm', hmap⟩ := (hrw.survives h.synced hn hsame).reopens himage hro' hcfg sys'
    exact ⟨m', hm', .inl (hmap.trans hcontent)⟩
  · -- the files after the whole call hold the map after it
    obtain ⟨m₁, h₁⟩ := step_tracks h hok
    have hdisk : (w.step P (.call op sys)).disk = w.disk.apply (m.exec P sys w.disk op).writes := by
      rw [World.step, hinst, ← hexec]
    have himage₁ := h₁.synced.image
    have hcrypt : m₁.crypt = none := by
      rw [h₁.crypt, Model.step, ← h.crypt, ← hrw.crypt]
      exact hstays
    rw [hcrypt, hdisk] at himage₁
    obtain ⟨mi', hdone⟩ := hrw.completes h.synced himage₁ hnames
    obtain ⟨m', hm', hmap⟩ := hdone.reopens himage₁ hro' hcfg sys'
    refine ⟨m', hm', .inr (.inl ?_)⟩
    rw [hmap, ← h₁.content, MMKV.content, h₁.synced.enableExpire]
  · obtain ⟨mi', hback⟩ := hrw.fallsBack h.synced hwhole hregion hcut
    obtain ⟨m', hm', hmap⟩ := hback.reopens hlast himage.bounded hro' hcfg sys'
    exact ⟨m', hm', .inr (.inr hmap)⟩

end Runs

/-! ### A write-back that is cut -/

/-- The files of a store of one key. -/
abbrev oneDisk : Disk := defaults.firstDisk linux calm [97] (.bool true)

/-- The instance that wrote them. -/
abbrev oneInst : MMKV := defaults.afterFirst linux calm [97] (.bool true)

/-- The one call that makes them. -/
def setOne : List Act := [.call (.set [97] (.bool true)) calm]

lemma run_setOne : run (World.step linux) (World.start linux defaults calm ⟨[], []⟩) setOne = ⟨oneDisk, .ok oneInst⟩ ∧
    Along (Act.OK linux) (World.step linux) (World.start linux defaults calm ⟨[], []⟩) setOne :=
  run_first_set rfl calm_ok [97] (.bool true) (by simp) (by decide)

lemma synced_oneInst : Synced oneDisk oneInst :=
  (first_set (P := linux) (show defaults.readOnly = false from rfl) calm_ok [97] (.bool true) (by simp) (by decide)).2.2

/-- The files and the instance after a second key was appended, and after a third. -/
def twoDisk : Disk := oneDisk.apply (oneInst.appendRaw (pairBytes [98] [1])).1

def twoInst : MMKV := oneInst.inPlace (oneInst.appendedInfo (pairBytes [98] [1])) (oneInst.dict.insert [98] [1])

def threeDisk : Disk := twoDisk.apply (twoInst.appendRaw (pairBytes [99] [1])).1

def threeInst : MMKV := twoInst.inPlace (twoInst.appendedInfo (pairBytes [99] [1])) (twoInst.dict.insert [99] [1])

/-- One key after the other; only the first is written back. -/
def setThree : List Act :=
  [.call (.set [97] (.bool true)) calm, .call (.set [98] (.bool true)) calm, .call (.set [99] (.bool true)) calm]

lemma step_two : World.step linux ⟨oneDisk, .ok oneInst⟩ (.call (.set [98] (.bool true)) calm) = ⟨twoDisk, .ok twoInst⟩ ∧
    (Act.call (.set [98] (.bool true)) calm).OK linux ⟨oneDisk, .ok oneInst⟩ ∧ Synced twoDisk twoInst :=
  append_set synced_oneInst calm_ok (by simp) rfl (by decide +kernel) (by decide +kernel) (by decide +kernel)
    (by decide +kernel)

lemma step_three : World.step linux ⟨twoDisk, .ok twoInst⟩ (.call (.set [99] (.bool true)) calm) =
      ⟨threeDisk, .ok threeInst⟩ ∧
    (Act.call (.set [99] (.bool true)) calm).OK linux ⟨twoDisk, .ok twoInst⟩ ∧ Synced threeDisk threeInst :=
  append_set step_two.2.2 calm_ok (by simp) rfl (by decide +kernel) (by decide +kernel) (by decide +kernel)
    (by decide +kernel)

lemma run_setThree :
    run (World.step linux) (World.start linux defaults calm ⟨[], []⟩) setThree = ⟨threeDisk, .ok threeInst⟩ ∧
      Along (Act.OK linux) (World.step linux) (World.start linux defaults calm ⟨[], []⟩) setThree := by
  obtain ⟨hone, hok, -⟩ := run_setOne
  rw [setOne, run_cons, run_nil] at hone
  rw [setThree, run_cons, hone, run_cons, step_two.1, run_cons, step_three.1]
  refine ⟨rfl, hok, ?_, ?_, trivial⟩
  · rw [hone]
    exact step_two.2.1
  · rw [hone, step_two.1]
    exact step_three.2.1

lemma region_setThree : (lastWriteback World.disk Model.content (World.step linux) (Model.step linux)
    (World.start linux defaults calm ⟨[], []⟩) ⟨.empty, defaults.crypt linux, 0⟩ .empty setThree).region =
      currentRegion oneDisk := by
  obtain ⟨hone, -⟩ := run_setOne
  rw [setOne, run_cons, run_nil] at hone
  have hfirst : ¬ sequenceOf oneDisk = sequenceOf (World.start linux defaults calm ⟨[], []⟩).disk := by
    rw [start_absent (show defaults.readOnly = false from rfl), sequenceOf_image synced_oneInst.image,
      sequenceOf_image (image_freshDisk linux none)]
    decide +kernel
  -- an append leaves the sequence number
  have hkeep : ∀ (m : MMKV) (pair : Bytes) (dict : Dict),
      (m.inPlace (m.appendedInfo pair) dict).info.sequence = m.info.sequence := fun _ _ _ => rfl
  have hsecond : sequenceOf twoDisk = sequenceOf oneDisk := by
    rw [sequenceOf_image step_two.2.2.image, sequenceOf_image synced_oneInst.image]
    exact hkeep ..
  have hthird : sequenceOf threeDisk = sequenceOf twoDisk := by
    rw [sequenceOf_image step_three.2.2.image, sequenceOf_image step_two.2.2.image]
    exact hkeep ..
  simp only [lastWriteback, setThree, run_cons, run_nil, Logged.step, hone, step_two.1, step_three.1, Snapshot.after,
    if_neg hfirst, if_pos hsecond, if_pos hthird]

/-- The removal of the second key writes the first and the third back, the third over the second.  Where it is killed in
the middle of that pair, the current region is torn, and the next open finds the first key, as the last write-back
left it. -/
theorem torn_tail_recovers :
    let w := run (World.step linux) (World.start linux defaults calm ⟨[], []⟩) setThree
    let s := run (Model.step linux) ⟨.empty, defaults.crypt linux, 0⟩ setThree
    let last := lastWriteback World.disk Model.content (World.step linux) (Model.step linux)
      (World.start linux defaults calm ⟨[], []⟩) ⟨.empty, defaults.crypt linux, 0⟩ .empty setThree
    ∃ m, w.inst = .ok m ∧
      let t := w.disk.apply ((m.exec linux calm w.disk (.removeValuesForKeys [[98]])).writes.take 14)
      ∃ m', (World.start linux defaults calm t).inst = .ok m' ∧
        (m'.content = s.content ∨ m'.content = (s.step linux (.call (.removeValuesForKeys [[98]]) calm)).content ∨
          m'.content = last.content) := by
  obtain ⟨hrun, hacts⟩ := run_setThree
  have hsynced := step_three.2.2
  have hrecovers := torn_rewrite_recovers blank_absent (show defaults.readOnly = false from rfl) hacts
  have hregion := region_setThree
  rw [hrun] at hrecovers ⊢
  let m₁ : MMKV := { threeInst with dict := [[98]].foldl (fun dict k => dict.erase k) threeInst.dict }
  have hdata : ∀ (m : MMKV) (dict : Dict), ({ m with dict := dict } : MMKV).data = m.data := fun _ _ => rfl
  have habsent : ¬ ([[98]].all fun k => !threeInst.dict.contains k) = true := by decide +kernel
  have hprobe : threeInst.checkLoadData threeDisk calm = threeInst := MMKV.checkLoadData_of_synced hsynced
  have hop : rewriteOf linux calm (threeInst.checkLoadData threeDisk calm) (.removeValuesForKeys [[98]]) =
      some (.writeback m₁ true 0) := by
    rw [hprobe, rewriteOf, if_neg habsent]
  have hok : (Act.call (.removeValuesForKeys [[98]]) calm).OK linux ⟨threeDisk, .ok threeInst⟩ := by
    refine ⟨calm_ok, fun m hm => ?_⟩
    cases hm
    refine ⟨trivial, ?_⟩
    rw [hprobe]
    decide +kernel
  refine ⟨_, rfl, (hrecovers rfl threeInst _ calm _ 14 rfl hok hop defaults calm rfl rfl).1 (.inr (.inr ⟨?_, .inl ⟨?_, ?_⟩⟩))⟩
  · rw [hregion, hprobe]
    decide +kernel
  · decide +kernel
  · rw [hprobe]
    decide +kernel

/-! ### An override that is cut -/

lemma writes_override : (oneInst.exec linux calm oneDisk (.set [97] (.bool false))).writes =
    dataWrites 4 (itemSizeHolderBytes ++ pairBytes [97] [0]) ++
      MMKV.metaWords (oneInst.overriddenInfo (pairBytes [97] [0])).crcDigest
        (oneInst.overriddenInfo (pairBytes [97] [0])).actualSize := by
  have hover : oneInst.overrides [97] (pairBytes [97] (Value.bool false).blob) = true := by decide +kernel
  exact congrArg Result.writes (MMKV.exec_set_of_overrides synced_oneInst rfl (by decide +kernel) hover (by decide))

lemma apply_override {n : ℕ} (hn : n ≤ 8) :
    oneDisk.apply ((oneInst.exec linux calm oneDisk (.set [97] (.bool false))).writes.take n) =
      { oneDisk with data := patch oneDisk.data 4 ((itemSizeHolderBytes ++ pairBytes [97] [0]).take n) } := by
  have hlen : (itemSizeHolderBytes ++ pairBytes [97] [0]).length = 8 := by decide
  rw [writes_override, List.take_append_of_le_length (by rw [length_dataWrites, hlen]; exact hn), take_dataWrites,
    Disk.apply_dataWrites]

/-- A kill after the region bytes and before the meta words: neither CRC is that of the region, and the open discards the
map, which is none of the three. -/
theorem override_kill_loses_map :
    let w := run (World.step linux) (World.start linux defaults calm ⟨[], []⟩) setOne
    let s := run (Model.step linux) ⟨.empty, defaults.crypt linux, 0⟩ setOne
    let last := lastWriteback World.disk Model.content (World.step linux) (Model.step linux)
      (World.start linux defaults calm ⟨[], []⟩) ⟨.empty, defaults.crypt linux, 0⟩ .empty setOne
    ∃ m, w.inst = .ok m ∧
      (∃ m', (World.start linux defaults calm
          (w.disk.apply ((m.exec linux calm w.disk (.set [97] (.bool false))).writes.take 8))).inst = .ok m' ∧
        m'.content.slots [97] = none) ∧
      s.content.slots [97] = some [1] ∧
      (s.step linux (.call (.set [97] (.bool false)) calm)).content.slots [97] = some [0] ∧
      last.content.slots [97] = some [1] := by
  obtain ⟨hrun, -⟩ := run_setOne
  have hsynced := synced_oneInst
  have hlast : (lastWriteback World.disk Model.content (World.step linux) (Model.step linux)
      (World.start linux defaults calm ⟨[], []⟩) ⟨.empty, defaults.crypt linux, 0⟩ .empty setOne).content.slots [97] =
        some [1] := by
    have hstep := hrun
    rw [setOne, run_cons, run_nil] at hstep
    have hnew : ¬ sequenceOf oneDisk = sequenceOf (freshDisk linux) := by
      rw [sequenceOf_image hsynced.image, sequenceOf_image (image_freshDisk linux none)]
      decide +kernel
    rw [lastWriteback, setOne, run_cons, run_nil, Logged.step]
    simp only [hstep]
    rw [start_absent (show defaults.readOnly = false from rfl), Snapshot.after, if_neg hnew]
    decide
  have hfits : 4 + oneInst.info.actualSize.toNat ≤ oneDisk.data.length := hsynced.image.fits
  have hbounded := hsynced.image.bounded
  have hlen : (patch oneDisk.data 4 (itemSizeHolderBytes ++ pairBytes [97] [0])).length = oneDisk.data.length :=
    length_patch ..
  have hcrc : Crc32.checksum (({ oneDisk with data := patch oneDisk.data 4 (itemSizeHolderBytes ++ pairBytes [97] [0]) } :
      Disk).region oneInst.info.actualSize) ≠ oneInst.info.crcDigest := by decide +kernel
  obtain ⟨m', hm', hempty⟩ := reopens_discarded (P := linux) (t := { oneDisk with data := patch oneDisk.data 4 _ })
    hsynced.image.parse rfl hbounded (by rw [hlen]; exact hfits) hcrc hbounded (by rw [hlen]; exact hfits) hcrc
    (show defaults.readOnly = false from rfl) rfl calm
  rw [hrun]
  refine ⟨_, rfl, ⟨m', ?_, ?_⟩, by decide +kernel, by decide +kernel, hlast⟩
  · rw [← hm', apply_override le_rfl]
    rfl
  · rw [MMKV.content, hempty, OrdMap.lookup_empty]

end MmkvGo.Crash
