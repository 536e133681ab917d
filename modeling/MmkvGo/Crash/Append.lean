import MmkvGo.Crash.Torn
import MmkvGo.Multi.Linear

/-!
A process that is killed while it appends a pair to a plaintext store of several processes.  No path of multi-process mode
stores into the region, so the bytes of the last write-back are still its start (`Standing`); the stores of an append
are the pair, the CRC word and the size word, and wherever they are cut, the next open finds the map before the
call, the one after it, or the one of the last write-back (`torn_append_recovers`).
-/

namespace MmkvGo.Crash

open MmkvGo.Lib MmkvGo.Wire MmkvGo.Crypt MmkvGo.Store MmkvGo.Multi Std

/-- The bytes of the last write-back are the start of the region. -/
structure Standing (d : Disk) (mi : MetaInfo) (s : Snapshot) : Prop where
  region : d.region mi.lastActualSize = s.region
  le : mi.lastActualSize.toNat ≤ mi.actualSize.toNat

/-! ### Where an append is cut -/

section Cut

variable {P : Platform} {cfg : Config} {d : Disk} {m : MMKV} {s : Snapshot}

lemma apply_cut_appendRaw (d : Disk) (m : MMKV) {pair : Bytes} {n : ℕ} (hn : n < (m.appendRaw pair).1.length) :
    d.apply ((m.appendRaw pair).1.take n) =
        { d with data := patch d.data (4 + m.actualSize.toNat) (pair.take n) } ∨
      d.apply ((m.appendRaw pair).1.take n) =
        ⟨patch d.data (4 + m.actualSize.toNat) pair, putUint32 d.crc offCRC (m.appendedInfo pair).crcDigest⟩ := by
  have hstores : (m.appendRaw pair).1 = dataWrites (4 + m.actualSize.toNat) pair ++
      [.word offCRC (m.appendedInfo pair).crcDigest, .word offActualSize (m.appendedInfo pair).actualSize] := rfl
  have hle : n ≤ pair.length ∨ n = pair.length + 1 := by
    rw [hstores, List.length_append, length_dataWrites, List.length_cons, List.length_singleton] at hn
    omega
  rw [hstores, List.take_append, length_dataWrites]
  rcases hle with hle | rfl
  · left
    rw [Nat.sub_eq_zero_of_le hle, List.take_zero, List.append_nil, take_dataWrites, Disk.apply_dataWrites]
  · right
    rw [List.take_of_length_le (by simp), Nat.add_sub_cancel_left, Disk.apply_append, Disk.apply_dataWrites]
    rfl

lemma apply_take_appendRaw (d : Disk) (m : MMKV) (pair : Bytes) (n : ℕ) :
    d.apply ((m.appendRaw pair).1.take n) =
        { d with data := patch d.data (4 + m.actualSize.toNat) (pair.take n) } ∨
      d.apply ((m.appendRaw pair).1.take n) =
        ⟨patch d.data (4 + m.actualSize.toNat) pair, putUint32 d.crc offCRC (m.appendedInfo pair).crcDigest⟩ ∨
      d.apply ((m.appendRaw pair).1.take n) = d.apply (m.appendRaw pair).1 := by
  rcases Nat.lt_or_ge n (m.appendRaw pair).1.length with hn | hn
  · exact (apply_cut_appendRaw d m hn).imp_right .inl
  · exact .inr (.inr (by rw [List.take_of_length_le hn]))

lemma region_patch_tail (h : Synced d m) (bs crc : Bytes) {size : UInt32} (hle : size.toNat ≤ m.info.actualSize.toNat) :
    (⟨patch d.data (4 + m.actualSize.toNat) bs, crc⟩ : Disk).region size = d.region size := by
  rw [h.actualSize]
  exact slice_patch_of_le bs (by omega)

lemma reopens_patched_tail (h : Synced d m) (hpos : 0 < m.info.actualSize) (hro : cfg.readOnly = false)
    (hkey : cfg.crypt P = m.crypt) {crc : Bytes} (hparse : parseMeta crc = .ok m.info) (bs : Bytes) (sys : Sys) :
    ∃ m', (World.start P cfg sys ⟨patch d.data (4 + m.actualSize.toNat) bs, crc⟩).inst = .ok m' ∧
      m'.content = m.content := by
  have hregion := region_patch_tail h bs crc (Nat.le_refl m.info.actualSize.toNat)
  have hver : m.info.version = versionFlag := h.image.version_eq hpos
  have hreadable : Readable (⟨patch d.data (4 + m.actualSize.toNat) bs, crc⟩ : Disk) m.info :=
    ⟨hparse, .inl hver, by rw [length_patch]; exact h.image.fits, h.image.bounded, by rw [hregion, h.image.crc]⟩
  obtain ⟨m', hm', hmap⟩ := reopens_current hreadable hro (by rw [hregion, hkey]; exact h.image.decoded) sys
  refine ⟨m', hm', hmap.trans ?_⟩
  rw [MMKV.content, h.enableExpire]

/-- **A cut append, on an instance that agrees with its files**: unless everything was stored, the open finds the map
before the append, or that of the last write-back. -/
theorem torn_append (h : Synced d m) (hcrypt : m.crypt = none) (hpos : 0 < m.info.actualSize)
    (hlast : Confirmed none m.info s) (hstanding : Standing d m.info s) (hro : cfg.readOnly = false)
    (hkey : cfg.crypt P = none) (pair : Bytes) (n : ℕ) (sys : Sys) :
    d.apply ((m.appendRaw pair).1.take n) = d.apply (m.appendRaw pair).1 ∨
      ∃ m', (World.start P cfg sys (d.apply ((m.appendRaw pair).1.take n))).inst = .ok m' ∧
        (m'.content = m.content ∨ m'.content = s.content) := by
  have hfits := h.image.fits
  have hkey' : cfg.crypt P = m.crypt := hkey.trans hcrypt.symm
  rcases apply_take_appendRaw d m pair n with ht | ht | ht
  · rw [ht]
    obtain ⟨m', hm', hmap⟩ := reopens_patched_tail h hpos hro hkey' h.image.parse (pair.take n) sys
    exact .inr ⟨m', hm', .inl hmap⟩
  · refine .inr ?_
    rw [ht]
    have hparse := parseMeta_putUint32_crc h.image.parse (m.appendedInfo pair).crcDigest
    generalize (m.appendedInfo pair).crcDigest = crc at hparse ⊢
    by_cases hsame : crc = m.info.crcDigest
    · -- the new CRC is the old one, and the current snapshot is the old one
      subst hsame
      obtain ⟨m', hm', hmap⟩ := reopens_patched_tail h hpos hro hkey' hparse pair sys
      exact ⟨m', hm', .inl hmap⟩
    · -- the new CRC is not that of the old size, so the last-confirmed snapshot is taken
      have hle := hstanding.le
      have hlen : (patch d.data (4 + m.actualSize.toNat) pair).length = d.data.length := length_patch ..
      have hconfirmed : Confirmed (cfg.crypt P) { m.info with crcDigest := crc } s := by
        rw [hkey]
        exact hlast.congr rfl rfl rfl
      obtain ⟨m', hm', hmap⟩ := reopens_last
        (t := ⟨patch d.data (4 + m.actualSize.toNat) pair, putUint32 d.crc offCRC crc⟩) hparse
        (.inl (h.image.version_eq hpos)) h.image.bounded (by rw [hlen]; exact hfits)
        (by rw [region_patch_tail h _ _ le_rfl, h.image.crc]; exact fun he => hsame he.symm) hro hconfirmed
        (by rw [hlen]; exact Nat.le_trans (Nat.add_le_add_left hle 4) hfits)
        (by rw [region_patch_tail h _ _ hle]; exact hstanding.region) sys
      exact ⟨m', hm', .inr hmap⟩
  · exact .inl ht

end Cut

/-! ### Runs -/

section Runs

variable {ι : Type} [DecidableEq ι] {P : Platform}

/-- The call takes the append path, on the instance as it is after the freshness probe. -/
def Appends (sys : Sys) (m : MMKV) : Op → Prop
  | .set key v => m.appends (pairBytes key
      (if m.enableExpire then MMKV.appendExpire sys v.blob m.expiredSeconds else v.blob)) = true
  | .removeValueForKey key => m.dict.contains key = true ∧
      ({ m with dict := m.dict.erase key } : MMKV).appendsTombstone (pairBytes key []) = true
  | _ => False

omit [DecidableEq ι] in
lemma Appends.accesses {sys : Sys} {m : MMKV} {op : Op} (happends : Appends sys m op) : Multi.accesses op = true := by
  cases op with
  | set key v | removeValueForKey key => rfl
  | _ => cases happends

omit [DecidableEq ι] in
/-- What a call on the append path stores: a pair after the region, or nothing because the key has the value already. -/
lemma Appends.writes {sys : Sys} {d : Disk} {m : MMKV} {op : Op} (happends : Appends sys m op) (h : Synced d m)
    (hmulti : m.multiProcess = true) :
    0 < m.info.actualSize ∧ ((m.exec P sys d op).writes = [] ∨
      ∃ pair, (m.exec P sys d op).writes = (m.appendRaw pair).1) := by
  cases op with
  | set key v =>
    refine ⟨(MMKV.appends_of_steady h.steady happends).2.1, ?_⟩
    rw [MMKV.exec, MMKV.mutate_of_synced h, MMKV.setValueLocked]
    split
    · exact .inl rfl
    · rw [MMKV.setBlob_of_appends h.data (by simp [MMKV.overrides, hmulti]) happends]
      exact .inr ⟨_, rfl⟩
  | removeValueForKey key =>
    obtain ⟨hc, htomb⟩ := happends
    have hpos := (MMKV.of_appendsTombstone htomb).2
    refine ⟨by rw [← h.actualSize]; exact hpos, .inr ⟨pairBytes key [], ?_⟩⟩
    rw [MMKV.exec, MMKV.mutate_of_synced h, MMKV.removeValueForKey]
    simp only [hc, Bool.not_true, Bool.false_eq_true, if_false, htomb, if_true]
    rfl
  | _ => cases happends

/-- The meta names the snapshot of the last write-back, which stands in the files. -/
def Backed (P : Platform) (w : Cluster ι) (s : Board ι) (last : Snapshot) : Prop :=
  (∃ mi dict, Served P none w s mi dict ∧ Confirmed none mi last ∧ Standing w.disk mi last) ∧
    w.restored = false ∧ ∀ j m, w.inst j = some m → w.behind j < 2 ^ 32

/-- Where the files grow by appends, the bytes of the last write-back stay the start of the region. -/
theorem Standing.evolves {crypt : Option Cipher} {d d' : Disk} {mi mi' : MetaInfo} {dict : Dict} {s : Snapshot}
    (h : Standing d mi s) (hseq : sequenceOf d = mi.sequence) (himage : Image crypt d' mi' dict)
    (hev : Evolves true d mi d' mi') (c : Content) : Standing d' mi' (s.after d d' c) := by
  rw [Snapshot.after, sequenceOf_image himage, hseq]
  cases hev with
  | unchanged hd hmi =>
    subst hd hmi
    rw [if_pos rfl]
    exact h
  | appended pair hpair hdata hroom hsize hmi =>
    have hle := h.le
    have hlast : mi'.lastActualSize = mi.lastActualSize := by rw [hmi]
    rw [if_pos (by rw [hmi])]
    refine ⟨?_, by rw [hlast]; omega⟩
    rw [hlast, ← h.region, Disk.region, hdata]
    exact slice_patch_of_le pair (by omega)
  | overridden hsingle _ _ => cases hsingle
  | rewritten hnew hsize hcrc =>
    rw [hnew, if_neg (by simp)]
    refine ⟨?_, by rw [hsize]⟩
    rw [hsize, currentRegion, himage.parse]

lemma Snapshot.after_self (s : Snapshot) (d : Disk) (c : Content) : s.after d d c = s := if_pos rfl

/-- Opening the files adds zeros at their ends, which no snapshot reaches. -/
lemma Standing.opened {crypt : Option Cipher} {d : Disk} {mi : MetaInfo} {dict : Dict} {s : Snapshot}
    (h : Standing d mi s) (hstored : Stored crypt d mi dict) (cfg : Config) :
    Standing (d.apply (cfg.openStores P d)) mi s := by
  refine ⟨?_, h.le⟩
  rw [← h.region]
  rcases hstored with himage | ⟨-, rfl, -⟩
  · have hfits := himage.fits
    have hle := h.le
    obtain ⟨a, -, hdata, -⟩ := cfg.apply_openStores P d
    exact Disk.region_append hdata (by omega)
  · rw [show blankMeta.lastActualSize = 0 from rfl, Disk.region_zero, Disk.region_zero]

/-- **One step of whichever process** keeps the last write-back in place, or makes a new one. -/
theorem step_backed {w : Cluster ι} {s : Board ι} {last : Snapshot} {a : Move ι} (h : Backed P w s last)
    (hplain : a.Plain P w) :
    Backed P (w.step P a) (s.step a) (last.after w.disk (w.step P a).disk (s.step a).content) := by
  obtain ⟨⟨mi, dict, hserved, hlast, hstanding⟩, hr, hbehind⟩ := h
  have hok := hplain.ok hserved hr hbehind
  have hseq := hserved.stored.sequenceOf_eq
  refine ⟨?_, (restored_step hplain).trans hr, hplain.1⟩
  -- a step that leaves the files alone
  have hsame : ∀ {w' : Cluster ι} {s' : Board ι}, w'.disk = w.disk → Served P none w' s' mi dict →
      ∃ mi dict, Served P none w' s' mi dict ∧ Confirmed none mi (last.after w.disk w'.disk s'.content) ∧
        Standing w'.disk mi (last.after w.disk w'.disk s'.content) := by
    intro w' s' hdisk h'
    rw [hdisk, Snapshot.after_self]
    exact ⟨mi, dict, h', hlast, hstanding⟩
  cases a with
  | close i => exact hsame rfl (step_close hserved)
  | read i sys =>
    obtain ⟨m, hm⟩ := hplain.2.2
    exact hsame (by rw [Cluster.step, hm]; rfl) (step_read hserved hok)
  | backup | restore i => cases hplain.2
  | start i cfg sys =>
    have h' := step_start hserved hok
    obtain ⟨hstep, -⟩ := hserved.opened hok
    have hafter : last.after w.disk (w.step P (.start i cfg sys)).disk (s.step (.start i cfg sys)).content = last :=
      if_pos (by rw [h'.stored.sequenceOf_eq, hseq])
    rw [hafter]
    exact ⟨mi, dict, h', hlast, by rw [hstep]; exact hstanding.opened hserved.stored cfg⟩
  | call i op sys =>
    obtain ⟨-, -, -, m, hm, -⟩ := id hok
    cases hop : accesses op with
    | false =>
      have hwrites := ((hserved.follows i m hm).setting hop P sys).1
      exact hsame (by rw [Cluster.step_call_eq P hm, hwrites]; rfl) (step_setting hserved hop hok)
    | true =>
      obtain ⟨mi', dict', h', hev⟩ := step_call hserved hop hok
      have himage := (h'.holds i _ (by rw [Cluster.step_call_eq P hm, Cluster.put_inst_self])).1
      refine ⟨mi', dict', h', ?_, hstanding.evolves hseq himage hev _⟩
      rw [h'.content]
      exact hlast.next hseq himage (hev.last.imp_left fun hkeep => ⟨rfl, hkeep.1⟩)

omit [DecidableEq ι] in
lemma backed_init {d : Disk} (hblank : Blank d) : Backed P (Cluster.init d : Cluster ι) (Board.init .empty) .empty := by
  have hempty : (Content.empty : Content) = ⟨OrdMap.lookup (∅ : Dict), blankMeta.expireEnabled⟩ := by
    rw [OrdMap.lookup_empty]
    rfl
  refine ⟨⟨blankMeta, ∅, ?_, confirmed_blank none, Disk.region_zero d, le_rfl⟩, rfl, fun _ _ _ => by simp [Cluster.init]⟩
  rw [hempty]
  exact served_init (.inr ⟨hblank, rfl, rfl⟩)

/-- **A torn append is recovered.**  After any run of any number of processes, a process that is killed in the middle of a
call on the append path, whose region stays below 4 GiB, leaves files that open without error, to the map before the
call, the map after it, or the map of the last completed write-back. -/
theorem torn_append_recovers {d : Disk} {acts : List (Move ι)} (hblank : Blank d)
    (hacts : Along (Move.Plain P) (Cluster.step P) (Cluster.init d) acts) :
    let w := run (Cluster.step P) (Cluster.init d) acts
    let board := run Board.step (Board.init .empty) acts
    let last := lastWriteback Cluster.disk Board.content (Cluster.step P) Board.step (Cluster.init d)
      (Board.init .empty) .empty acts
    ∀ i m sys op, w.inst i = some m → sys.OK → (∀ v, op ≠ .set [] v) → Appends sys (m.checkLoadData w.disk sys) op →
      4 + (op.regionAfter sys w.disk (m.checkLoadData w.disk sys)).length < 2 ^ 32 →
      ∀ n cfg sys', cfg.readOnly = false → cfg.cryptKey = [] →
        ∃ m', (World.start P cfg sys' (w.disk.apply ((m.exec P sys w.disk op).writes.take n))).inst = .ok m' ∧
          (m'.content = board.content ∨ m'.content = board.content.after sys (board.seconds i) op ∨
            m'.content = last.content) := by
  obtain ⟨⟨mi, dict, hserved, hlast, hstanding⟩, hr, hbehind⟩ :=
    logged_invariant (fun _ _ _ _ => step_backed) (backed_init hblank) hacts
  intro w board last i m sys op hm hsys hkey happends hlt n cfg sys' hro hplain
  have hcfg : cfg.crypt P = none := by rw [Config.crypt, if_pos hplain]
  have htells := tells_of_behind hserved hr (hbehind i)
  have hup := hserved.upToDate hm htells hsys.remap
  obtain ⟨hcontent, hseconds, -⟩ := hserved.serves hm htells hsys.remap
  have haccess := happends.accesses
  cases hwritable : m.readOnly with
  | true =>
    rw [exec_of_readOnly sys w.disk (hserved.follows i m hm).toShared hwritable haccess, List.take_nil]
    obtain ⟨m', hm', hmap⟩ := hup.synced.reopens_content hro (hcfg.trans hup.crypt.symm) sys' hcontent
    exact ⟨m', hm', .inl hmap⟩
  | false =>
  have hsynced := hup.synced_of_writable hwritable
  obtain ⟨hpos, hwrites⟩ := happends.writes (P := P) hsynced hup.multiProcess
  rw [exec_of_accesses (hserved.follows i m hm).toShared hwritable hsynced haccess]
  have hmi := hup.info
  have hnone := hup.crypt
  generalize m.checkLoadData w.disk sys = m₁ at *
  rw [← hmi] at hlast hstanding
  -- what the files hold when nothing was cut
  have hwhole : ∃ m', (World.start P cfg sys' (w.disk.apply (m₁.exec P sys w.disk op).writes)).inst = .ok m' ∧
      m'.content = board.content.after sys (board.seconds i) op := by
    have heffect := exec_effect (P := P) hsynced hsys (Op.good_of_plaintext hkey hnone) hlt (by rintro rfl; cases haccess)
    have hcrypt : cfg.crypt P = (m₁.exec P sys w.disk op).m.crypt := by
      rw [hcfg, heffect.crypt, hnone]
      cases op with
      | reKey newKey => cases happends
      | _ => rfl
    exact heffect.synced.reopens_content hro hcrypt sys' (by rw [heffect.content, hcontent, hseconds])
  rcases hwrites with he | ⟨pair, he⟩
  · rw [he, List.take_nil]
    rw [he] at hwhole
    obtain ⟨m', hm', hmap⟩ := hwhole
    exact ⟨m', hm', .inr (.inl hmap)⟩
  · rw [he] at hwhole ⊢
    rcases torn_append hsynced hnone hpos hlast hstanding hro hcfg pair n sys' with ht | ⟨m', hm', hmap⟩
    · rw [ht]
      obtain ⟨m', hm', hmap⟩ := hwhole
      exact ⟨m', hm', .inr (.inl hmap)⟩
    · rw [hcontent] at hmap
      exact ⟨m', hm', hmap.imp_right .inr⟩

end Runs

/-! ### Two processes -/

lemma appends_afterFirst (key : Bytes) (h : (shared.afterFirst linux calm [97] (.bool true)).appends (pairBytes key [1]) =
    true) : Appends calm ((shared.afterFirst linux calm [97] (.bool true)).checkLoadData
      (shared.firstDisk linux calm [97] (.bool true)) calm) (.set key (.bool true)) := by
  rw [MMKV.checkLoadData_of_synced set_bothOpen.2]
  exact h

lemma appendB_bounded : 4 + ((Op.set [98] (.bool true)).regionAfter calm afterSet.disk
    ((shared.afterFirst linux calm [97] (.bool true)).checkLoadData afterSet.disk calm)).length < 2 ^ 32 := by
  decide +kernel

/-- The first process is killed in the middle of the pair it appends. -/
theorem openBothAndSet_torn :
    let w := run (Cluster.step linux) (Cluster.init ⟨[], []⟩) openBothAndSet
    let board := run Board.step (Board.init .empty) openBothAndSet
    let last := lastWriteback Cluster.disk Board.content (Cluster.step linux) Board.step (Cluster.init ⟨[], []⟩)
      (Board.init .empty) .empty openBothAndSet
    ∃ m, w.inst true = some m ∧
      ∃ m', (World.start linux defaults calm
          (w.disk.apply ((m.exec linux calm w.disk (.set [98] (.bool true))).writes.take 2))).inst = .ok m' ∧
        (m'.content = board.content ∨
          m'.content = board.content.after calm (board.seconds true) (.set [98] (.bool true)) ∨
          m'.content = last.content) := by
  have hkey : ∀ v, Op.set [98] (.bool true) ≠ .set [] v := by simp
  have hrecovers := torn_append_recovers blank_absent openBothAndSet_plain
  rw [run_openBothAndSet] at hrecovers ⊢
  have hinst : afterSet.inst true = some (shared.afterFirst linux calm [97] (.bool true)) := rfl
  exact ⟨_, hinst, hrecovers true _ calm _ hinst calm_ok hkey (appends_afterFirst [98] (by decide +kernel))
    appendB_bounded 2 defaults calm rfl rfl⟩

/-- The first process appends the empty key and is killed after all its stores: the files cannot be opened. -/
theorem emptyKey_append_not_recovered :
    let w := run (Cluster.step linux) (Cluster.init ⟨[], []⟩) openBothAndSet
    ∃ m, w.inst true = some m ∧ Appends calm (m.checkLoadData w.disk calm) (.set [] (.bool true)) ∧
      ∃ n, (World.start linux defaults calm
        (w.disk.apply ((m.exec linux calm w.disk (.set [] (.bool true))).writes.take n))).inst =
          .error .unexpectedEOF := by
  obtain ⟨hexec, hsealed, hparse⟩ := append_emptyKey (show shared = _ from rfl)
  have happends := appends_afterFirst [] (by decide +kernel)
  have hopen : openMMKV linux calm defaults _ = _ := openMMKV_error hsealed.readable rfl hparse
  have hdisk : afterSet.disk = shared.firstDisk linux calm [97] (.bool true) := rfl
  have hinst : afterSet.inst true = some (shared.afterFirst linux calm [97] (.bool true)) := rfl
  rw [run_openBothAndSet]
  intro w
  rw [show w.disk = _ from hdisk]
  refine ⟨_, hinst, happends, ((shared.afterFirst linux calm [97] (.bool true)).appendRaw (pairBytes [] [1])).1.length, ?_⟩
  rw [hexec, List.take_length, World.start, hopen]

end MmkvGo.Crash
