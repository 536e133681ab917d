import MmkvGo.Multi.Linear

/-!
Backups and restores.  A restore puts an older sequence number back, and only the restoring process tells its own
instance to load; the others must notice by themselves.  They do as long as something tells them of what they
missed: a sequence number they do not hold, or another size or CRC seen through a mapping of the whole file.
Write-backs after a restore can lead to a sequence number that another process holds from before it, with a file of
another size, and then it loads through a mapping that is too short.
-/

namespace MmkvGo.Multi

open MmkvGo.Lib MmkvGo.Wire MmkvGo.Crypt MmkvGo.Store Std

section Restore

variable {ι : Type} [DecidableEq ι] {P : Platform} {crypt : Option Cipher}

/-- **Freshness survives restores**, where the instances are told of what they missed.  After any interleaving of calls,
reads, backups and restores, the next access of an instance serves the one map, and its next set, if it is open for
writing, keeps every other key of it, in memory and in the files. -/
theorem restore_keeps_freshness {d : Disk} {mi : MetaInfo} {dict : Dict} {acts : List (Move ι)}
    (hstored : Stored crypt d mi dict) (hacts : Along (Move.OK P crypt) (Cluster.step P) (Cluster.init d) acts) :
    let w := run (Cluster.step P) (Cluster.init d) acts
    let board := run Board.step (Board.init ⟨OrdMap.lookup dict, mi.expireEnabled⟩) acts
    ∃ dict', OrdMap.lookup dict' = board.content.slots ∧ ∀ i m sys, w.inst i = some m → w.Tells i → sys.OK →
      (m.checkLoadData w.disk sys).content = board.content ∧
      (∀ (α : Type) (getter : View → α) (zero : α),
        (m.get sys w.disk getter zero).2 = getter ⟨dict', board.content.expire, sys.now⟩) ∧
      (m.readOnly = false → ∀ key v, key ≠ [] →
        4 + ((Op.set key v).regionAfter sys w.disk (m.checkLoadData w.disk sys)).length < 2 ^ 32 →
        let r := m.exec P sys w.disk (.set key v)
        let after := board.content.after sys (board.seconds i) (.set key v)
        r.err = none ∧ r.m.content = after ∧ ∀ cfg sys', cfg.readOnly = false → cfg.crypt P = crypt →
          ∃ m', (World.start P cfg sys' (w.disk.apply r.writes)).inst = .ok m' ∧ m'.content = after) := by
  intro w board
  obtain ⟨mi', dict', h⟩ : ∃ mi' dict', Served P crypt w board mi' dict' := by
    refine hacts.simulation (R := fun w s => ∃ mi dict, Served P crypt w s mi dict) ?_ ⟨mi, dict, served_init hstored⟩
    rintro w s a ⟨mi, dict, h⟩ hok
    exact step_served h hok
  refine ⟨dict', by rw [h.content], fun i m sys hm htells hsys => ?_⟩
  obtain ⟨hcontent, hseconds, hget⟩ := h.serves hm htells hsys.remap
  refine ⟨hcontent, hget, fun hwritable key v hk hlt => ?_⟩
  have heffect := h.exec_effect hm htells hsys hwritable (show (Op.set key v).Good _ from hk) hlt rfl
  have hafter := heffect.content
  rw [hcontent, hseconds] at hafter
  refine ⟨heffect.err, hafter, fun cfg sys' hro hkey => ?_⟩
  have hcrypt := (h.upToDate hm htells hsys.remap).crypt
  exact heffect.synced.reopens_content hro (hkey.trans (hcrypt.symm.trans heffect.crypt.symm)) sys' hafter

end Restore

/-! ### Two processes -/

/-- What the two processes have: the files, the instance of each, and the backup. -/
structure Have (w : Cluster Bool) (d : Disk) (a p : MMKV) (b : Option Disk) : Prop where
  disk : w.disk = d
  first : w.inst true = some a
  second : w.inst false = some p
  backup : w.backup = b

namespace Have

variable {w : Cluster Bool} {d : Disk} {a p : MMKV} {b : Option Disk} (P : Platform) (sys : Sys)

lemma call (h : Have w d a p b) (op : Op) : Have (w.step P (.call true op sys))
    (d.apply (a.exec P sys d op).writes) (a.exec P sys d op).m p b := by
  rw [Cluster.step_call_eq P h.first, h.disk]
  exact ⟨rfl, Cluster.put_inst_self .., (Cluster.put_inst_of_ne (by decide) ..).trans h.second, h.backup⟩

lemma read (h : Have w d a p b) (hopen : p.closed = false) :
    Have (w.step P (.read false sys)) d a (p.checkLoadData d sys) b := by
  rw [Cluster.step, h.second]
  simp only [MMKV.get, hopen, Bool.false_eq_true, if_false, h.disk]
  exact ⟨rfl, (Cluster.put_inst_of_ne (by decide) ..).trans h.first, Cluster.put_inst_self .., h.backup⟩

lemma backedUp (h : Have w d a p b) : Have (w.step P .backup) d a p (some d) :=
  ⟨h.disk, h.first, h.second, congrArg some h.disk⟩

lemma restored {c : Disk} (h : Have w d a p (some c)) :
    Have (w.step P (.restore true)) c { a with needLoad := true } p (some c) := by
  rw [Cluster.step, h.backup]
  refine ⟨rfl, ?_, ?_, h.backup⟩
  · simp [Cluster.replace, h.first]
  · simp [Cluster.replace, h.second]

end Have

lemma have_bothOpen : Have bothOpen (freshDisk linux) (shared.fresh linux) (shared.fresh linux) none :=
  ⟨rfl, rfl, rfl, rfl⟩

lemma have_afterSet : Have afterSet (shared.firstDisk linux calm [97] (.bool true))
    (shared.afterFirst linux calm [97] (.bool true)) (shared.fresh linux) none :=
  ⟨rfl, rfl, rfl, rfl⟩

/-- Two processes open an absent store, the first one sets a key, makes a backup and restores it. -/
def setBackupRestore : List (Move Bool) :=
  [.start true shared calm, .start false shared calm, .call true (.set [97] (.bool true)) calm, .backup, .restore true]

theorem setBackupRestore_served :
    let w := run (Cluster.step linux) (Cluster.init ⟨[], []⟩) setBackupRestore
    ∃ m, w.inst false = some m ∧ (m.get calm w.disk (fun v => v.getBool [97]) none).2 = some true := by
  have hback : Have (afterSet.step linux .backup) _ _ _ _ := have_afterSet.backedUp linux
  have hend : Have ((afterSet.step linux .backup).step linux (.restore true)) _ _ _ _ := hback.restored linux
  have hacts : Along (Move.OK linux none) (Cluster.step linux) (Cluster.init ⟨[], []⟩) setBackupRestore := by
    refine ⟨⟨rfl, rfl, rfl, by simp [shared]⟩, ⟨?_, rfl, rfl, by simp [shared]⟩, ?_⟩
    · rw [Cluster.step_start_eq _ rfl (start_absent rfl)]
      simp [Cluster.put, Cluster.init]
    · rw [opened_twice]
      refine ⟨⟨calm_ok, by simp, fun _ m mi _ _ => .inr (.inl rfl), _, rfl, by simp [Op.Good], ?_⟩, ?_⟩
      · exact fun _ => ⟨rfl, set_fresh_bounded rfl⟩
      · rw [set_bothOpen.1]
        exact ⟨⟨true, _, have_afterSet.first⟩, ⟨_, hback.backup⟩, trivial⟩
  obtain ⟨dict, hdict, hserved⟩ := restore_keeps_freshness (.inr ⟨blank_absent, rfl, rfl⟩) hacts
  have hrun : run (Cluster.step linux) (Cluster.init ⟨[], []⟩) setBackupRestore =
      (afterSet.step linux .backup).step linux (.restore true) := by
    rw [setBackupRestore, run_cons, run_cons, opened_twice, run_cons, set_bothOpen.1]
    rfl
  rw [hrun] at hserved ⊢
  -- the second process holds the sequence number of the fresh files
  have htells : ((afterSet.step linux .backup).step linux (.restore true)).Tells false := by
    intro m mi hm hparse
    cases hm.symm.trans hend.second
    rw [hend.disk, set_bothOpen.2.image.parse] at hparse
    cases hparse
    exact .inr (.inr (.inl (by decide +kernel)))
  obtain ⟨-, hget, -⟩ := hserved false _ calm hend.second htells calm_ok
  refine ⟨_, hend.second, (hget _ _ _).trans ?_⟩
  have hslot : dict[([97] : Bytes)]? = some [1] := congrFun hdict [97]
  exact Value.readAs_of_value (v := .bool true) (by decide) (by simp only [View.value, hslot]; rfl)

/-- A value that does not fit the first page. -/
def big : Value := .bytes (List.replicate 5000 0)

lemma length_pair_big : (pairBytes [98] big.blob).length = 5006 := by
  have h₁ : (writeRawVarint32 (UInt32.ofNat 5000)).length = 2 := by decide
  have h₂ : (writeRawVarint32 (UInt32.ofNat 5002)).length = 2 := by decide
  have hblob : big.blob.length = 5002 := by
    show (writeData (List.replicate 5000 0)).length = 5002
    rw [writeData, List.length_append, List.length_replicate, h₁]
  have hkey : (writeData [98]).length = 2 := by decide
  rw [pairBytes, List.length_append, hkey, writeData, List.length_append, hblob, h₂]

lemma length_region_big : (regionOf ((∅ : Dict).insert [98] big.blob)).length = 5010 := by
  have hempty : (∅ : Dict).erase [98] = ∅ := by simp
  rw [length_regionOf, OrdMap.weight_insert, hempty, ← length_pairBytes, length_pair_big]
  rfl

lemma first_set_big : ∃ mi, (shared.first linux [98] big).Rewritten linux (freshDisk linux) mi
    ((∅ : Dict).insert [98] big.blob) ((shared.fresh linux).exec linux calm (freshDisk linux) (.set [98] big)) ∧
      mi.actualSize.toNat = 5010 := by
  obtain ⟨mi, hr, hact⟩ := first_set_rewritten (P := linux) (show shared.readOnly = false from rfl) calm_ok [98] big
    (by simp) (by rw [length_region_big]; decide)
  exact ⟨mi, hr, hact.trans length_region_big⟩

lemma read_firstDisk {cfg : Config} {key : Bytes} {v : Value} {d : Disk} {a : MMKV}
    (hd : d = cfg.firstDisk linux calm key v) (ha : a = cfg.afterFirst linux calm key v) (hsynced : Synced d a)
    (hmulti : cfg.multiProcess = true) :
    (cfg.fresh linux).checkLoadData d calm = (((cfg.fresh linux).remapped 4096).loaded a.info a.dict).notifyChanged ∧
      a.info.sequence = 1 ∧ a.info.actualSize.toNat < 4096 := by
  have hlen : d.data.length = 4096 := by
    rw [hd]
    exact MMKV.length_rewritten ..
  have hseq : a.info.sequence = 1 := by
    rw [ha]
    exact cfg.firstInfo_sequence linux calm key v
  have hfresh : (cfg.fresh linux).info.sequence = 0 := rfl
  have hkey : a.crypt = (cfg.fresh linux).crypt := by
    rw [ha]
    rfl
  have himage := hsynced.image
  have hfits := himage.fits
  rw [hkey] at himage
  have hread : (cfg.fresh linux).checkLoadData d calm = _ :=
    checkLoadData_of_sequence himage hmulti rfl (by rw [hseq, hfresh]; decide) rfl
  rw [hlen] at hread hfits
  exact ⟨hread, hseq, by omega⟩

/-- Two processes open an absent store.  The first one makes a backup and sets a key, the second one reads, the first one
restores the backup and sets the large value. -/
def restoreAndGrow : List (Move Bool) :=
  [.start true shared calm, .start false shared calm, .backup, .call true (.set [97] (.bool true)) calm,
    .read false calm, .restore true, .call true (.set [98] big) calm]

/-- The sequence number is the one the second process read, so it does not map the file again: it loads through its first
page, finds no snapshot there, and serves the empty map. -/
theorem restored_sequence_hides_updates :
    let w := run (Cluster.step linux) (Cluster.init ⟨[], []⟩) restoreAndGrow
    (∃ m, w.inst true = some m ∧ m.dict[([98] : Bytes)]? = some big.blob) ∧
      ∃ m, w.inst false = some m ∧ (m.get calm w.disk (fun v => v.contains [98]) true).2 = false := by
  obtain ⟨hset, hdisk, hsynced⟩ := first_set (P := linux) (show shared.readOnly = false from rfl) calm_ok [97]
    (.bool true) (by simp) (by decide)
  obtain ⟨mi, hr, hact⟩ := first_set_big
  obtain ⟨hread, hseq, hsmall⟩ := read_firstDisk rfl rfl hsynced rfl
  have h₁ : Have (bothOpen.step linux .backup) _ _ _ _ := have_bothOpen.backedUp linux
  have h₂ := h₁.call linux calm (.set [97] (.bool true))
  rw [hdisk, hset] at h₂
  have h₃ := h₂.read linux calm rfl
  rw [hread] at h₃
  have h₄ := h₃.restored linux
  have h₅ := h₄.call linux calm (.set [98] big)
  rw [exec_of_fresh_restored rfl rfl] at h₅
  have hrun : run (Cluster.step linux) (Cluster.init ⟨[], []⟩) restoreAndGrow =
      (((((bothOpen.step linux .backup).step linux (.call true (.set [97] (.bool true)) calm)).step linux
        (.read false calm)).step linux (.restore true)).step linux (.call true (.set [98] big) calm)) := by
    rw [restoreAndGrow, run_cons, run_cons, opened_twice, run_cons, run_cons, run_cons, run_cons, run_cons, run_nil]
  rw [hrun]
  have hseq' := hr.sequence
  rw [Config.first_info] at hseq'
  have hdict := congrArg MMKV.dict hr.instance_eq
  generalize (shared.fresh linux).exec linux calm (freshDisk linux) (.set [98] big) = r at hr hdict h₅
  generalize shared.afterFirst linux calm [97] (.bool true) = a at hseq hsmall h₅
  refine ⟨⟨_, h₅.first, ?_⟩, _, h₅.second, ?_⟩
  · rw [hdict]
    exact ExtTreeMap.getElem?_insert_self
  · have hempty : ((((shared.fresh linux).remapped 4096).loaded a.info a.dict).notifyChanged.checkLoadData _ calm).dict =
        ∅ := checkLoadData_discard hr.image.parse hr.version rfl rfl rfl (hseq'.trans hseq.symm)
      (fun he => by
        have : mi.actualSize.toNat = a.info.actualSize.toNat := congrArg UInt32.toNat he
        omega)
      rfl (by omega) (by rw [hr.lastActualSize]; omega)
    rw [h₅.disk]
    exact get_contains_of_empty rfl hempty

end MmkvGo.Multi
