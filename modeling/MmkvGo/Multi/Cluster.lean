import MmkvGo.Multi.Follows

/-!
Any number of multi-process instances of one store.  Every call runs under its `flock`, so it is one step; the steps of
the instances interleave in any order.  `Cluster` is the files and the instances, `Board` is the one map all of them
are to serve, and `step_served` carries the agreement of the two over one step of whichever instance.

`behind` counts, for each instance, the write-backs since its last access: the sequence number of the meta tells them
apart as long as there are fewer than 2^32.
-/

namespace MmkvGo.Multi

open MmkvGo.Lib MmkvGo.Wire MmkvGo.Crypt MmkvGo.Store Std

/-- The files, the instances that are open, with the number of write-backs each of them has not seen yet, and the copy of
the files that was made last; `restored` says whether the files ever were replaced by one. -/
structure Cluster (ι : Type) where
  disk : Disk
  inst : ι → Option MMKV
  behind : ι → ℕ
  backup : Option Disk
  restored : Bool

/-- What one of the processes does. -/
inductive Move (ι : Type) where
  /-- `MMKVWithID`, while no other operation runs -/
  | start (i : ι) (cfg : Config) (sys : Sys)
  /-- `Close` -/
  | close (i : ι)
  /-- A call that may change the store. -/
  | call (i : ι) (op : Op) (sys : Sys)
  /-- A getter. -/
  | read (i : ι) (sys : Sys)
  /-- `BackupOne` -/
  | backup
  /-- `RestoreOneFromDirectory` -/
  | restore (i : ι)

/-- Whether a call brings its instance up to date: the settings of the instance itself do not. -/
def accesses : Op → Bool
  | .sync | .clearMemoryCache | .enableCompareBeforeSet | .disableCompareBeforeSet => false
  | _ => true

section Step

variable {ι : Type} [DecidableEq ι] (P : Platform)

/-- The cluster after a step of `i` that left the files `d` and the instance `m`. -/
def Cluster.put (w : Cluster ι) (i : ι) (d : Disk) (m : Option MMKV) (seen : Bool) : Cluster ι where
  disk := d
  inst := Function.update w.inst i m
  behind j :=
    if j = i ∧ seen then 0 else if sequenceOf d = sequenceOf w.disk then w.behind j else w.behind j + 1
  backup := w.backup
  restored := w.restored

/-- The cluster after `i` copied the files `b` over the store: only its own instance is told to load. -/
def Cluster.replace (w : Cluster ι) (i : ι) (b : Disk) : Cluster ι where
  disk := b
  inst := Function.update w.inst i ((w.inst i).map fun m => { m with needLoad := true })
  behind j := w.behind j + 1
  backup := w.backup
  restored := true

@[simp] lemma Cluster.put_inst_self (w : Cluster ι) (i : ι) (d : Disk) (m : Option MMKV) (seen : Bool) :
    (w.put i d m seen).inst i = m := Function.update_self ..

lemma Cluster.put_inst_of_ne {i j : ι} (h : j ≠ i) (w : Cluster ι) (d : Disk) (m : Option MMKV) (seen : Bool) :
    (w.put i d m seen).inst j = w.inst j := Function.update_of_ne h ..

def Cluster.step (w : Cluster ι) : Move ι → Cluster ι
  | .start i cfg sys =>
    match w.inst i with
    -- the process has the store open and gets that instance
    | some _ => w
    | none => w.put i (w.disk.apply (openMMKV P sys cfg w.disk).1) (openMMKV P sys cfg w.disk).2.toOption true
  | .close i => w.put i w.disk none false
  | .call i op sys =>
    match w.inst i with
    | none => w
    | some m => w.put i (w.disk.apply (m.exec P sys w.disk op).writes) (some (m.exec P sys w.disk op).m) (accesses op)
  | .read i sys =>
    match w.inst i with
    | none => w
    | some m => w.put i w.disk (some (m.get sys w.disk (fun _ => ()) ()).1) true
  | .backup => { w with backup := some w.disk }
  | .restore i =>
    match w.backup with
    | none => w
    | some b => w.replace i b

lemma Cluster.step_start_eq {w : Cluster ι} {i : ι} {cfg : Config} {sys : Sys} {d : Disk} {m : MMKV}
    (hi : w.inst i = none) (h : World.start P cfg sys w.disk = ⟨d, .ok m⟩) :
    w.step P (.start i cfg sys) = w.put i d (some m) true := by
  rw [World.start, World.mk.injEq] at h
  rw [step, hi]
  simp only [h.1, h.2, Except.toOption]

lemma Cluster.step_call_eq {w : Cluster ι} {i : ι} {m : MMKV} (hm : w.inst i = some m) (op : Op) (sys : Sys) :
    w.step P (.call i op sys) =
      w.put i (w.disk.apply (m.exec P sys w.disk op).writes) (some (m.exec P sys w.disk op).m) (accesses op) := by
  rw [step, hm]

/-- The files before any process has opened them. -/
def Cluster.init (d : Disk) : Cluster ι := ⟨d, fun _ => none, fun _ => 0, none, false⟩

/-- The one map, the one in the backup, and the default duration of each process. -/
structure Board (ι : Type) where
  content : Content
  backup : Option Content
  seconds : ι → UInt32

/-- The board of a store that holds a map. -/
def Board.init (c : Content) : Board ι := ⟨c, none, fun _ => 0⟩

/-- What a step does to the one map. -/
def Board.step (s : Board ι) : Move ι → Board ι
  | .start i _ _ => { s with seconds := Function.update s.seconds i 0 }
  | .close _ | .read _ _ => s
  | .call i op sys =>
    { s with
      content := s.content.after sys (s.seconds i) op
      seconds := Function.update s.seconds i (op.secondsAfter s.content.expire (s.seconds i)) }
  | .backup => { s with backup := some s.content }
  | .restore _ => { s with content := s.backup.getD s.content }

/-- What tells the instance of `i` of what it missed. -/
def Cluster.Tells (w : Cluster ι) (i : ι) : Prop :=
  ∀ m mi, w.inst i = some m → parseMeta w.disk.crc = .ok mi → Multi.Tells w.disk mi m (w.behind i)

/-- The condition on a step: it is taken on an open instance that is told of what it missed, no call of the system fails,
the instances have the one key, files that are opened for reading only have their least sizes, the instance of a call
that accesses the store is open for writing, no empty key is set, no tombstone is appended to ciphertext, the key is not
changed, the region stays below 4 GiB, a backup is made of a store that is open and a restore has one. -/
def Move.OK (crypt : Option Cipher) (w : Cluster ι) : Move ι → Prop
  | .start i cfg _ => w.inst i = none ∧ cfg.multiProcess = true ∧ cfg.crypt P = crypt ∧
      (cfg.readOnly = true → P.pageSize ≤ w.disk.data.length ∧ metaSize ≤ w.disk.crc.length)
  | .close _ => True
  | .call i op sys => sys.OK ∧ (∀ newKey, op ≠ .reKey newKey) ∧ (accesses op = true → w.Tells i) ∧
      ∃ m, w.inst i = some m ∧ op.Good (m.checkLoadData w.disk sys) ∧
        (accesses op = true → m.readOnly = false ∧
          4 + (op.regionAfter sys w.disk (m.checkLoadData w.disk sys)).length < 2 ^ 32)
  | .read i sys => sys.remap = none ∧ w.Tells i ∧ ∃ m, w.inst i = some m
  | .backup => ∃ i m, w.inst i = some m
  | .restore _ => ∃ b, w.backup = some b

/-- Files that an instance has opened: they hold a map and have their least sizes. -/
def Holds (crypt : Option Cipher) (d : Disk) (mi : MetaInfo) (dict : Dict) : Prop :=
  Image crypt d mi dict ∧ P.pageSize ≤ d.data.length

/-- The files hold the one map, and every instance follows them. -/
structure Served (crypt : Option Cipher) (w : Cluster ι) (s : Board ι) (mi : MetaInfo) (dict : Dict) : Prop where
  stored : Stored crypt w.disk mi dict
  content : s.content = ⟨OrdMap.lookup dict, mi.expireEnabled⟩
  holds : ∀ i m, w.inst i = some m → Holds P crypt w.disk mi dict
  follows : ∀ i m, w.inst i = some m → Follows crypt w.disk mi m (w.behind i) w.restored
  seconds : ∀ i m, w.inst i = some m → m.expiredSeconds = s.seconds i
  backup : ∀ b, w.backup = some b → ∃ mi dict, Holds P crypt b mi dict ∧
    s.backup = some ⟨OrdMap.lookup dict, mi.expireEnabled⟩

end Step

/-! ### One step -/

section Served

variable {ι : Type} {P : Platform} {crypt : Option Cipher} {w : Cluster ι} {s : Board ι}
  {mi : MetaInfo} {dict : Dict} {i : ι} {m : MMKV}

/-- **The access of an instance** has the one map. -/
theorem Served.upToDate {sys : Sys} (h : Served P crypt w s mi dict) (hm : w.inst i = some m) (htells : w.Tells i)
    (hsys : sys.remap = none) : UpToDate crypt w.disk mi dict m (m.checkLoadData w.disk sys) :=
  checkLoadData_upToDate (h.holds i m hm).1 (h.follows i m hm).toShared
    ((h.follows i m hm).recognises (htells m mi hm (h.holds i m hm).1.parse)) hsys

lemma exec_of_accesses {sys : Sys} {d : Disk} {op : Op} (hs : Shared crypt m) (hro : m.readOnly = false)
    (hup : Synced d (m.checkLoadData d sys)) (hop : accesses op = true) :
    m.exec P sys d op = (m.checkLoadData d sys).exec P sys d op := by
  have hmutate : ∀ body, m.mutate sys d body = (m.checkLoadData d sys).mutate sys d body := by
    intro body
    rw [MMKV.mutate_of_synced hup]
    simp [MMKV.mutate, hs.closed, hro]
  cases op with
  | sync | clearMemoryCache | enableCompareBeforeSet | disableCompareBeforeSet => cases hop
  | _ => simp only [MMKV.exec, hmutate]

lemma exec_of_readOnly (sys : Sys) (d : Disk) {op : Op} (hs : Shared crypt m) (hro : m.readOnly = true)
    (hop : accesses op = true) : m.exec P sys d op = ⟨[], m, some .readOnly⟩ := by
  cases op with
  | sync | clearMemoryCache | enableCompareBeforeSet | disableCompareBeforeSet => cases hop
  | _ => simp [MMKV.exec, MMKV.mutate, hs.closed, hro]

/-- **The effect of a call that accesses the store** is that on the instance after the probe. -/
theorem Served.exec_effect {op : Op} {sys : Sys} (h : Served P crypt w s mi dict) (hm : w.inst i = some m)
    (htells : w.Tells i) (hsys : sys.OK) (hro : m.readOnly = false) (hgood : op.Good (m.checkLoadData w.disk sys))
    (hlt : 4 + (op.regionAfter sys w.disk (m.checkLoadData w.disk sys)).length < 2 ^ 32) (hop : accesses op = true) :
    op.Effect P sys w.disk (m.checkLoadData w.disk sys) (m.exec P sys w.disk op) := by
  have hup := h.upToDate hm htells hsys.remap
  have hcache : op ≠ .clearMemoryCache := by
    rintro rfl
    cases hop
  have hsynced := hup.synced_of_writable hro
  rw [exec_of_accesses (h.follows i m hm).toShared hro hsynced hop]
  exact Store.exec_effect hsynced hsys hgood hlt hcache

/-- What an instance that is told of what it missed serves: the one map, to the calls and to every getter. -/
theorem Served.serves {sys : Sys} (h : Served P crypt w s mi dict) (hm : w.inst i = some m) (htells : w.Tells i)
    (hsys : sys.remap = none) :
    (m.checkLoadData w.disk sys).content = s.content ∧
      (m.checkLoadData w.disk sys).expiredSeconds = s.seconds i ∧
      ∀ (α : Type) (getter : View → α) (zero : α),
        (m.get sys w.disk getter zero).2 = getter ⟨dict, s.content.expire, sys.now⟩ := by
  have hup := h.upToDate hm htells hsys
  rw [h.content]
  exact ⟨hup.content, hup.expiredSeconds.trans (h.seconds i m hm),
    fun _ getter zero => hup.get (h.follows i m hm).closed getter zero⟩

lemma served_init {d : Disk} (hstored : Stored crypt d mi dict) :
    Served P crypt (Cluster.init d : Cluster ι) (Board.init ⟨OrdMap.lookup dict, mi.expireEnabled⟩) mi dict := by
  refine ⟨hstored, rfl, ?_, ?_, ?_, fun b hb => by cases hb⟩ <;> intro i m hm <;> cases hm

variable [DecidableEq ι]

lemma put_inst {d : Disk} {m : Option MMKV} {seen : Bool} {j : ι} {mj : MMKV} (h : (w.put i d m seen).inst j = some mj) :
    j = i ∧ m = some mj ∨ j ≠ i ∧ w.inst j = some mj := by
  by_cases hij : j = i
  · subst hij
    exact .inl ⟨rfl, by rwa [Cluster.put_inst_self] at h⟩
  · exact .inr ⟨hij, by rwa [Cluster.put_inst_of_ne hij] at h⟩

lemma replace_inst {b : Disk} {j : ι} {mj : MMKV} (h : (w.replace i b).inst j = some mj) :
    ∃ m₀, w.inst j = some m₀ ∧ (mj = m₀ ∨ mj = { m₀ with needLoad := true }) := by
  simp only [Cluster.replace] at h
  by_cases hij : j = i
  · subst hij
    rw [Function.update_self, Option.map_eq_some_iff] at h
    obtain ⟨m₀, hm₀, rfl⟩ := h
    exact ⟨m₀, hm₀, .inr rfl⟩
  · rw [Function.update_of_ne hij] at h
    exact ⟨mj, h, .inl rfl⟩

/-- **A step that evolves the files**: the others follow, and so does the one that took it. -/
theorem Served.put {d' : Disk} {mi' : MetaInfo} {dict' : Dict} {m' : MMKV} {seen : Bool} {s' : Board ι}
    (h : Served P crypt w s mi dict) (hm : w.inst i = some m) (hev : Evolves true w.disk mi d' mi')
    (hholds : Holds P crypt d' mi' dict') (hc : s'.content = ⟨OrdMap.lookup dict', mi'.expireEnabled⟩)
    (hb : s'.backup = s.backup) (hsec : s'.seconds = Function.update s.seconds i m'.expiredSeconds)
    (hself : Follows crypt d' mi' m' ((w.put i d' (some m') seen).behind i) w.restored) :
    Served P crypt (w.put i d' (some m') seen) s' mi' dict' := by
  refine ⟨.inl hholds.1, hc, fun _ _ _ => hholds, fun j mj hj => ?_, fun j mj hj => ?_, fun b hw => ?_⟩
  · rcases put_inst hj with ⟨rfl, ⟨⟩⟩ | ⟨hij, hmj⟩
    · exact hself
    · have hfollows := (h.follows j mj hmj).evolves hev
      simp only [Cluster.put, hij, false_and, if_false, sequenceOf_image hholds.1,
        sequenceOf_image (h.holds i m hm).1]
      exact hfollows
  · rw [hsec]
    rcases put_inst hj with ⟨rfl, ⟨⟩⟩ | ⟨hij, hmj⟩
    · rw [Function.update_self]
    · rw [Function.update_of_ne hij]
      exact h.seconds j mj hmj
  · rw [hb]
    exact h.backup b hw

lemma Follows.setting {d : Disk} {op : Op} {k : ℕ} {restored : Bool} (h : Follows crypt d mi m k restored)
    (hop : accesses op = false) (P : Platform) (sys : Sys) :
    (m.exec P sys d op).writes = [] ∧ Follows crypt d mi (m.exec P sys d op).m k restored ∧
      (m.exec P sys d op).m.expiredSeconds = m.expiredSeconds := by
  -- a setting that no file depends on
  have hcompare : ∀ b, Follows crypt d mi { m with compareBeforeSet := b } k restored := by
    intro b
    refine ⟨⟨h.crypt, h.multiProcess, h.closed, h.needFullWriteback⟩, h.sequence, h.mapping, h.actualSize,
      fun hl h0 he => ?_⟩
    have hsynced := h.synced hl h0 he
    exact ⟨hsynced.image, hsynced.data, hsynced.actualSize, hsynced.crcDigest, hsynced.enableExpire, hsynced.needLoad,
      hsynced.needFullWriteback, hsynced.closed, hsynced.readOnly⟩
  cases op with
  | sync =>
    rw [MMKV.exec, MMKV.syncFlush, h.closed, if_neg (by decide)]
    split <;> exact ⟨rfl, h, rfl⟩
  | clearMemoryCache =>
    simp only [MMKV.exec, MMKV.clearMemoryCache_eq h.closed, true_and, and_true]
    refine ⟨⟨h.crypt, h.multiProcess, h.closed, h.needFullWriteback⟩, fun _ => ?_, ?_, ?_, ?_⟩ <;>
      exact fun hl => absurd hl (by simp)
  | enableCompareBeforeSet =>
    rw [MMKV.exec, MMKV.enableCompareBeforeSet]
    split
    · exact ⟨rfl, h, rfl⟩
    · exact ⟨rfl, hcompare true, rfl⟩
  | disableCompareBeforeSet => exact ⟨rfl, hcompare false, rfl⟩
  | _ => cases hop

/-- **The effect of a call on an instance that the probe brought up to date.** -/
theorem Served.called {op : Op} {sys : Sys} {m₁ : MMKV} {r : Result} (h : Served P crypt w s mi dict)
    (hm : w.inst i = some m) (hup : UpToDate crypt w.disk mi dict m m₁) (hkey : ∀ newKey, op ≠ .reKey newKey)
    (heffect : op.Effect P sys w.disk m₁ r) :
    Served P crypt (w.put i (w.disk.apply r.writes) (some r.m) true) (s.step (.call i op sys)) r.m.info r.m.dict ∧
      Evolves true w.disk mi (w.disk.apply r.writes) r.m.info := by
  have hcrypt : r.m.crypt = crypt := by
    rw [heffect.crypt, hup.crypt]
    cases op with
    | reKey newKey => exact absurd rfl (hkey newKey)
    | _ => rfl
  have himage := heffect.synced.image
  have hev := heffect.evolves
  have hshared : Shared crypt r.m := ⟨hcrypt, heffect.multiProcess.trans hup.multiProcess, heffect.synced.closed,
    heffect.synced.needFullWriteback⟩
  -- the map the call started from is the one map
  have hcontent : m₁.content = s.content := hup.content.trans h.content.symm
  have hseconds : m₁.expiredSeconds = s.seconds i := hup.expiredSeconds.trans (h.seconds i m hm)
  have hexpire : m₁.enableExpire = s.content.expire := by rw [← hcontent]; rfl
  rw [hcrypt] at himage
  rw [hup.multiProcess, hup.info] at hev
  refine ⟨h.put hm hev ⟨himage, heffect.floor (h.holds i m hm).2⟩ ?_ rfl ?_ ?_, hev⟩
  · have hafter := heffect.content
    rw [hcontent, hseconds] at hafter
    rw [Board.step, ← hafter, MMKV.content, heffect.synced.enableExpire]
  · rw [heffect.seconds, hexpire, hseconds]
    rfl
  · simp only [Cluster.put, and_self, if_true]
    exact follows_of_synced ((MMKV.writable_eq heffect.synced.readOnly).symm ▸ heffect.synced) hshared _

theorem step_call {op : Op} {sys : Sys} (h : Served P crypt w s mi dict) (hop : accesses op = true)
    (hok : (Move.call i op sys).OK P crypt w) :
    ∃ mi' dict', Served P crypt (w.step P (.call i op sys)) (s.step (.call i op sys)) mi' dict' ∧
      Evolves true w.disk mi (w.step P (.call i op sys)).disk mi' := by
  obtain ⟨hsys, hkey, htells, m, hm, hgood, hlt⟩ := hok
  obtain ⟨hro, hlt⟩ := hlt hop
  rw [Cluster.step_call_eq P hm, hop]
  exact ⟨_, _, h.called hm (h.upToDate hm (htells hop) hsys.remap) hkey
    (h.exec_effect hm (htells hop) hsys hro hgood hlt hop)⟩

theorem step_setting {op : Op} {sys : Sys} (h : Served P crypt w s mi dict) (hop : accesses op = false)
    (hok : (Move.call i op sys).OK P crypt w) :
    Served P crypt (w.step P (.call i op sys)) (s.step (.call i op sys)) mi dict := by
  obtain ⟨-, -, -, m, hm, -⟩ := hok
  obtain ⟨hwrites, hfollows, hsec⟩ := (h.follows i m hm).setting hop P sys
  have hsame : s.content.after sys (s.seconds i) op = s.content ∧
      op.secondsAfter s.content.expire (s.seconds i) = s.seconds i := by
    cases op with
    | sync | clearMemoryCache | enableCompareBeforeSet | disableCompareBeforeSet => exact ⟨rfl, rfl⟩
    | _ => cases hop
  rw [Cluster.step_call_eq P hm, hwrites, Disk.apply_nil]
  refine h.put hm (.unchanged rfl rfl) (h.holds i m hm) ?_ rfl ?_ ?_
  · rw [Board.step, hsame.1, h.content]
  · rw [Board.step, hsame.2, hsec, h.seconds i m hm]
  · simp only [Cluster.put, hop, Bool.false_eq_true, and_false, if_false, if_true]
    exact hfollows

lemma Served.probed {m₁ : MMKV} (h : Served P crypt w s mi dict) (hm : w.inst i = some m)
    (hup : UpToDate crypt w.disk mi dict m m₁) : Served P crypt (w.put i w.disk (some m₁) true) s mi dict := by
  refine h.put hm (.unchanged rfl rfl) (h.holds i m hm) h.content rfl ?_ ?_
  · rw [hup.expiredSeconds, h.seconds i m hm, Function.update_eq_self]
  · simp only [Cluster.put, and_self, if_true]
    have hfollows := follows_of_synced hup.synced hup.toShared w.restored
    rw [hup.info] at hfollows
    exact hfollows

theorem step_read {sys : Sys} (h : Served P crypt w s mi dict) (hok : (Move.read i sys).OK P crypt w) :
    Served P crypt (w.step P (.read i sys)) (s.step (.read i sys)) mi dict := by
  obtain ⟨hsys, htells, m, hm⟩ := hok
  have hget : (m.get sys w.disk (fun _ => ()) ()).1 = m.checkLoadData w.disk sys := by
    simp [MMKV.get, (h.follows i m hm).closed]
  rw [Cluster.step, hm]
  simp only [hget]
  exact h.probed hm (h.upToDate hm htells hsys)

lemma Follows.congr {d d' : Disk} {k : ℕ} {restored : Bool} (h : Follows crypt d mi m k restored)
    (hold : Image crypt d mi dict) (himage : Image crypt d' mi dict) (hlen : d'.data.length = d.data.length) :
    Follows crypt d' mi m k restored := by
  refine ⟨h.toShared, h.sequence, fun hl h0 => by rw [hlen]; exact h.mapping hl h0, h.actualSize, fun hl h0 he => ?_⟩
  have hsynced := h.synced hl h0 he
  have hown : Image m.crypt d m.info m.dict := hsynced.image
  rw [h.crypt] at hown
  obtain ⟨hinfo, hdict⟩ := hold.unique hown
  have himage' : Image m.crypt d' m.info m.dict := by
    rw [h.crypt, hinfo, hdict]
    exact himage
  exact ⟨himage', by rw [hlen]; exact hsynced.data, hsynced.actualSize, hsynced.crcDigest, hsynced.enableExpire,
    hsynced.needLoad, hsynced.needFullWriteback, hsynced.closed, hsynced.readOnly⟩

/-- The files after an open that met its condition have their least sizes; the data file of a store that is open already
has it, and is left alone. -/
lemma length_openStores {cfg : Config} {d : Disk}
    (hro : cfg.readOnly = true → P.pageSize ≤ d.data.length ∧ metaSize ≤ d.crc.length) :
    P.pageSize ≤ (d.apply (cfg.openStores P d)).data.length ∧
      (P.pageSize ≤ d.data.length → (d.apply (cfg.openStores P d)).data = d.data) := by
  rw [Config.openStores]
  split
  · next hc => exact ⟨(hro hc).1, fun _ => rfl⟩
  · refine ⟨by rw [length_openWrites]; omega, fun hfloor => ?_⟩
    rw [apply_openWrites, pageRoundUp_zero, Nat.sub_eq_zero_of_le hfloor, List.replicate_zero, List.append_nil]

/-- **What an open does**, for writing or for reading only: the files are left as they are where they are open already, and
the instance agrees with them. -/
theorem Served.opened {cfg : Config} {sys : Sys} (h : Served P crypt w s mi dict)
    (hok : (Move.start i cfg sys).OK P crypt w) :
    let d := w.disk.apply (cfg.openStores P w.disk)
    w.step P (.start i cfg sys) = w.put i d (some (cfg.opened P d mi dict)) true ∧ Holds P crypt d mi dict ∧
      Synced d (cfg.opened P d mi dict).writable ∧ ∀ j mj, w.inst j = some mj → d.data = w.disk.data := by
  obtain ⟨hnone, -, hkey, hro⟩ := hok
  have hstored := h.stored
  rw [← hkey] at hstored
  have hp4 := P.four_le_pageSize
  obtain ⟨himage, hopen, hsynced⟩ := hstored.opens (fun hc => ⟨hp4.trans (hro hc).1, (hro hc).2⟩) sys
  obtain ⟨hlen, hsame⟩ := length_openStores hro
  rw [hkey] at himage
  refine ⟨?_, ⟨himage, hlen⟩, hsynced, fun j mj hj => hsame (h.holds j mj hj).2⟩
  rw [Cluster.step, hnone]
  simp only [hopen, Except.toOption]

theorem step_start {cfg : Config} {sys : Sys} (h : Served P crypt w s mi dict)
    (hok : (Move.start i cfg sys).OK P crypt w) :
    Served P crypt (w.step P (.start i cfg sys)) (s.step (.start i cfg sys)) mi dict := by
  obtain ⟨hstep, hholds, hsynced, hother⟩ := h.opened hok
  obtain ⟨-, hmulti, hkey, -⟩ := hok
  rw [hstep]
  generalize w.disk.apply (cfg.openStores P w.disk) = d at *
  have himage := hholds.1
  have hshared : Shared crypt (cfg.opened P d mi dict) := ⟨hkey, hmulti, rfl, rfl⟩
  refine ⟨.inl himage, h.content, fun _ _ _ => hholds, fun j mj hj => ?_, fun j mj hj => ?_, h.backup⟩
  · rcases put_inst hj with ⟨rfl, ⟨⟩⟩ | ⟨hij, hmj⟩
    · simp only [Cluster.put, and_self, if_true]
      exact follows_of_synced hsynced hshared _
    · have hold := (h.holds j mj hmj).1
      simp only [Cluster.put, hij, false_and, if_false, sequenceOf_image himage, sequenceOf_image hold, if_true]
      exact (h.follows j mj hmj).congr hold himage (congrArg List.length (hother j mj hmj))
  · rcases put_inst hj with ⟨rfl, ⟨⟩⟩ | ⟨hij, hmj⟩
    · simp only [Board.step, Function.update_self]
      rfl
    · simp only [Board.step, Function.update_of_ne hij]
      exact h.seconds j mj hmj

theorem step_close (h : Served P crypt w s mi dict) :
    Served P crypt (w.step P (.close i)) (s.step (.close i)) mi dict := by
  have hinst : ∀ j mj, (w.put i w.disk none false).inst j = some mj → w.inst j = some mj := by
    intro j mj hj
    rcases put_inst hj with ⟨rfl, ⟨⟩⟩ | ⟨-, hmj⟩
    exact hmj
  have hbehind : (w.put i w.disk none false).behind = w.behind := by
    funext j
    simp [Cluster.put]
  rw [Cluster.step]
  refine ⟨h.stored, h.content, fun j mj hj => h.holds j mj (hinst j mj hj), fun j mj hj => ?_,
    fun j mj hj => h.seconds j mj (hinst j mj hj), h.backup⟩
  rw [hbehind]
  exact h.follows j mj (hinst j mj hj)

theorem step_backup (h : Served P crypt w s mi dict) (hok : (Move.backup : Move ι).OK P crypt w) :
    Served P crypt (w.step P .backup) (s.step .backup) mi dict := by
  obtain ⟨i, m, hm⟩ := hok
  refine ⟨h.stored, h.content, h.holds, h.follows, h.seconds, fun b hb => ?_⟩
  obtain rfl : w.disk = b := by simpa [Cluster.step] using hb
  exact ⟨mi, dict, h.holds i m hm, congrArg some h.content⟩

theorem step_restore (h : Served P crypt w s mi dict) (hok : (Move.restore i).OK P crypt w) :
    ∃ mi' dict', Served P crypt (w.step P (.restore i)) (s.step (.restore i)) mi' dict' := by
  obtain ⟨b, hb⟩ := hok
  obtain ⟨mi', dict', hholds, hcontent⟩ := h.backup b hb
  have hstep : w.step P (.restore i) = w.replace i b := by rw [Cluster.step, hb]
  rw [hstep]
  refine ⟨mi', dict', .inl hholds.1, ?_, fun _ _ _ => hholds, fun j mj hj => ?_, fun j mj hj => ?_,
    fun b' hb' => ⟨mi', dict', ?_, hcontent⟩⟩
  · simp [Board.step, hcontent]
  · obtain ⟨m₀, hm₀, rfl | rfl⟩ := replace_inst hj
    · exact (h.follows j mj hm₀).restore
    · have hs := (h.follows j m₀ hm₀).toShared
      refine ⟨⟨hs.crypt, hs.multiProcess, hs.closed, hs.needFullWriteback⟩, fun hr => ?_, ?_, ?_, ?_⟩
      · cases hr
      all_goals exact fun hl => absurd hl (by simp)
  · obtain ⟨m₀, hm₀, hmj⟩ := replace_inst hj
    have hsec := h.seconds j m₀ hm₀
    rcases hmj with rfl | rfl <;> exact hsec
  · obtain rfl : b = b' := Option.some.inj (hb.symm.trans hb')
    exact hholds

/-- **One step of whichever process.** -/
theorem step_served {a : Move ι} (h : Served P crypt w s mi dict) (hok : a.OK P crypt w) :
    ∃ mi' dict', Served P crypt (w.step P a) (s.step a) mi' dict' := by
  cases a with
  | start i cfg sys => exact ⟨mi, dict, step_start h hok⟩
  | close i => exact ⟨mi, dict, step_close h⟩
  | read i sys => exact ⟨mi, dict, step_read h hok⟩
  | backup => exact ⟨mi, dict, step_backup h hok⟩
  | restore i => exact step_restore h hok
  | call i op sys =>
    cases hop : accesses op with
    | true =>
      obtain ⟨mi', dict', h', -⟩ := step_call h hop hok
      exact ⟨mi', dict', h'⟩
    | false => exact ⟨mi, dict, step_setting h hop hok⟩

lemma behind_step_le (P : Platform) (w : Cluster ι) (a : Move ι) (j : ι) : (w.step P a).behind j ≤ w.behind j + 1 := by
  have hput : ∀ i d m seen, (w.put i d m seen).behind j ≤ w.behind j + 1 := by
    intro i d m seen
    simp only [Cluster.put]
    split
    · exact Nat.zero_le _
    · split <;> omega
  cases a with
  | start i cfg sys | call i op sys | read i sys =>
    simp only [Cluster.step]
    split <;> first | exact hput _ _ _ _ | exact Nat.le_succ _
  | close i => exact hput _ _ _ _
  | backup => exact Nat.le_succ _
  | restore i =>
    simp only [Cluster.step]
    split
    · exact Nat.le_succ _
    · exact le_rfl

end Served

end MmkvGo.Multi
