import MmkvGo.Lib.Sections
import MmkvGo.Lock.Deadlock
import MmkvGo.Multi.Linear

/-!
The calls of multi-process instances, load by load and store by store (`lockShared`, `lockExclusive`, `checkLoadData`,
`loadData`, `BackupOne`, `Lock`, `Unlock`, `TryLock`).

A call takes a reference of its instance's `fileLock`, reads the meta and the data file, makes its stores one after the
other and gives the reference back; between any two of these accesses the other processes go on.  `requests` is this
as the calls of the library of critical sections, and `exec_callBody` says that a call whose accesses nobody comes between
is the call of the atomic model.  In which order and in which portions the stores of a call get to the memory that the
others read is left open (`Memory`): under the locks it makes no difference.
-/

namespace MmkvGo.Multi

open MmkvGo.Lib MmkvGo.Lib.Flock MmkvGo.Lib.Sections MmkvGo.Lock MmkvGo.Wire MmkvGo.Crypt MmkvGo.Store Std

/-! ### The accesses of a call -/

/-- How the stores of a call get to the mapped files: in groups, of which nobody sees a part.  Go says neither in which
order nor in which portions `copy` moves its bytes, so that the groups are a parameter. -/
structure Memory where
  groups : List Write → List (List Write)
  complete : ∀ ws d, (groups ws).foldl Disk.apply d = d.apply ws

/-- The stores in the order of the program: a byte or a word each, and an aligned word where bytes are copied into the
meta mapping. -/
def storeUnits : List Write → List (List Write)
  | [] => []
  | .crc o₀ b₀ :: .crc o₁ b₁ :: .crc o₂ b₂ :: .crc o₃ b₃ :: ws =>
    if o₀ % 4 = 0 ∧ o₁ = o₀ + 1 ∧ o₂ = o₀ + 2 ∧ o₃ = o₀ + 3 then
      [.crc o₀ b₀, .crc o₁ b₁, .crc o₂ b₂, .crc o₃ b₃] :: storeUnits ws
    else [.crc o₀ b₀] :: storeUnits (.crc o₁ b₁ :: .crc o₂ b₂ :: .crc o₃ b₃ :: ws)
  | w :: ws => [w] :: storeUnits ws

theorem flatten_storeUnits (ws : List Write) : (storeUnits ws).flatten = ws := by
  fun_induction storeUnits ws with
  | case1 => rfl
  | case2 o₀ b₀ o₁ b₁ o₂ b₂ o₃ b₃ ws h ih => simp [ih]
  | case3 o₀ b₀ o₁ b₁ o₂ b₂ o₃ b₃ ws h ih => simp [ih]
  | case4 w ws h ih => simp [ih]

lemma foldl_apply (gs : List (List Write)) (d : Disk) : gs.foldl Disk.apply d = d.apply gs.flatten := by
  induction gs generalizing d with
  | nil => rfl
  | cons g gs ih => rw [List.foldl_cons, ih, List.flatten_cons, Disk.apply_append]

/-- The memory in which a copy goes up its addresses, word by word. -/
def wordwise : Memory where
  groups := storeUnits
  complete ws d := by rw [foldl_apply, flatten_storeUnits]

/-- The stores as functions of the files. -/
def storeSteps (μ : Memory) (ws : List Write) : List (Disk → Disk) := (μ.groups ws).map fun g d => d.apply g

theorem foldl_storeSteps (μ : Memory) (ws : List Write) (d : Disk) :
    (storeSteps μ ws).foldl (fun d f => f d) d = d.apply ws := by
  rw [storeSteps, List.foldl_map]
  exact μ.complete ws d

section Bodies

variable (μ : Memory) (P : Platform) (sys : Sys) (m : MMKV)

/-- `loadData`: the meta, then the data file. -/
def loadBody : Body Disk (MMKV × Option Wire.Err) :=
  .load fun d =>
    match parseMeta d.crc with
    | .error e => .ret (m, some e)
    | .ok mi =>
      if maxSupportedVersion < mi.version then .ret ({ m with info := mi }, some (.unsupportedVersion mi.version))
      else .load fun d =>
        .ret (MMKV.loadRegion d
          { m with info := mi, enableExpire := decide (versionFlag ≤ mi.version) && mi.expireEnabled })

/-- `reloadBestEffort`: the size of the data file, then the load. -/
def reloadBody (remap : Bool) : Body Disk MMKV :=
  let load (m : MMKV) : Body Disk MMKV := (loadBody m).bind fun r =>
    .ret (r.2.elim r.1 fun e => { r.1 with lastErr := some e })
  if remap then
    .load fun d =>
      match m.data.remap sys.remap d with
      | (mf, some e) => .ret { m with data := mf, lastErr := some e }
      | (mf, none) => load { m with data := mf }
  else load m

/-- `checkLoadData`. -/
def checkBody : Body Disk MMKV :=
  if m.needLoad then reloadBody sys { m with needLoad := false } true
  else if !m.multiProcess then .ret m
  else
    .load fun d =>
      match parseMeta d.crc with
      | .error e => .ret { m with lastErr := some e }
      | .ok live =>
        if live.sequence ≠ m.info.sequence then
          (reloadBody sys m true).bind fun m => .ret m.notifyChanged
        else if live.crcDigest ≠ m.crcDigest ∨ live.actualSize ≠ m.actualSize then
          (reloadBody sys m false).bind fun m => .ret m.notifyChanged
        else .ret m

/-- A mutation with the lock held: the checks, the probe, then what the call stores. -/
def mutateBody (body : Disk → MMKV → Result) : Body Disk Result :=
  if m.closed then .ret ⟨[], m, some .closed⟩
  else if m.readOnly then .ret ⟨[], m, some .readOnly⟩
  else (checkBody sys m).bind fun m => .load fun d => .stores (storeSteps μ (body d m).writes) (.ret (body d m))

/-- One call. -/
def callBody : Op → Body Disk Result
  | .set key v => mutateBody μ sys m fun d m => m.setValueLocked P sys d key v.blob
  | .removeValueForKey key => mutateBody μ sys m fun d m => m.removeValueForKey P sys d key
  | .removeValuesForKeys keys => mutateBody μ sys m fun d m => m.removeValuesForKeys P sys d keys
  | .clearAll => mutateBody μ sys m fun _ m => m.clearAllLocked P sys
  | .trim => mutateBody μ sys m fun d m => m.trim P sys d
  | .sync => .ret (m.syncFlush sys)
  | .clearMemoryCache => .ret ⟨[], m.clearMemoryCache, none⟩
  | .enableAutoKeyExpire seconds => mutateBody μ sys m fun d m => m.enableAutoKeyExpire P sys d seconds
  | .disableAutoKeyExpire => mutateBody μ sys m fun d m => m.disableAutoKeyExpire P sys d
  | .enableCompareBeforeSet => .ret ⟨[], m.enableCompareBeforeSet, none⟩
  | .disableCompareBeforeSet => .ret ⟨[], m.disableCompareBeforeSet, none⟩
  | .reKey newKey => mutateBody μ sys m fun d m => m.reKey P sys d newKey

/-- What a getter reads from: a closed instance has nothing. -/
def getBody : Body Disk (MMKV × Option View) :=
  if m.closed then .ret (m, none)
  else (checkBody sys m).bind fun m => .ret (m, some (m.view sys.now))

/-- The reads of `io.Copy` from a file, of the sizes `ns` and then to its end; `acc` is what was read before. -/
def copyBody (file : Disk → Bytes) (acc : Bytes) : List ℕ → Body Disk Bytes
  | [] => .load fun d => .ret (acc ++ (file d).drop acc.length)
  | n :: ns => .load fun d => copyBody file (acc ++ ((file d).drop acc.length).take n) ns

/-- The two copies of `BackupOne`. -/
def backupBody (dataReads crcReads : List ℕ) : Body Disk Disk :=
  (copyBody Disk.data [] dataReads).bind fun data => (copyBody Disk.crc [] crcReads).bind fun crc => .ret ⟨data, crc⟩

end Bodies

section Exec

variable (μ : Memory) (P : Platform) (sys : Sys) (m : MMKV) (d : Disk)

lemma exec_loadBody : (loadBody m).exec d = (d, m.loadData d) := by
  rw [loadBody, Body.exec_load, MMKV.loadData]
  cases parseMeta d.crc with
  | error e => rfl
  | ok mi =>
    simp only
    split <;> rfl

lemma exec_reloadBody (remap : Bool) : (reloadBody sys m remap).exec d = (d, m.reloadBestEffort d sys remap) := by
  have hload : ∀ m : MMKV, ((loadBody m).bind fun r =>
      Body.ret (r.2.elim r.1 fun e => { r.1 with lastErr := some e })).exec d = (d, m.loadBestEffort d) := by
    intro m
    rw [Body.exec_bind, exec_loadBody, MMKV.loadBestEffort]
    obtain ⟨m', e⟩ := m.loadData d
    cases e <;> rfl
  rw [reloadBody, MMKV.reloadBestEffort]
  cases remap with
  | false => exact hload m
  | true =>
    simp only [if_true, Body.exec_load]
    obtain ⟨mf, e⟩ := m.data.remap sys.remap d
    cases e with
    | none => exact hload _
    | some e => rfl

/-- **The probe**, access by access. -/
theorem exec_checkBody : (checkBody sys m).exec d = (d, m.checkLoadData d sys) := by
  rw [checkBody, MMKV.checkLoadData]
  split
  · exact exec_reloadBody ..
  split
  · rfl
  rw [Body.exec_load]
  cases parseMeta d.crc with
  | error e => rfl
  | ok live =>
    simp only
    split
    · rw [Body.exec_bind, exec_reloadBody]
      rfl
    split
    · rw [Body.exec_bind, exec_reloadBody]
      rfl
    · rfl

lemma exec_mutateBody (body : Disk → MMKV → Result) :
    (mutateBody μ sys m body).exec d = (d.apply (m.mutate sys d (body d)).writes, m.mutate sys d (body d)) := by
  rw [mutateBody, MMKV.mutate]
  split
  · rfl
  split
  · rfl
  rw [Body.exec_bind, exec_checkBody, Body.exec_load, Body.exec_stores, foldl_storeSteps]
  rfl

theorem exec_callBody (op : Op) :
    (callBody μ P sys m op).exec d = (d.apply (m.exec P sys d op).writes, m.exec P sys d op) := by
  cases op with
  | sync =>
    simp only [callBody, MMKV.exec, MMKV.syncFlush]
    split
    · rfl
    split <;> rfl
  | clearMemoryCache | enableCompareBeforeSet | disableCompareBeforeSet => rfl
  | _ => exact exec_mutateBody ..

theorem exec_getBody (hclosed : m.closed = false) :
    (getBody sys m).exec d = (d, m.checkLoadData d sys, some ((m.checkLoadData d sys).view sys.now)) := by
  rw [getBody, hclosed, if_neg (by decide), Body.exec_bind, exec_checkBody]
  rfl

lemma exec_copyBody (file : Disk → Bytes) (ns : List ℕ) {acc : Bytes} (hacc : acc = (file d).take acc.length) :
    (copyBody file acc ns).exec d = (d, file d) := by
  induction ns generalizing acc with
  | nil =>
    rw [copyBody, Body.exec_load, Body.exec_ret]
    nth_rewrite 1 [hacc]
    rw [List.take_append_drop]
  | cons n ns ih =>
    rw [copyBody, Body.exec_load, ih]
    -- what was read and the next piece are again the start of the file
    have hnext : acc ++ ((file d).drop acc.length).take n = (file d).take (acc.length + n) := by
      nth_rewrite 1 [hacc]
      rw [List.take_add]
    rw [hnext, List.length_take, ← List.take_take, List.take_length]

/-- **A backup**, whatever the sizes of its reads. -/
theorem exec_backupBody (dataReads crcReads : List ℕ) : (backupBody dataReads crcReads).exec d = (d, d) := by
  rw [backupBody, Body.exec_bind, exec_copyBody d _ _ rfl, Body.exec_bind, exec_copyBody d _ _ rfl]
  rfl

end Exec

/-! ### What a getter and a backup do not do -/

section ReadOnly

variable (sys : Sys) (m : MMKV)

lemma readOnly_loadBody : (loadBody m).ReadOnly := by
  intro d
  simp only
  cases parseMeta d.crc with
  | error e => trivial
  | ok mi =>
    simp only
    split
    · trivial
    · exact fun _ => trivial

lemma readOnly_reloadBody (remap : Bool) : (reloadBody sys m remap).ReadOnly := by
  have hload : ∀ m : MMKV, ((loadBody m).bind fun r =>
      Body.ret (r.2.elim r.1 fun e => { r.1 with lastErr := some e })).ReadOnly :=
    fun m => (readOnly_loadBody m).bind fun _ => trivial
  rw [reloadBody]
  cases remap with
  | false => exact hload m
  | true =>
    intro d
    simp only
    obtain ⟨mf, e⟩ := m.data.remap sys.remap d
    cases e with
    | none => exact hload _
    | some e => trivial

theorem readOnly_checkBody : (checkBody sys m).ReadOnly := by
  rw [checkBody]
  split
  · exact readOnly_reloadBody ..
  split
  · trivial
  intro d
  simp only
  cases parseMeta d.crc with
  | error e => trivial
  | ok live =>
    simp only
    split
    · exact (readOnly_reloadBody ..).bind fun _ => trivial
    split
    · exact (readOnly_reloadBody ..).bind fun _ => trivial
    · trivial

lemma readOnly_getBody : (getBody sys m).ReadOnly := by
  rw [getBody]
  split
  · trivial
  · exact (readOnly_checkBody sys m).bind fun _ => trivial

lemma readOnly_copyBody (file : Disk → Bytes) (acc : Bytes) (ns : List ℕ) : (copyBody file acc ns).ReadOnly := by
  induction ns generalizing acc with
  | nil => exact fun _ => trivial
  | cons n ns ih => exact fun _ => ih _

lemma readOnly_backupBody (dataReads crcReads : List ℕ) : (backupBody dataReads crcReads).ReadOnly :=
  (readOnly_copyBody ..).bind fun _ => (readOnly_copyBody ..).bind fun _ => trivial

end ReadOnly

/-! ### The counters of a lock whose requests are granted -/

section Counters

variable (l : FileLock)

lemma lock_exclusive : (answered none (l.lock .exclusive)).1 = { l with exclusive := l.exclusive + 1 } := by
  rw [answered_lock]

lemma lock_shared : (answered none (l.lock .shared)).1 = { l with shared := l.shared + 1 } := by
  rw [FileLock.lock]
  split <;> rfl

lemma unlock_shared : (answered none (l.unlock .shared)).1 = { l with shared := l.shared - 1 } := by
  rw [FileLock.unlock]
  split
  · next h =>
    obtain ⟨s, e⟩ := l
    simp only at h
    subst h
    rfl
  · split <;> rfl

lemma unlock_exclusive : (answered none (l.unlock .exclusive)).1 = { l with exclusive := l.exclusive - 1 } := by
  rw [FileLock.unlock]
  split
  · next h =>
    obtain ⟨s, e⟩ := l
    simp only at h
    subst h
    rfl
  · split <;> rfl

/-- The kernel's answer to a request that does not wait. -/
def tryReply (got : Bool) : Option Errno := if got then none else some .wouldBlock

lemma tryLock_exclusive (got : Bool) :
    (answered (tryReply got) (l.tryLock .exclusive)).1 =
      if got = true ∨ 0 < l.exclusive then { l with exclusive := l.exclusive + 1 } else l := by
  rw [FileLock.tryLock, tryReply]
  by_cases he : l.exclusive > 0
  · rw [if_pos he, if_pos (Or.inr he)]
    rfl
  · rw [if_neg he]
    by_cases hs : l.shared > 0
    · rw [decide_eq_true hs]
      cases got <;> simp [he] <;> rfl
    · rw [decide_eq_false hs]
      cases got <;> simp [he] <;> rfl

end Counters

/-! ### The requests -/

/-- An open description of the ".crc" file with its `fileLock`, and the instance that it belongs to, if it is not that of
a backup. -/
structure Proc where
  inst : Option MMKV
  fl : FileLock

/-- What is called on a description. -/
inductive Request where
  | call (op : Op) (sys : Sys)
  /-- A getter. -/
  | get (sys : Sys)
  /-- `Lock` -/
  | lock
  /-- `Unlock` -/
  | unlock
  /-- `TryLock`, and whether the kernel grants what it asks -/
  | tryLock (got : Bool)
  /-- `BackupOne`, and the sizes of its reads -/
  | backup (dataReads crcReads : List ℕ)

/-- What it answers. -/
inductive Answer where
  | done (err : Option Wire.Err)
  /-- What a getter reads from; `none` on a closed instance. -/
  | view (v : Option View)
  | tried (ok : Bool)
  /-- The files that a backup has written. -/
  | copied (d : Disk)
  /-- The description has no instance. -/
  | absent

namespace Request

/-- The reference that a request takes. -/
def enter : Request → Proc → Proc
  | .call .clearMemoryCache _, p | .unlock, p => p
  | .call _ _, p | .lock, p => { p with fl := (answered none (p.fl.lock .exclusive)).1 }
  | .get _, p | .backup _ _, p => { p with fl := (answered none (p.fl.lock .shared)).1 }
  | .tryLock got, p => { p with fl := (answered (tryReply got) (p.fl.tryLock .exclusive)).1 }

/-- The lock after the request has given its reference back. -/
def leave : Request → FileLock → FileLock
  | .call .clearMemoryCache _, l | .lock, l | .tryLock _, l => l
  | .call _ _, l | .unlock, l => (answered none (l.unlock .exclusive)).1
  | .get _, l | .backup _ _, l => (answered none (l.unlock .shared)).1

/-- What a request does with its lock. -/
def body (μ : Memory) (P : Platform) (c : Request) (p : Proc) : Body Disk (Proc × Answer) :=
  match c, p.inst with
  | .call op sys, some m => (callBody μ P sys m op).bind fun r => .ret (⟨some r.m, c.leave p.fl⟩, .done r.err)
  | .get sys, some m => (getBody sys m).bind fun r => .ret (⟨some r.1, c.leave p.fl⟩, .view r.2)
  | .lock, _ | .unlock, _ => .ret (⟨p.inst, c.leave p.fl⟩, .done none)
  | .tryLock _, _ => .ret (⟨p.inst, c.leave p.fl⟩, .tried (decide (0 < p.fl.exclusive)))
  | .backup dataReads crcReads, _ =>
    (backupBody dataReads crcReads).bind fun d => .ret (⟨p.inst, c.leave p.fl⟩, .copied d)
  | .call _ _, none | .get _, none => .ret (⟨p.inst, c.leave p.fl⟩, .absent)

end Request

/-- The requests of the processes, as calls of critical sections. -/
def requests (μ : Memory) (P : Platform) : Calls Disk Proc Request Answer where
  holds p := p.fl.mode
  enter := Request.enter
  body := Request.body μ P

section Lawful

variable {μ : Memory} {P : Platform}

lemma fl_exec_body (c : Request) (p : Proc) (d : Disk) : ((c.body μ P p).exec d).2.1.fl = c.leave p.fl := by
  obtain ⟨inst, fl⟩ := p
  cases inst <;> cases c <;> simp [Request.body]

lemma weaker_exclusive (o : Option Mode) : Weaker o (some .exclusive) := by
  rcases o with - | - | -
  · exact .inl rfl
  · exact .inr (.inr ⟨rfl, rfl⟩)
  · exact .inr (.inl rfl)

lemma enter_call {op : Op} (h : op ≠ .clearMemoryCache) (sys : Sys) (p : Proc) :
    (Request.call op sys).enter p = { p with fl := { p.fl with exclusive := p.fl.exclusive + 1 } } := by
  rw [← lock_exclusive]
  cases op with
  | clearMemoryCache => exact absurd rfl h
  | _ => rfl

lemma readOnly_body_get (sys : Sys) (p : Proc) : ((Request.get sys).body μ P p).ReadOnly := by
  obtain ⟨inst, fl⟩ := p
  cases inst with
  | none => trivial
  | some m => exact (readOnly_getBody sys m).bind fun _ => trivial

lemma body_clearMemoryCache (sys : Sys) (p : Proc) : ∃ a, (Request.call .clearMemoryCache sys).body μ P p = .ret a := by
  obtain ⟨inst, fl⟩ := p
  cases inst with
  | none => exact ⟨_, rfl⟩
  | some m => exact ⟨_, rfl⟩

lemma mode_enter_ne_none (c : Request) (p : Proc) (h : (c.enter p).fl.mode = none) :
    (∃ a, c.body μ P (c.enter p) = .ret a) ∧ c.enter p = p := by
  cases c with
  | call op sys =>
    by_cases hop : op = .clearMemoryCache
    · subst hop
      exact ⟨body_clearMemoryCache sys p, rfl⟩
    · rw [enter_call hop] at h
      simp at h
  | get sys =>
    rw [FileLock.mode_eq_none, Request.enter, lock_shared] at h
    cases h
  | backup dataReads crcReads =>
    rw [FileLock.mode_eq_none, Request.enter, lock_shared] at h
    cases h
  | lock =>
    rw [Request.enter, lock_exclusive] at h
    simp at h
  | unlock => exact ⟨⟨_, rfl⟩, rfl⟩
  | tryLock got =>
    refine ⟨⟨_, rfl⟩, ?_⟩
    rw [Request.enter, tryLock_exclusive] at h ⊢
    split at h
    · simp at h
    · next hn => rw [if_neg hn]

/-- **The requests are lawful**: a request that stores has an exclusive lock, one that loads any lock. -/
theorem requests_lawful (μ : Memory) (P : Platform) : (requests μ P).Lawful where
  pure c p h := (mode_enter_ne_none c p h).1
  reader c p h := by
    cases c with
    | call op sys =>
      by_cases hop : op = .clearMemoryCache
      · subst hop
        obtain ⟨a, ha⟩ := body_clearMemoryCache (μ := μ) (P := P) sys p
        show ((Request.call .clearMemoryCache sys).body μ P p).ReadOnly
        rw [ha]
        trivial
      · have hmode : ((Request.call op sys).enter p).fl.mode = some .shared := h
        rw [enter_call hop] at hmode
        simp at hmode
    | get sys => exact readOnly_body_get sys _
    | backup dataReads crcReads => exact (readOnly_backupBody dataReads crcReads).bind fun _ => trivial
    | lock | unlock | tryLock got => trivial
  weaker c p d := by
    show Weaker ((c.body μ P (c.enter p)).exec d).2.1.fl.mode (c.enter p).fl.mode
    rw [fl_exec_body]
    cases c with
    | call op sys =>
      by_cases hop : op = .clearMemoryCache
      · subst hop
        exact .inr (.inl rfl)
      · rw [enter_call hop, FileLock.mode_succ_exclusive]
        exact weaker_exclusive _
    | get sys | backup dataReads crcReads =>
      simp only [Request.enter, Request.leave, lock_shared, unlock_shared, Nat.add_sub_cancel]
      -- inside a `Lock` section the reference is one more to a lock that stays
      by_cases hheld : 0 < p.fl.shared ∨ 0 < p.fl.exclusive
      · exact .inr (.inl (FileLock.mode_succ_shared hheld).symm)
      · refine .inl (FileLock.mode_eq_none.2 ?_)
        ext <;> simp only <;> omega
    | lock | tryLock got => exact .inr (.inl rfl)
    | unlock =>
      show Weaker ((answered none (p.fl.unlock .exclusive)).1).mode p.fl.mode
      by_cases he : 0 < p.fl.exclusive
      · rw [FileLock.mode_eq_exclusive.2 he]
        exact weaker_exclusive _
      · have hzero : p.fl.exclusive - 1 = p.fl.exclusive := by omega
        rw [unlock_exclusive, hzero]
        exact .inr (.inl rfl)

end Lawful

end MmkvGo.Multi
