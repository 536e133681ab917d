import Mathlib.Data.List.Induction
import MmkvGo.Multi.Sections
import MmkvGo.Store.Reader

/-!
Multi-process instances are linearizable at the granularity of single loads and stores.

The processes of `Multi.Sections` are related, through the library of critical sections, to the same requests run one
after the other in the order in which they got their locks (`oneByOne`): whatever the store holds and whatever fails.
For the plain requests of a plaintext store these are related to the cluster of atomic calls and to its one map
(`Matches`).  A `Ledger` says what every such request is to answer: it knows the one map and the references that `Lock`
took, no file and no write path.
-/

namespace MmkvGo.Multi

open MmkvGo.Lib MmkvGo.Lib.Flock MmkvGo.Lib.Sections MmkvGo.Lock MmkvGo.Wire MmkvGo.Crypt MmkvGo.Store Std

/-! ### What the requests are to answer -/

/-- What an answer tells of the map. -/
inductive Shown where
  | done (err : Option Wire.Err)
  | map (c : Content) (now : UInt32)
  | tried (ok : Bool)
  | copy (c : Option Content)
  | nothing

/-- The map that a reader finds in the files. -/
def contentOf (d : Disk) : Option Content :=
  (buildSnapshot none d).toOption.map fun s => ⟨OrdMap.lookup s.m, s.expire⟩

def Answer.shown : Answer → Shown
  | .done err => .done err
  | .view (some v) => .map ⟨OrdMap.lookup v.dict, v.expire⟩ v.now
  | .tried ok => .tried ok
  | .copied d => .copy (contentOf d)
  | .view none | .absent => .nothing

/-- The one map, the references that `Lock` and `TryLock` took and `Unlock` has not given back, and the answers. -/
structure Ledger (ι : Type) where
  board : Board ι
  depth : ι → ℕ
  log : ι → List Shown

section Ledger

variable {ι : Type} [DecidableEq ι]

/-- The step of the atomic model that a request is. -/
def Request.move (i : ι) : Request → Option (Move ι)
  | .call op sys => some (.call i op sys)
  | .get sys => some (.read i sys)
  | _ => none

/-- The references of a process after a request. -/
def Request.depthAfter (depth : ℕ) : Request → ℕ
  | .lock => depth + 1
  | .unlock => depth - 1
  | .tryLock got => if got = true ∨ 0 < depth then depth + 1 else depth
  | _ => depth

/-- What a request answers when the map is `c`. -/
def Request.reply (c : Content) (depth : ℕ) : Request → Shown
  | .call _ _ | .lock | .unlock => .done none
  | .get sys => .map c sys.now
  | .tryLock got => .tried (got || decide (0 < depth))
  | .backup _ _ => .copy (some c)

/-- One request. -/
def Ledger.step (s : Ledger ι) (x : ι × Request) : Ledger ι where
  board := (x.2.move x.1).elim s.board s.board.step
  depth := Function.update s.depth x.1 (x.2.depthAfter (s.depth x.1))
  log := Function.update s.log x.1 (s.log x.1 ++ [x.2.reply s.board.content (s.depth x.1)])

def Ledger.init (board : Board ι) : Ledger ι := ⟨board, fun _ => 0, fun _ => []⟩

/-- The atomic model after a request. -/
def Cluster.after (P : Platform) (w : Cluster ι) (x : ι × Request) : Cluster ι := (x.2.move x.1).elim w (w.step P)

/-- The condition on a request, in the state in which it gets its lock: that on the calls and getters of a plaintext
store, and that a backup is made of a store that is open. -/
def Request.Plain (P : Platform) (w : Cluster ι) (x : ι × Request) : Prop :=
  match x.2 with
  | .call op sys => (Move.call x.1 op sys).Plain P w
  | .get sys => (Move.read x.1 sys).Plain P w
  | .backup _ _ => ∃ j m, w.inst j = some m
  | .lock | .unlock | .tryLock _ => True

/-- The processes of a cluster, none of them in a call. -/
def Cluster.procs (w : Cluster ι) : ι → Proc := fun i => ⟨w.inst i, ⟨0, 0⟩⟩

end Ledger

/-! ### One request after the other -/

section Match

variable {ι : Type} {μ : Memory} {P : Platform}

/-- The requests run one after the other, the atomic model and the ledger agree. -/
structure Matches (P : Platform) (a : Seq ι Disk Proc Answer) (w : Cluster ι) (s : Ledger ι) : Prop where
  disk : a.shared = w.disk
  inst : ∀ i, (a.loc i).inst = w.inst i
  fl : ∀ i, (a.loc i).fl = ⟨0, s.depth i⟩
  linear : Linear P w s.board
  log : ∀ i, (a.log i).map Answer.shown = s.log i

lemma matches_init {w : Cluster ι} {board : Board ι} (h : Linear P w board) :
    Matches P (Seq.init w.disk w.procs) w (Ledger.init board) :=
  ⟨rfl, fun _ => rfl, fun _ => rfl, h, fun _ => rfl⟩

lemma contentOf_image {d : Disk} {mi : MetaInfo} {dict : Dict} (h : Image none d mi dict) :
    contentOf d = some ⟨OrdMap.lookup dict, mi.expireEnabled⟩ := by
  have hsize := h.readable.current.actualSize_eq
  have hbuild : buildSnapshot none d = .ok ⟨mi, dict, expiresOf mi⟩ :=
    buildSnapshot_of_intact h.readable.intact (by rw [hsize]; exact h.decoded)
  rw [contentOf, hbuild, expiresOf, h.readable.current.expire_eq]
  rfl

lemma Linear.exec_err {w : Cluster ι} {s : Board ι} {i : ι} {m : MMKV} {op : Op} {sys : Sys} (h : Linear P w s)
    (hm : w.inst i = some m) (hsys : sys.OK) (hset : ∀ v, op ≠ .set [] v)
    (hlt : accesses op = true → m.readOnly = false ∧
      4 + (op.regionAfter sys w.disk (m.checkLoadData w.disk sys)).length < 2 ^ 32) :
    (m.exec P sys w.disk op).err = none := by
  obtain ⟨⟨mi, dict, hserved⟩, hr, hbehind⟩ := h
  have htells := tells_of_behind hserved hr (hbehind i)
  have hshared := (hserved.follows i m hm).toShared
  cases hop : accesses op with
  | true =>
    have hcrypt := (hserved.upToDate hm htells hsys.remap).crypt
    exact (hserved.exec_effect hm htells hsys (hlt hop).1 (Op.good_of_plaintext hset hcrypt) (hlt hop).2 hop).err
  | false =>
    cases op with
    | sync => simp [MMKV.exec, MMKV.syncFlush, hshared.closed, MMKV.flush, msync, hsys.syncData, hsys.syncMeta]
    | clearMemoryCache | enableCompareBeforeSet | disableCompareBeforeSet => rfl
    | _ => cases hop

variable [DecidableEq ι] {a : Seq ι Disk Proc Answer} {w : Cluster ι} {s : Ledger ι} {i : ι}

/-- The requests run one after the other, the model and the ledger after a request of `i` that leaves the files `d`, its
process `p` and the answer `y`. -/
lemma Matches.update {c : Request} {d : Disk} {p : Proc} {y : Answer} (h : Matches P a w s)
    (hexec : (c.body μ P (c.enter (a.loc i))).exec a.shared = (d, p, y)) (hdisk : (w.after P (i, c)).disk = d)
    (hinst : (w.after P (i, c)).inst = Function.update w.inst i p.inst) (hfl : p.fl = ⟨0, c.depthAfter (s.depth i)⟩)
    (hlinear : Linear P (w.after P (i, c)) ((c.move i).elim s.board s.board.step))
    (hshown : y.shown = c.reply s.board.content (s.depth i)) :
    Matches P (a.step (requests μ P) (i, c)) (w.after P (i, c)) (s.step (i, c)) := by
  have hstep : a.step (requests μ P) (i, c) =
      ⟨d, Function.update a.loc i p, Function.update a.log i (a.log i ++ [y])⟩ := by
    simp only [Seq.step, requests, hexec]
  rw [hstep]
  refine ⟨hdisk.symm, fun j => ?_, fun j => ?_, hlinear, fun j => ?_⟩ <;> by_cases hj : j = i
  · subst hj
    simp [hinst]
  · simp [hinst, Function.update_of_ne hj, h.inst j]
  · subst hj
    simp [Ledger.step, hfl]
  · simp [Ledger.step, Function.update_of_ne hj, h.fl j]
  · subst hj
    simp [Ledger.step, h.log j, hshown]
  · simp [Ledger.step, Function.update_of_ne hj, h.log j]

lemma Matches.aside {c : Request} {p : Proc} {y : Answer} (h : Matches P a w s) (hmove : c.move i = none)
    (hexec : (c.body μ P (c.enter (a.loc i))).exec a.shared = (a.shared, p, y)) (hinst : p.inst = (a.loc i).inst)
    (hfl : p.fl = ⟨0, c.depthAfter (s.depth i)⟩) (hshown : y.shown = c.reply s.board.content (s.depth i)) :
    Matches P (a.step (requests μ P) (i, c)) (w.after P (i, c)) (s.step (i, c)) := by
  have hafter : w.after P (i, c) = w := by
    simp only [Cluster.after, hmove]
    rfl
  refine h.update hexec (by rw [hafter, h.disk]) ?_ hfl (by rw [hafter, hmove]; exact h.linear) hshown
  rw [hafter, hinst, h.inst i, Function.update_eq_self]

lemma leave_enter_call (op : Op) (sys : Sys) (p : Proc) :
    (Request.call op sys).leave ((Request.call op sys).enter p).fl = p.fl := by
  by_cases hop : op = .clearMemoryCache
  · subst hop
    rfl
  · have hleave : ∀ l, (Request.call op sys).leave l = (answered none (l.unlock .exclusive)).1 := by
      intro l
      cases op with
      | clearMemoryCache => exact absurd rfl hop
      | _ => rfl
    rw [hleave, enter_call hop, unlock_exclusive]
    rfl

lemma leave_enter_get (sys : Sys) (p : Proc) : (Request.get sys).leave ((Request.get sys).enter p).fl = p.fl := by
  rw [Request.leave, Request.enter, unlock_shared, lock_shared]
  rfl

lemma inst_enter (c : Request) (p : Proc) : (c.enter p).inst = p.inst := by
  cases c with
  | call op sys => cases op <;> rfl
  | _ => rfl

lemma exec_body_call {op : Op} {sys : Sys} {p : Proc} {m : MMKV} (hinst : p.inst = some m) (d : Disk) :
    ((Request.call op sys).body μ P ((Request.call op sys).enter p)).exec d =
      (d.apply (m.exec P sys d op).writes, ⟨some (m.exec P sys d op).m, p.fl⟩, .done (m.exec P sys d op).err) := by
  have hinst' : ((Request.call op sys).enter p).inst = some m := by rw [inst_enter, hinst]
  simp only [Request.body, hinst', Body.exec_bind, exec_callBody, Body.exec_ret, leave_enter_call]

lemma Matches.call {op : Op} {sys : Sys} (h : Matches P a w s) (hok : Request.Plain P w (i, .call op sys)) :
    Matches P (a.step (requests μ P) (i, .call op sys)) (w.after P (i, .call op sys)) (s.step (i, .call op sys)) := by
  have hplain : (Move.call i op sys).Plain P w := hok
  obtain ⟨-, hsys, hset, -, m, hm, hlt⟩ := hplain
  have hstep : w.after P (i, .call op sys) = w.step P (.call i op sys) := rfl
  rw [Cluster.step_call_eq P hm] at hstep
  refine h.update (d := w.disk.apply (m.exec P sys w.disk op).writes)
    (p := ⟨some (m.exec P sys w.disk op).m, (a.loc i).fl⟩) (y := .done (m.exec P sys w.disk op).err) ?_ ?_ ?_ ?_
    (step_linear h.linear hok) ?_
  · rw [exec_body_call ((h.inst i).trans hm), h.disk]
  · rw [hstep]
    rfl
  · rw [hstep]
    rfl
  · exact h.fl i
  · rw [h.linear.exec_err hm hsys hset hlt]
    rfl

lemma Matches.get {sys : Sys} (h : Matches P a w s) (hok : Request.Plain P w (i, .get sys)) :
    Matches P (a.step (requests μ P) (i, .get sys)) (w.after P (i, .get sys)) (s.step (i, .get sys)) := by
  have hplain : (Move.read i sys).Plain P w := hok
  obtain ⟨-, hsys, m, hm⟩ := hplain
  obtain ⟨⟨mi, dict, hserved⟩, hr, hbehind⟩ := h.linear
  have hclosed := (hserved.follows i m hm).closed
  obtain ⟨hcontent, -⟩ := hserved.serves hm (tells_of_behind hserved hr (hbehind i)) hsys
  have hinst : ((Request.get sys).enter (a.loc i)).inst = some m := by rw [inst_enter, h.inst i, hm]
  have hget : (m.get sys w.disk (fun _ => ()) ()).1 = m.checkLoadData w.disk sys := by simp [MMKV.get, hclosed]
  have hstep : w.after P (i, .get sys) = w.put i w.disk (some (m.checkLoadData w.disk sys)) true := by
    show w.step P (.read i sys) = _
    rw [Cluster.step, hm, ← hget]
  refine h.update (d := w.disk) (p := ⟨some (m.checkLoadData w.disk sys), (a.loc i).fl⟩)
    (y := .view (some ((m.checkLoadData w.disk sys).view sys.now))) ?_ (by rw [hstep]; rfl) (by rw [hstep]; rfl)
    (h.fl i) (step_linear h.linear hok) ?_
  · simp only [Request.body, hinst, Body.exec_bind, exec_getBody sys m _ hclosed, Body.exec_ret, leave_enter_get, h.disk]
  · exact congrArg (fun c => Shown.map c sys.now) hcontent

lemma Matches.backup {dataReads crcReads : List ℕ} (h : Matches P a w s)
    (hok : Request.Plain P w (i, .backup dataReads crcReads)) :
    Matches P (a.step (requests μ P) (i, .backup dataReads crcReads)) (w.after P (i, .backup dataReads crcReads))
      (s.step (i, .backup dataReads crcReads)) := by
  obtain ⟨j, m, hm⟩ := hok
  obtain ⟨⟨mi, dict, hserved⟩, -, -⟩ := h.linear
  refine h.aside (p := a.loc i) (y := .copied a.shared) rfl ?_ rfl (h.fl i) ?_
  · simp only [Request.body, Body.exec_bind, exec_backupBody, Body.exec_ret, Request.enter, Request.leave, lock_shared,
      unlock_shared, Nat.add_sub_cancel]
  · rw [Answer.shown, h.disk, contentOf_image (hserved.holds j m hm).1, ← hserved.content]
    rfl

lemma Matches.reference {c : Request} (h : Matches P a w s)
    (hc : c = .lock ∨ c = .unlock ∨ ∃ got, c = .tryLock got) :
    Matches P (a.step (requests μ P) (i, c)) (w.after P (i, c)) (s.step (i, c)) := by
  have hfl := h.fl i
  rcases hc with rfl | rfl | ⟨got, rfl⟩
  · refine h.aside (p := Request.lock.enter (a.loc i)) (y := .done none) rfl rfl rfl ?_ rfl
    rw [Request.enter, lock_exclusive, hfl]
    rfl
  · refine h.aside (p := ⟨(a.loc i).inst, Request.unlock.leave (a.loc i).fl⟩) (y := .done none) rfl rfl rfl ?_ rfl
    rw [Request.leave, unlock_exclusive, hfl]
    rfl
  · have henter : (Request.tryLock got).enter (a.loc i) =
        { a.loc i with fl := ⟨0, (Request.tryLock got).depthAfter (s.depth i)⟩ } := by
      rw [Request.enter, tryLock_exclusive, hfl, Request.depthAfter]
      split <;> rfl
    refine h.aside (p := (Request.tryLock got).enter (a.loc i))
      (y := .tried (decide (0 < ((Request.tryLock got).enter (a.loc i)).fl.exclusive))) rfl rfl rfl (by rw [henter]) ?_
    rw [henter, Answer.shown, Request.reply, Request.depthAfter]
    cases got <;> by_cases hd : 0 < s.depth i <;> simp [hd]

theorem Matches.step {x : ι × Request} (h : Matches P a w s) (hok : Request.Plain P w x) :
    Matches P (a.step (requests μ P) x) (w.after P x) (s.step x) := by
  obtain ⟨i, c⟩ := x
  cases c with
  | call op sys => exact h.call hok
  | get sys => exact h.get hok
  | backup dataReads crcReads => exact h.backup hok
  | lock => exact h.reference (.inl rfl)
  | unlock => exact h.reference (.inr (.inl rfl))
  | tryLock got => exact h.reference (.inr (.inr ⟨got, rfl⟩))

/-- **Whole runs**, one request after the other. -/
theorem Matches.run {xs : List (ι × Request)} (h : Matches P a w s)
    (hxs : Along (Request.Plain P) (Cluster.after P) w xs) :
    Matches P (Lib.run (Seq.step (requests μ P)) a xs) (Lib.run (Cluster.after P) w xs) (Lib.run Ledger.step s xs) := by
  induction xs generalizing a w s with
  | nil => exact h
  | cons x xs ih => exact ih (h.step hxs.1) hxs.2

end Match

/-! ### Interleaved accesses -/

/-- The processes of `w₀` after the moves `ms`. -/
def interleaved {ι : Type} [DecidableEq ι] (μ : Memory) (P : Platform) (w₀ : Cluster ι)
    (ms : List (Sections.Move ι Request)) : Sections.World ι Disk Proc Request Answer :=
  run (World.step (requests μ P)) (World.idle w₀.disk w₀.procs) ms

/-- The same processes after the requests `xs`, one after the other. -/
def oneByOne {ι : Type} [DecidableEq ι] (μ : Memory) (P : Platform) (w₀ : Cluster ι) (xs : List (ι × Request)) :
    Seq ι Disk Proc Answer :=
  run (Seq.step (requests μ P)) (Seq.init w₀.disk w₀.procs) xs

/-- The processes `w₀` have a plaintext store open that holds the map of `board`, and the requests `xs` of theirs are
plain: no empty key, no failing system call, no region of 4 GiB. -/
structure Plaintext {ι : Type} [DecidableEq ι] (P : Platform) (w₀ : Cluster ι) (board : Board ι)
    (xs : List (ι × Request)) : Prop where
  opened : ∃ d mi dict acts, Stored none d mi dict ∧ Along (Move.Plain P) (Cluster.step P) (Cluster.init d) acts ∧
    w₀ = run (Cluster.step P) (Cluster.init d) acts ∧
    board = run Board.step (Board.init ⟨OrdMap.lookup dict, mi.expireEnabled⟩) acts
  plain : Along (Request.Plain P) (Cluster.after P) w₀ xs

section Interleaved

variable {ι : Type} [DecidableEq ι] {μ : Memory} {P : Platform} {w₀ : Cluster ι} {ms : List (Sections.Move ι Request)}

/-- **A cluster after any run of a plaintext store.** -/
lemma run_linear {d : Disk} {mi : MetaInfo} {dict : Dict} {acts : List (Move ι)} (hstored : Stored none d mi dict)
    (hacts : Along (Move.Plain P) (Cluster.step P) (Cluster.init d) acts) :
    Linear P (run (Cluster.step P) (Cluster.init d) acts)
      (run Board.step (Board.init ⟨OrdMap.lookup dict, mi.expireEnabled⟩) acts) :=
  hacts.simulation (fun _ _ _ => step_linear) ⟨⟨mi, dict, served_init hstored⟩, rfl, fun _ _ _ => by simp [Cluster.init]⟩

lemma Plaintext.linear {board : Board ι} {xs : List (ι × Request)} (h : Plaintext P w₀ board xs) : Linear P w₀ board := by
  obtain ⟨d, mi, dict, acts, hstored, hacts, rfl, rfl⟩ := h.opened
  exact run_linear hstored hacts

lemma Plaintext.agrees {board : Board ι} {xs : List (ι × Request)} (h : Plaintext P w₀ board xs) :
    Matches P (oneByOne μ P w₀ xs) (run (Cluster.after P) w₀ xs) (run Ledger.step (Ledger.init board) xs) :=
  (matches_init h.linear).run h.plain

lemma sim_run (hms : Along (World.Enabled (requests μ P)) (World.step (requests μ P)) (World.idle w₀.disk w₀.procs) ms) :
    Sim (requests μ P) (interleaved μ P w₀ ms) (oneByOne μ P w₀ (points ms)) :=
  (sim_idle fun _ => rfl).run (requests_lawful μ P) hms

/-- **Multi-process instances are linearizable, load by load and store by store.**  Processes make calls, and the loads
and stores of these interleave as their locks allow.  Whatever the files hold and whatever fails, every process gets the
answers of the same calls made one after the other in the order in which they got their locks, and one more stands in
that order at most, of its call that is not over; when no call is in progress, the files are those of that order.
The plain calls of a plaintext store answer so from one map, which the files hold. -/
theorem interleaved_linearizable
    (hms : Along (World.Enabled (requests μ P)) (World.step (requests μ P)) (World.idle w₀.disk w₀.procs) ms) :
    let w := interleaved μ P w₀ ms
    let one := oneByOne μ P w₀ (points ms)
    (∀ i, ∃ more, one.log i = w.log i ++ more ∧ more.length ≤ 1 ∧ ((∀ c p, w.phase i ≠ .inside c p) → more = [])) ∧
    ((∀ i c p, w.phase i ≠ .inside c p) → one.shared = w.shared) ∧
    ∀ board, Plaintext P w₀ board (points ms) →
      let ledger := run Ledger.step (Ledger.init board) (points ms)
      (∀ i, (one.log i).map Answer.shown = ledger.log i) ∧
        ∃ mi dict, Stored none one.shared mi dict ∧ ledger.board.content = ⟨OrdMap.lookup dict, mi.expireEnabled⟩ := by
  have hsim := sim_run hms
  refine ⟨hsim.log_more, fun hquiet => hsim.quiet fun i c p hp => absurd hp (hquiet i c p), fun board hplain => ?_⟩
  have hmatch := hplain.agrees (μ := μ)
  obtain ⟨⟨mi, dict, hserved⟩, -, -⟩ := hmatch.linear
  refine ⟨hmatch.log, mi, dict, ?_, hserved.content⟩
  rw [hmatch.disk]
  exact hserved.stored

/-! ### The references of the locks -/

/-- The references that the requests of `i` leave it with. -/
def depthOf (i : ι) (xs : List (ι × Request)) : ℕ :=
  xs.foldl (fun depth x => if x.1 = i then x.2.depthAfter depth else depth) 0

/-- The counters while a request is served that found `n` references of `Lock` and `TryLock`. -/
def Request.during (n : ℕ) : Request → FileLock
  | .call .clearMemoryCache _ | .unlock => ⟨0, n⟩
  | .call _ _ | .lock => ⟨0, n + 1⟩
  | .get _ | .backup _ _ => ⟨1, n⟩
  | .tryLock got => ⟨0, (Request.tryLock got).depthAfter n⟩

lemma depthOf_snoc (i : ι) (xs : List (ι × Request)) (x : ι × Request) :
    depthOf i (xs ++ [x]) = if x.1 = i then x.2.depthAfter (depthOf i xs) else depthOf i xs := by
  rw [depthOf, List.foldl_append]
  rfl

omit [DecidableEq ι] in
lemma points_snoc (ms : List (Sections.Move ι Request)) (m : Sections.Move ι Request) :
    points (ms ++ [m]) = points ms ++ m.point.toList := by
  rw [points, List.filterMap_append]
  cases h : m.point <;> simp [points, h]

lemma fl_enter (c : Request) (p : Proc) {n : ℕ} (h : p.fl = ⟨0, n⟩) : (c.enter p).fl = c.during n := by
  cases c with
  | call op sys =>
    by_cases hop : op = .clearMemoryCache
    · subst hop
      exact h
    · rw [enter_call hop, h]
      cases op with
      | clearMemoryCache => exact absurd rfl hop
      | _ => rfl
  | get sys | backup dataReads crcReads =>
    rw [Request.enter, lock_shared, h]
    rfl
  | lock =>
    rw [Request.enter, lock_exclusive, h]
    rfl
  | unlock => exact h
  | tryLock got =>
    rw [Request.enter, tryLock_exclusive, h, Request.during, Request.depthAfter]
    split <;> rfl

lemma fl_request (c : Request) (p : Proc) {n : ℕ} (h : p.fl = ⟨0, n⟩) :
    c.leave (c.enter p).fl = ⟨0, c.depthAfter n⟩ := by
  cases c with
  | call op sys => exact (leave_enter_call op sys p).trans h
  | get sys => exact (leave_enter_get sys p).trans h
  | backup dataReads crcReads =>
    rw [Request.leave, Request.enter, unlock_shared, lock_shared, h]
    rfl
  | lock =>
    rw [Request.leave, Request.enter, lock_exclusive, h]
    rfl
  | unlock =>
    rw [Request.leave, Request.enter, unlock_exclusive, h]
    rfl
  | tryLock got =>
    rw [Request.leave, Request.enter, tryLock_exclusive, h, Request.depthAfter]
    split <;> rfl

lemma fl_oneByOne (xs : List (ι × Request)) (i : ι) : ((oneByOne μ P w₀ xs).loc i).fl = ⟨0, depthOf i xs⟩ := by
  induction xs using List.reverseRecOn with
  | nil => rfl
  | append_singleton xs x ih =>
    obtain ⟨j, c⟩ := x
    rw [oneByOne, run_append, run_cons, run_nil, depthOf_snoc]
    by_cases hj : j = i
    · subst hj
      rw [if_pos rfl]
      simp only [Seq.step, requests, Function.update_self]
      rw [fl_exec_body]
      exact fl_request c _ ih
    · rw [if_neg hj]
      simp only [Seq.step, Function.update_of_ne (Ne.symm hj)]
      exact ih

section References

variable (hms : Along (World.Enabled (requests μ P)) (World.step (requests μ P)) (World.idle w₀.disk w₀.procs) ms)

include hms

lemma fl_outside {i : ι} (hout : ∀ c p, (interleaved μ P w₀ ms).phase i ≠ .inside c p) :
    ((interleaved μ P w₀ ms).loc i).fl = ⟨0, depthOf i (points ms)⟩ := by
  rw [← ((sim_run hms).outside i hout).1]
  exact fl_oneByOne (points ms) i

lemma fl_inside {i : ι} {c : Request} {p : Body Disk (Proc × Answer)}
    (hin : (interleaved μ P w₀ ms).phase i = .inside c p) :
    ∃ n, depthOf i (points ms) = c.depthAfter n ∧ ((interleaved μ P w₀ ms).loc i).fl = c.during n := by
  induction ms using List.reverseRecOn generalizing p with
  | nil => cases hin
  | append_singleton ms m ih =>
    obtain ⟨hms₁, hok', -⟩ := along_append.1 hms
    have hok : (interleaved μ P w₀ ms).Enabled (requests μ P) m := hok'
    have hstep : interleaved μ P w₀ (ms ++ [m]) = (interleaved μ P w₀ ms).step (requests μ P) m := by
      rw [interleaved, run_append]
      rfl
    rw [hstep] at hin ⊢
    rw [points_snoc]
    have hpoints : m.point = none → points ms ++ m.point.toList = points ms := by
      intro hnone
      rw [hnone]
      exact List.append_nil _
    cases m with
    | call j c' =>
      have hji : i ≠ j := by
        rintro rfl
        simp only [Sections.World.step, Function.update_self, reduceCtorEq] at hin
      simp only [Sections.World.step, Function.update_of_ne hji] at hin ⊢
      rw [hpoints rfl]
      exact ih hms₁ hin
    | enter j c' =>
      rw [show (Sections.Move.enter j c').point.toList = [(j, c')] from rfl, depthOf_snoc]
      by_cases hji : i = j
      · -- its counters are those of a process outside
        subst hji
        have hwaits : (interleaved μ P w₀ ms).phase i = .waits c' := hok.1
        have hfl := fl_outside hms₁ (World.outside_of_waits hwaits)
        rw [if_pos rfl]
        simp only [Sections.World.step, Function.update_self, Phase.inside.injEq] at hin ⊢
        obtain ⟨rfl, -⟩ := hin
        exact ⟨_, rfl, fl_enter c' _ hfl⟩
      · rw [if_neg (Ne.symm hji)]
        simp only [Sections.World.step, Function.update_of_ne hji] at hin ⊢
        exact ih hms₁ hin
    | act j =>
      obtain ⟨c', p', hp'⟩ := hok
      rw [hpoints rfl]
      rw [World.step_act hp'] at hin ⊢
      by_cases hji : i = j
      · subst hji
        simp only [Function.update_self, Phase.inside.injEq] at hin
        obtain ⟨rfl, -⟩ := hin
        exact ih hms₁ hp'
      · simp only [Function.update_of_ne hji] at hin
        exact ih hms₁ hin
    | leave j =>
      obtain ⟨c', x, y, hp'⟩ := hok
      rw [hpoints rfl]
      rw [World.step_leave hp'] at hin ⊢
      have hji : i ≠ j := by
        rintro rfl
        simp at hin
      simp only [Function.update_of_ne hji] at hin ⊢
      exact ih hms₁ hin

lemma mode_of_references {i : ι} (hrefs : 0 < depthOf i (points ms)) :
    ((interleaved μ P w₀ ms).loc i).fl.mode = some .exclusive := by
  by_cases hin : ∃ c p, (interleaved μ P w₀ ms).phase i = .inside c p
  · obtain ⟨c, p, hp⟩ := hin
    obtain ⟨n, hdepth, hfl⟩ := fl_inside hms hp
    rw [hdepth] at hrefs
    rw [hfl, FileLock.mode_eq_exclusive]
    cases c with
    | call op sys => cases op <;> first | exact Nat.succ_pos n | exact hrefs
    | lock => exact Nat.succ_pos n
    | unlock => exact Nat.lt_of_lt_of_le hrefs (Nat.sub_le n 1)
    | get sys | backup dataReads crcReads | tryLock got => exact hrefs
  · push Not at hin
    rw [fl_outside hms hin]
    exact FileLock.mode_eq_exclusive.2 hrefs

end References

/-- **The references of the locks are exact.**  Whatever the processes call and however their accesses interleave, a
process that is not inside a call has the references of its `Lock`s and `TryLock`s that its `Unlock`s have not given
back, and none of a getter or of a setter; inside a call it has that call's own one besides.  While a process has an
exclusive reference, no other one has any; and a process whose call asks for a lock has no shared reference, so that
the kernel is never asked to convert a lock. -/
theorem lock_references_exact
    (hms : Along (World.Enabled (requests μ P)) (World.step (requests μ P)) (World.idle w₀.disk w₀.procs) ms) :
    let w := interleaved μ P w₀ ms
    (∀ i, (∀ c p, w.phase i ≠ .inside c p) → (w.loc i).fl = ⟨0, depthOf i (points ms)⟩) ∧
    (∀ i c p, w.phase i = .inside c p → ∃ n, depthOf i (points ms) = c.depthAfter n ∧ (w.loc i).fl = c.during n) ∧
    (∀ i j, j ≠ i → 0 < (w.loc i).fl.exclusive → (w.loc j).fl = ⟨0, 0⟩) ∧
    ∀ pre i c post, ms = pre ++ .enter i c :: post → ((interleaved μ P w₀ pre).loc i).fl.shared = 0 := by
  refine ⟨fun i => fl_outside hms, fun i c p => fl_inside hms, fun i j hji hpos => ?_, ?_⟩
  · have hnone := (sim_run hms).apart i j hji (FileLock.mode_eq_exclusive.2 hpos)
    exact FileLock.mode_eq_none.1 hnone
  · rintro pre i c post rfl
    obtain ⟨hpre, ⟨hwaits, -⟩, -⟩ := along_append.1 hms
    have hwaits' : (interleaved μ P w₀ pre).phase i = .waits c := hwaits
    rw [fl_outside hpre (World.outside_of_waits hwaits')]

/-! ### Between `Lock` and `Unlock` -/

lemma held_of_references {i : ι} {ms₁ ms₂ : List (Sections.Move ι Request)}
    (hms : Along (World.Enabled (requests μ P)) (World.step (requests μ P)) (World.idle w₀.disk w₀.procs) (ms₁ ++ ms₂))
    (hrefs : ∀ n, 0 < depthOf i (points (ms₁ ++ ms₂.take n))) :
    Along (fun w _ => (requests μ P).holds (w.loc i) = some .exclusive) (World.step (requests μ P))
      (interleaved μ P w₀ ms₁) ms₂ := by
  induction ms₂ generalizing ms₁ with
  | nil => trivial
  | cons m ms₂ ih =>
    have hnow : 0 < depthOf i (points ms₁) := by simpa using hrefs 0
    have hnext : interleaved μ P w₀ (ms₁ ++ [m]) = (interleaved μ P w₀ ms₁).step (requests μ P) m := by
      rw [interleaved, run_append]
      rfl
    refine ⟨mode_of_references (along_append.1 hms).1 hnow, ?_⟩
    rw [← hnext]
    refine ih (by simpa using hms) fun n => ?_
    simpa using hrefs (n + 1)

/-- **Between `Lock` and `Unlock` a process is alone.**  From a moment when it is not in a call up to another one, and
as long as it has a reference, the files, its instance, its counters and its answers are those of its own calls made one
after the other from the state at the first moment, whatever the other processes do meanwhile. -/
theorem locked_section_isolated {i : ι} {ms₁ ms₂ : List (Sections.Move ι Request)}
    (hms : Along (World.Enabled (requests μ P)) (World.step (requests μ P)) (World.idle w₀.disk w₀.procs) (ms₁ ++ ms₂))
    (hrefs : ∀ n, 0 < depthOf i (points (ms₁ ++ ms₂.take n)))
    (hbegin : ∀ c p, (interleaved μ P w₀ ms₁).phase i ≠ .inside c p)
    (hend : ∀ c p, (interleaved μ P w₀ (ms₁ ++ ms₂)).phase i ≠ .inside c p) :
    let w₁ := interleaved μ P w₀ ms₁
    let w := interleaved μ P w₀ (ms₁ ++ ms₂)
    let alone := run (Seq.step (requests μ P)) ⟨w₁.shared, w₁.loc, w₁.log⟩
      ((points ms₂).filter fun x => decide (x.1 = i))
    w.shared = alone.shared ∧ w.loc i = alone.loc i ∧ w.log i = alone.log i := by
  obtain ⟨hms₁, hms₂⟩ := along_append.1 hms
  -- the files while `i` has its lock and is outside are those of the calls one after the other
  have hsettled : ∀ ms, Along (World.Enabled (requests μ P)) (World.step (requests μ P)) (World.idle w₀.disk w₀.procs) ms →
      0 < depthOf i (points ms) → (∀ c p, (interleaved μ P w₀ ms).phase i ≠ .inside c p) →
      Seq.SameFor i (oneByOne μ P w₀ (points ms))
        ⟨(interleaved μ P w₀ ms).shared, (interleaved μ P w₀ ms).loc, (interleaved μ P w₀ ms).log⟩ := by
    intro ms hms hpos hout
    have hsim := sim_run hms
    refine ⟨hsim.shared_eq hout fun j hj he => ?_, (hsim.outside i hout).1, (hsim.outside i hout).2⟩
    rw [hsim.apart i j hj (mode_of_references hms hpos)] at he
    cases he
  have hstart := hsettled ms₁ hms₁ (by simpa using hrefs 0) hbegin
  have hfinal := hsettled (ms₁ ++ ms₂) hms (by simpa using hrefs ms₂.length) hend
  have halone := (sim_run hms₁).alone (requests_lawful μ P) hstart hms₂ (held_of_references hms hrefs)
  have hpoints : oneByOne μ P w₀ (points (ms₁ ++ ms₂)) =
      run (Seq.step (requests μ P)) (oneByOne μ P w₀ (points ms₁)) (points ms₂) := by
    rw [oneByOne, points, List.filterMap_append, run_append]
    rfl
  rw [hpoints] at hfinal
  exact ⟨hfinal.shared.symm.trans halone.shared, hfinal.loc.symm.trans halone.loc, hfinal.log.symm.trans halone.log⟩

/-! ### Backups among writers -/

lemma openReader_of_contentOf {d : Disk} {c : Content} (h : contentOf d = some c) :
    ∃ r, Reader.openReader d none = .ok r ∧ (⟨OrdMap.lookup r.snap.m, r.snap.expire⟩ : Content) = c := by
  rw [contentOf] at h
  cases hbuild : buildSnapshot none d with
  | error e =>
    rw [hbuild] at h
    cases h
  | ok snap =>
    rw [hbuild] at h
    have hlen : ¬ d.crc.length < metaSize := by
      intro hlt
      rw [buildSnapshot, parseMeta, if_pos hlt] at hbuild
      cases hbuild
    refine ⟨⟨none, snap, snap.info.crcDigest, snap.info.actualSize, snap.info.sequence, none⟩, ?_, Option.some.inj h⟩
    rw [Reader.openReader, if_neg hlen, Reader.reload]
    simp only [hbuild]

lemma copied_of_exec {c : Request} {p : Proc} {d copy : Disk} (h : .copied copy = ((c.body μ P p).exec d).2.2) :
    (∃ dataReads crcReads, c = .backup dataReads crcReads) ∧ copy = d := by
  obtain ⟨inst, fl⟩ := p
  cases c with
  | backup dataReads crcReads =>
    simp only [Request.body, Body.exec_bind, exec_backupBody, Body.exec_ret, Answer.copied.injEq] at h
    exact ⟨⟨_, _, rfl⟩, h⟩
  | call op sys | get sys | lock | unlock | tryLock got => cases inst <;> simp [Request.body] at h

/-- **A backup made among writers is one state of the store.**  A `BackupOne` that is done while other processes call,
whatever the sizes of its reads and whatever comes between them, has copied the files that the calls left that got their
locks before it, and nothing of the others.  When these are the plain calls of a plaintext store, a reader opens on the
copy and has the map of those calls. -/
theorem backup_is_consistent
    (hms : Along (World.Enabled (requests μ P)) (World.step (requests μ P)) (World.idle w₀.disk w₀.procs) ms)
    {i : ι} {copy : Disk} (hcopy : .copied copy ∈ (interleaved μ P w₀ ms).log i) :
    ∃ pre dataReads crcReads post, points ms = pre ++ (i, .backup dataReads crcReads) :: post ∧
      copy = (oneByOne μ P w₀ pre).shared ∧
      ∀ board, Plaintext P w₀ board (points ms) →
        ∃ r, Reader.openReader copy none = .ok r ∧ (⟨OrdMap.lookup r.snap.m, r.snap.expire⟩ : Content) =
          (run Ledger.step (Ledger.init board) pre).board.content := by
  obtain ⟨more, hlog, -⟩ := (sim_run hms).log_more i
  have hmem : .copied copy ∈ (oneByOne μ P w₀ (points ms)).log i := by
    rw [hlog]
    exact List.mem_append_left _ hcopy
  obtain ⟨pre, c, post, hpoints, hanswer⟩ := mem_log_run hmem List.not_mem_nil
  obtain ⟨⟨dataReads, crcReads, rfl⟩, rfl⟩ := copied_of_exec hanswer
  refine ⟨pre, dataReads, crcReads, post, hpoints, rfl, fun board hplain => openReader_of_contentOf ?_⟩
  -- the store is open when the backup gets its lock, so that the files hold the map
  obtain ⟨hpre, ⟨j, m, hm⟩, -⟩ := along_append.1 (hpoints ▸ hplain.plain)
  have hmatch := (matches_init hplain.linear).run (μ := μ) hpre
  obtain ⟨⟨mi, dict, hserved⟩, -, -⟩ := hmatch.linear
  have hdisk : (oneByOne μ P w₀ pre).shared = (run (Cluster.after P) w₀ pre).disk := hmatch.disk
  show contentOf (oneByOne μ P w₀ pre).shared = _
  rw [hdisk, contentOf_image (hserved.holds j m hm).1, ← hserved.content]

end Interleaved

/-! ### Two processes at work -/

section Undisturbed

variable {ι : Type} [DecidableEq ι] {μ : Memory} {P : Platform} {w₀ : Cluster ι} {ms : List (Sections.Move ι Request)}

lemma interleaved_undisturbed {i : ι} {c : Request}
    (hms : Along (World.Enabled (requests μ P)) (World.step (requests μ P)) (World.idle w₀.disk w₀.procs) ms)
    (hok : (interleaved μ P w₀ ms).Enabled (requests μ P) (.enter i c)) :
    let w := interleaved μ P w₀ ms
    let out := (c.body μ P (c.enter (w.loc i))).exec w.shared
    Along (World.Enabled (requests μ P)) (World.step (requests μ P)) (World.idle w₀.disk w₀.procs)
        (ms ++ w.undisturbed (requests μ P) i c) ∧
      interleaved μ P w₀ (ms ++ w.undisturbed (requests μ P) i c) =
        ⟨out.1, Function.update w.loc i out.2.1, Function.update w.phase i .idle,
          Function.update w.log i (w.log i ++ [out.2.2])⟩ := by
  obtain ⟨halong, hrun⟩ := run_undisturbed hok
  refine ⟨along_append.2 ⟨hms, halong⟩, ?_⟩
  rw [interleaved, run_append]
  exact hrun

omit [DecidableEq ι] in
lemma points_undisturbed (w : Sections.World ι Disk Proc Request Answer) (i : ι) (c : Request) :
    points (w.undisturbed (requests μ P) i c) = [(i, c)] := by
  have hacts : ∀ n, points (List.replicate n (Sections.Move.act i : Sections.Move ι Request)) = [] := by
    intro n
    induction n with
    | zero => rfl
    | succ n ih => exact ih
  rw [World.undisturbed, points, List.filterMap_cons]
  simp only [Move.point, List.filterMap_append]
  rw [show (List.replicate _ (Sections.Move.act i : Sections.Move ι Request)).filterMap Move.point = [] from hacts _]
  rfl

end Undisturbed

/-- The set of the first process. -/
def setA : Request := .call (.set [97] (.bool true)) calm

/-- A backup begins, and the set has to wait until it is done. -/
def backupFirst : List (Sections.Move Bool Request) :=
  [.call false (.backup [] []), .enter false (.backup [] []), .call true setA, .act false, .act false, .leave false]

/-- Then the set runs to its end. -/
def backupThenSet (w₀ : Cluster Bool) : List (Sections.Move Bool Request) :=
  backupFirst ++ (interleaved wordwise linux w₀ backupFirst).undisturbed (requests wordwise linux) true setA

lemma backupFirst_enabled (w₀ : Cluster Bool) : Along (World.Enabled (requests wordwise linux))
    (World.step (requests wordwise linux)) (World.idle w₀.disk w₀.procs) backupFirst :=
  ⟨rfl, ⟨rfl, fun _ _ => .inr fun _ _ => .inl rfl⟩, rfl, ⟨_, _, rfl⟩, ⟨_, _, rfl⟩, ⟨_, _, _, rfl⟩, trivial⟩

lemma interleaved_backupFirst (w₀ : Cluster Bool) :
    let w := interleaved wordwise linux w₀ backupFirst
    w.phase true = .waits setA ∧ w.phase false = .idle ∧ w.log false = [.copied w₀.disk] ∧
      (w.loc false).fl.mode = none := by
  refine ⟨rfl, rfl, ?_, rfl⟩
  show [Answer.copied ((backupBody [] []).exec w₀.disk).2] = _
  rw [exec_backupBody]

lemma backupThenSet_enabled (w₀ : Cluster Bool) :
    let w := interleaved wordwise linux w₀ (backupThenSet w₀)
    Along (World.Enabled (requests wordwise linux)) (World.step (requests wordwise linux))
        (World.idle w₀.disk w₀.procs) (backupThenSet w₀) ∧
      (∀ i c p, w.phase i ≠ .inside c p) ∧ w.log false = [.copied w₀.disk] := by
  obtain ⟨hwaits, hidle, hcopy, hfree⟩ := interleaved_backupFirst w₀
  obtain ⟨halong, hrun⟩ := interleaved_undisturbed (backupFirst_enabled w₀) (i := true) (c := setA)
    ⟨hwaits, fun t _ => .inr fun j hj => .inl (by cases j with | false => exact hfree | true => exact absurd rfl hj)⟩
  refine ⟨halong, ?_, ?_⟩
  · intro i c p
    rw [backupThenSet, hrun]
    cases i with
    | false =>
      intro h
      cases hidle.symm.trans h
    | true => nofun
  · rw [backupThenSet, hrun]
    exact hcopy

lemma points_backupThenSet (w₀ : Cluster Bool) :
    points (backupThenSet w₀) = [(false, .backup [] []), (true, setA)] := by
  rw [backupThenSet, points, List.filterMap_append]
  exact congrArg ([(false, Request.backup [] [])] ++ ·) (points_undisturbed ..)

/-- The board of two processes that opened a store which was not there. -/
def bothBoard : Board Bool := run Board.step (Board.init .empty) [.start true shared calm, .start false shared calm]

lemma bothOpen_plaintext :
    Plaintext linux bothOpen bothBoard [(false, .backup [] []), (true, setA)] := by
  obtain ⟨hstart, hstart', hset, -⟩ := openBothAndSet_plain
  rw [opened_twice] at hset
  refine ⟨⟨⟨[], []⟩, blankMeta, ∅, [.start true shared calm, .start false shared calm], .inr ⟨blank_absent, rfl, rfl⟩,
    ⟨hstart, hstart', trivial⟩, ?_, rfl⟩, ⟨true, _, rfl⟩, hset, trivial⟩
  rw [run_cons, run_cons, run_nil, opened_twice]

/-- **The backup and the set are done**, the one with the map from before the set, and the files hold the value. -/
theorem backupThenSet_linearizable :
    let w := interleaved wordwise linux bothOpen (backupThenSet bothOpen)
    (w.log true).map Answer.shown = [.done none] ∧ (w.log false).map Answer.shown = [.copy (some .empty)] ∧
      ∃ mi dict, Stored none w.shared mi dict ∧ OrdMap.lookup dict [97] = some [1] := by
  intro w
  obtain ⟨henabled, hout, -⟩ := backupThenSet_enabled bothOpen
  obtain ⟨hlog, hshared, hmap⟩ := interleaved_linearizable henabled
  obtain ⟨hledger, mi, dict, hstored, hcontent⟩ := hmap bothBoard (by rw [points_backupThenSet]; exact bothOpen_plaintext)
  rw [points_backupThenSet] at hledger hcontent
  have hanswers : ∀ i, (w.log i).map Answer.shown = (run Ledger.step (Ledger.init bothBoard)
      [(false, .backup [] []), (true, setA)]).log i := by
    intro i
    obtain ⟨more, hmore, -, hnone⟩ := hlog i
    rw [hnone (hout i), List.append_nil] at hmore
    rw [← hledger i, ← points_backupThenSet bothOpen, hmore]
  refine ⟨hanswers true, hanswers false, mi, dict, ?_, (congrFun (congrArg Content.slots hcontent) [97]).symm⟩
  rw [← hshared hout]
  exact hstored

/-- The copy holds the map from before the set. -/
theorem backupThenSet_copies :
    ∃ r, Reader.openReader bothOpen.disk none = .ok r ∧ OrdMap.lookup r.snap.m = fun _ => none := by
  obtain ⟨henabled, -, hlog⟩ := backupThenSet_enabled bothOpen
  have hcopied : .copied bothOpen.disk ∈ (interleaved wordwise linux bothOpen (backupThenSet bothOpen)).log false := by
    rw [hlog]
    exact List.mem_singleton_self _
  obtain ⟨pre, dataReads, crcReads, post, hpoints, -, hread⟩ := backup_is_consistent henabled hcopied
  have hplain := bothOpen_plaintext
  rw [← points_backupThenSet bothOpen] at hplain
  obtain ⟨r, hopen, hr⟩ := hread bothBoard hplain
  -- nothing got its lock before the backup
  have hpre : pre = [] := by
    rw [points_backupThenSet] at hpoints
    cases pre with
    | nil => rfl
    | cons x pre =>
      have htail := congrArg List.tail hpoints
      cases pre with
      | nil => cases htail
      | cons y pre => cases pre <;> cases htail
  subst hpre
  exact ⟨r, hopen, congrArg Content.slots hr⟩

/-- The first process takes the lock. -/
def takeLock : List (Sections.Move Bool Request) := [.call true .lock, .enter true .lock, .leave true]

/-- The second one tries it in vain and waits with a getter, and the first one begins to read. -/
def tryThenRead : List (Sections.Move Bool Request) :=
  [.call false (.tryLock false), .enter false (.tryLock false), .leave false, .call false (.get calm), .call true (.get calm),
    .enter true (.get calm)]

lemma tryThenRead_enabled (w₀ : Cluster Bool) : Along (World.Enabled (requests wordwise linux))
    (World.step (requests wordwise linux)) (World.idle w₀.disk w₀.procs) (takeLock ++ tryThenRead) := by
  refine ⟨rfl, ⟨rfl, fun t _ => .inr fun j _ => .inl rfl⟩, ⟨_, _, _, rfl⟩, rfl, ⟨rfl, fun t ht => ?_⟩, ⟨_, _, _, rfl⟩, rfl,
    rfl, ⟨rfl, fun t ht => .inl ht⟩, trivial⟩
  cases ht

/-- The second one tries it in vain and waits with a getter, and the first one is about to set a key. -/
def tryThenCall : List (Sections.Move Bool Request) :=
  [.call false (.tryLock false), .enter false (.tryLock false), .leave false, .call false (.get calm), .call true setA]

/-- The set runs to its end. -/
def lockedSet (w₀ : Cluster Bool) : List (Sections.Move Bool Request) :=
  tryThenCall ++
    (interleaved wordwise linux w₀ (takeLock ++ tryThenCall)).undisturbed (requests wordwise linux) true setA

lemma lockedSet_enabled (w₀ : Cluster Bool) :
    Along (World.Enabled (requests wordwise linux)) (World.step (requests wordwise linux))
        (World.idle w₀.disk w₀.procs) (takeLock ++ lockedSet w₀) ∧
      (interleaved wordwise linux w₀ (takeLock ++ lockedSet w₀)).phase true = .idle := by
  have hcalls : Along (World.Enabled (requests wordwise linux)) (World.step (requests wordwise linux))
      (World.idle w₀.disk w₀.procs) (takeLock ++ tryThenCall) := by
    refine ⟨rfl, ⟨rfl, fun _ _ => .inr fun _ _ => .inl rfl⟩, ⟨_, _, _, rfl⟩, rfl, ⟨rfl, fun t ht => ?_⟩, ⟨_, _, _, rfl⟩, rfl,
      rfl, trivial⟩
    cases ht
  obtain ⟨halong, hrun⟩ := interleaved_undisturbed hcalls (i := true) (c := setA) ⟨rfl, fun t ht => .inl ht⟩
  rw [List.append_assoc] at halong hrun
  refine ⟨halong, ?_⟩
  rw [lockedSet, hrun]
  rfl

lemma points_lockedSet (w₀ : Cluster Bool) : points (lockedSet w₀) = [(false, .tryLock false), (true, setA)] := by
  rw [lockedSet, points, List.filterMap_append]
  exact congrArg ([(false, Request.tryLock false)] ++ ·) (points_undisturbed ..)

lemma lockedSet_references (w₀ : Cluster Bool) (n : ℕ) :
    0 < depthOf true (points (takeLock ++ (lockedSet w₀).take n)) := by
  have hpoints : points (takeLock ++ (lockedSet w₀).take n) = (true, .lock) :: points ((lockedSet w₀).take n) := by
    rw [points, List.filterMap_append]
    rfl
  obtain ⟨k, hk⟩ : ∃ k, points ((lockedSet w₀).take n) = [(false, .tryLock false), (true, setA)].take k := by
    rw [← points_lockedSet w₀]
    exact ⟨_, List.prefix_iff_eq_take.1 ((List.take_prefix n _).filterMap _)⟩
  rw [hpoints, hk]
  rcases k with _ | _ | k <;> simp [depthOf, Request.depthAfter, setA]

lemma alone_lockedSet (w₀ : Cluster Bool) :
    let w₁ := interleaved wordwise linux w₀ takeLock
    let alone := run (Seq.step (requests wordwise linux)) ⟨w₁.shared, w₁.loc, w₁.log⟩
      ([(false, Request.tryLock false), (true, setA)].filter fun x => decide (x.1 = true))
    let out := (setA.body wordwise linux (setA.enter ⟨w₀.inst true, ⟨0, 1⟩⟩)).exec w₀.disk
    alone.shared = out.1 ∧ alone.log true = [.done none, out.2.2] :=
  ⟨rfl, rfl⟩

/-- **The set of the process that has the lock is done**, as if the other one had tried nothing. -/
theorem takeLock_isolated :
    let w := interleaved wordwise linux bothOpen (takeLock ++ lockedSet bothOpen)
    w.shared = shared.firstDisk linux calm [97] (.bool true) ∧ w.log true = [.done none, .done none] := by
  obtain ⟨henabled, hidle⟩ := lockedSet_enabled bothOpen
  obtain ⟨hshared, -, hlog⟩ := locked_section_isolated henabled (i := true) (lockedSet_references bothOpen)
    (fun c p h => by cases h) (fun c p h => by rw [hidle] at h; cases h)
  rw [points_lockedSet] at hshared hlog
  obtain ⟨hset, hdisk, -⟩ := first_set (P := linux) (show shared.readOnly = false from rfl) calm_ok [97] (.bool true)
    (by simp) (by decide)
  have hdisk' : bothOpen.disk.apply ((shared.fresh linux).exec linux calm bothOpen.disk
      (.set [97] (.bool true))).writes = shared.firstDisk linux calm [97] (.bool true) := hdisk
  have herr : ((shared.fresh linux).exec linux calm bothOpen.disk (.set [97] (.bool true))).err = none :=
    congrArg Result.err hset
  have hexec : (setA.body wordwise linux (setA.enter ⟨bothOpen.inst true, ⟨0, 1⟩⟩)).exec bothOpen.disk = _ :=
    exec_body_call (m := shared.fresh linux) rfl bothOpen.disk
  rw [hdisk', herr] at hexec
  obtain ⟨hfiles, hanswers⟩ := alone_lockedSet bothOpen
  exact ⟨hshared.trans (hfiles.trans (congrArg Prod.fst hexec)),
    hlog.trans (hanswers.trans (congrArg (fun r => [.done none, r.2.2]) hexec))⟩

/-- In its getter, the process that has the lock has one reference of each kind, the other one none. -/
theorem takeLock_references :
    let w := interleaved wordwise linux bothOpen (takeLock ++ tryThenRead)
    (w.loc true).fl = ⟨1, 1⟩ ∧ (w.loc false).fl = ⟨0, 0⟩ := by
  obtain ⟨-, hinside, hapart, -⟩ := lock_references_exact (tryThenRead_enabled bothOpen)
  obtain ⟨n, hdepth, hfl⟩ := hinside true _ _ rfl
  have hn : 1 = n := hdepth
  subst hn
  exact ⟨hfl, hapart true false (by decide) (by rw [hfl]; decide)⟩

end MmkvGo.Multi
