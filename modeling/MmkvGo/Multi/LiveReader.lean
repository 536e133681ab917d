import MmkvGo.Multi.Interleaved
import MmkvGo.Multi.Stamp

/-!
A `Reader` beside the processes that write the store.

The processes run as in `Multi.Interleaved`, load by load and store by store.  Beside them the goroutines of one
`Reader` call its getters: `ensureFresh` probes the mapped meta without a lock, and only when it differs from the
published snapshot takes `reloadMu`, probes again, takes a shared lock on the meta file, builds a snapshot and
publishes it with its three words, one store after the other, before it gives the lock back.

`live_reader_current` says that this is as good as a lock, on a memory in which a writer's new sequence number is seen
no later than its new size: what a getter reads from is the map of the store at some moment between its begin and its
end, and two reads of which one follows the other never go back in time.
-/

namespace MmkvGo.Multi

open MmkvGo.Lib MmkvGo.Lib.Canary MmkvGo.Lib.Sections MmkvGo.Lib.Flock MmkvGo.Wire MmkvGo.Crypt MmkvGo.Store MmkvGo.Lock

/-- The map of a snapshot. -/
def snapContent (x : Store.Snapshot) : Content := ⟨OrdMap.lookup x.m, x.expire⟩

/-- The processes and the reader; the cluster and the ledger are those processes one call at a time, `hist` is the map
after each section that had the exclusive lock, and `done` the number of those sections that are over. -/
structure Live (ι γ : Type) where
  world : World ι Disk Proc Request Answer
  reader : Reading Disk UInt32 Store.Snapshot γ
  cluster : Cluster ι
  ledger : Ledger ι
  hist : List Content
  done : ℕ

/-- What a process or a goroutine of the reader does next. -/
inductive LiveMove (ι γ : Type) where
  | process (m : Sections.Move ι Request)
  | goroutine (a : Act (List ℕ) γ)

section Step

variable {ι γ : Type} [DecidableEq ι] [DecidableEq γ] (μ : Memory) (P : Platform)

/-- A section begins with the exclusive lock. -/
def beginsWriting (w : World ι Disk Proc Request Answer) : Sections.Move ι Request → Bool
  | .enter i c => (c.enter (w.loc i)).fl.mode = some .exclusive
  | _ => false

/-- A section ends that has the exclusive lock. -/
def endsWriting (w : World ι Disk Proc Request Answer) : Sections.Move ι Request → Bool
  | .leave i => (w.loc i).fl.mode = some .exclusive
  | _ => false

def Live.step (L : Live ι γ) : LiveMove ι γ → Live ι γ
  | .process m =>
    let ledger := m.point.elim L.ledger L.ledger.step
    { world := L.world.step (requests μ P) m
      reader := L.reader
      cluster := m.point.elim L.cluster (L.cluster.after P)
      ledger := ledger
      hist := if beginsWriting L.world m then L.hist ++ [ledger.board.content] else L.hist
      done := if endsWriting L.world m then L.hist.length - 1 else L.done }
  | .goroutine a =>
    { L with reader := L.reader.step (stamp none) L.world.shared L.done (L.hist.length - 1) a }

/-- The condition on a step: the kernel grants the exclusive lock only while the reader has no lock, and a lock to the
reader only while no process has the exclusive one; the calls are plain, and fewer than 2^32 of them write. -/
def Live.OK (L : Live ι γ) : LiveMove ι γ → Prop
  | .process m => L.world.Enabled (requests μ P) m ∧ (beginsWriting L.world m = true → L.reader.locked = false) ∧
      (∀ x, m.point = some x → Request.Plain P L.cluster x) ∧ (L.step μ P (.process m)).hist.length ≤ 2 ^ 32
  | .goroutine a => L.reader.Enabled (∀ j, (L.world.loc j).fl.mode ≠ some .exclusive) a

/-- A reader that was opened on the files of the cluster. -/
def Live.init (w : Cluster ι) (board : Board ι) (x : Store.Snapshot) : Live ι γ :=
  ⟨World.idle w.disk w.procs, Reading.opened (stamp none) x 0, w, Ledger.init board, [board.content], 0⟩

end Step

/-! ### The words of the meta tell the versions apart -/

/-- How a call changes what a snapshot is built from. -/
def Succeeds (x y : Store.Snapshot) : Prop :=
  y = x ∨ y.info.sequence = x.info.sequence ∧ x.info.actualSize.toNat < y.info.actualSize.toNat ∨
    y.info.sequence = x.info.sequence + 1

/-- The sequence number counts the write-backs; where there was none the size did not shrink, and stayed only with the
whole snapshot. -/
lemma sequence_of_chain {content : ℕ → Store.Snapshot} {p n : ℕ} (hp : p ≤ n)
    (h : ∀ i, i < n → Succeeds (content i) (content (i + 1))) :
    ∃ k, k ≤ n - p ∧ (content n).info.sequence = (content p).info.sequence + UInt32.ofNat k ∧
      (k = 0 → ∀ v, p ≤ v → v ≤ n → (content p).info.actualSize.toNat ≤ (content v).info.actualSize.toNat ∧
        ((content p).info.actualSize = (content v).info.actualSize → content p = content v)) := by
  induction n, hp using Nat.le_induction with
  | base =>
    refine ⟨0, Nat.zero_le _, by simp, fun _ v hv hv' => ?_⟩
    rw [Nat.le_antisymm hv' hv]
    exact ⟨Nat.le_refl _, fun _ => rfl⟩
  | succ n hp ih =>
    obtain ⟨k, hk, hseq, hsize⟩ := ih fun i hi => h i (by omega)
    rcases h n (by omega) with heq | ⟨hsame, hlt⟩ | hnext
    · refine ⟨k, by omega, by rw [heq, hseq], fun hk0 v hv hv' => ?_⟩
      rcases Nat.lt_or_ge n v with hlt | hle
      · rw [show v = n + 1 by omega, heq]
        exact hsize hk0 n hp (Nat.le_refl n)
      · exact hsize hk0 v hv hle
    · refine ⟨k, by omega, by rw [hsame, hseq], fun hk0 v hv hv' => ?_⟩
      rcases Nat.lt_or_ge n v with hnv | hle
      · have hle := (hsize hk0 n hp (Nat.le_refl n)).1
        rw [show v = n + 1 by omega]
        exact ⟨by omega, fun he => absurd (congrArg UInt32.toNat he) (by omega)⟩
      · exact hsize hk0 v hv hle
    · refine ⟨k + 1, by omega, ?_, fun hk0 => absurd hk0 (Nat.succ_ne_zero k)⟩
      rw [hnext, hseq, UInt32.ofNat_add, UInt32.add_assoc]
      rfl

/-- **The words tell the versions apart** as long as there are fewer than 2^32. -/
theorem tells_of_chain {content : ℕ → Store.Snapshot} {n : ℕ} (hn : n < 2 ^ 32)
    (h : ∀ i, i < n → Succeeds (content i) (content (i + 1))) : (stamp none).Tells content n := by
  intro p v v' hp hv hv' hsize hera
  obtain ⟨k, hk, hseq, hsame⟩ := sequence_of_chain (Nat.le_trans hp hv) fun i hi => h i (by omega)
  have hk0 : k = 0 := by
    have hzero : UInt32.ofNat k = 0 := by
      have : (content p).info.sequence = (content p).info.sequence + UInt32.ofNat k := hera.trans hseq
      simpa using this
    have := congrArg UInt32.toNat hzero
    rw [UInt32.toNat_ofNat_of_lt' (by simp only [UInt32.size]; omega)] at this
    exact this
  exact (hsame hk0 v hp hv).2 hsize

/-! ### What one call does to the versions -/

/-- The snapshot of files that hold `dict` under `mi`. -/
def snapOf (mi : MetaInfo) (dict : Dict) : Store.Snapshot := ⟨mi, dict, mi.expireEnabled⟩

section Versions

variable {d d' : Disk} {mi mi' : MetaInfo} {dict dict' : Dict}

lemma buildSnapshot_of_image (h : Image none d mi dict) : buildSnapshot none d = .ok (snapOf mi dict) := by
  have hsize := h.readable.current.actualSize_eq
  rw [buildSnapshot_of_intact h.readable.intact (by rw [hsize]; exact h.decoded), expiresOf,
    h.readable.current.expire_eq, snapOf]

lemma succeeds_of_evolves (hev : Evolves true d mi d' mi') (h : Image none d mi dict) (h' : Image none d' mi' dict') :
    Succeeds (snapOf mi dict) (snapOf mi' dict') := by
  cases hev with
  | unchanged hd hmi =>
    subst hd hmi
    rw [(h.unique h').2]
    exact .inl rfl
  | appended pair hpair hdata hroom hsize hmi =>
    have hpos := List.length_pos_iff.2 hpair
    refine .inr (.inl ⟨by rw [snapOf, snapOf, hmi], ?_⟩)
    simp only [snapOf]
    omega
  | overridden hsingle => cases hsingle
  | rewritten hseq => exact .inr (.inr hseq)

variable {ι : Type} [DecidableEq ι] {P : Platform} {w : Cluster ι} {s : Board ι} {x : ι × Request}

lemma opened_after (h : ∃ j m, w.inst j = some m) : ∃ j m, (w.after P x).inst j = some m := by
  obtain ⟨j, m, hm⟩ := h
  obtain ⟨i, c⟩ := x
  have hput : ∀ d m' seen, ∃ j m, (w.put i d (some m') seen).inst j = some m :=
    fun d m' seen => ⟨i, m', Cluster.put_inst_self ..⟩
  cases c with
  | call op sys =>
    cases hi : w.inst i with
    | none =>
      refine ⟨j, m, ?_⟩
      simpa only [Cluster.after, Request.move, Option.elim_some, Cluster.step, hi] using hm
    | some m' =>
      simp only [Cluster.after, Request.move, Option.elim_some, Cluster.step, hi]
      exact hput _ _ _
  | get sys =>
    cases hi : w.inst i with
    | none =>
      refine ⟨j, m, ?_⟩
      simpa only [Cluster.after, Request.move, Option.elim_some, Cluster.step, hi] using hm
    | some m' =>
      simp only [Cluster.after, Request.move, Option.elim_some, Cluster.step, hi]
      exact hput _ _ _
  | lock | unlock | tryLock got | backup dataReads crcReads => exact ⟨j, m, hm⟩

/-- **A request takes the files to the next version**, or leaves them as they are. -/
theorem Linear.succeeds (h : Linear P w s) (hopen : ∃ j m, w.inst j = some m) (hplain : Request.Plain P w x)
    (himage : Image none w.disk mi dict) :
    ∃ mi' dict', Image none (w.after P x).disk mi' dict' ∧ Succeeds (snapOf mi dict) (snapOf mi' dict') := by
  obtain ⟨⟨mi₀, dict₀, hserved⟩, hr, hbehind⟩ := h
  obtain ⟨j, m, hm⟩ := hopen
  obtain ⟨rfl, rfl⟩ := (hserved.holds j m hm).1.unique himage
  have hsame : (w.after P x).disk = w.disk → ∃ mi' dict', Image none (w.after P x).disk mi' dict' ∧
      Succeeds (snapOf mi dict) (snapOf mi' dict') := fun he => ⟨mi, dict, by rw [he]; exact himage, .inl rfl⟩
  obtain ⟨i, c⟩ := x
  cases c with
  | call op sys =>
    have hok := Move.Plain.ok hserved hr hbehind hplain
    cases hop : accesses op with
    | true =>
      obtain ⟨mi', dict', hserved', hev⟩ := step_call hserved hop hok
      obtain ⟨j', m', hm'⟩ := opened_after (P := P) (x := (i, .call op sys)) ⟨j, m, hm⟩
      have himage' := (hserved'.holds j' m' hm').1
      exact ⟨mi', dict', himage', succeeds_of_evolves hev himage himage'⟩
    | false =>
      obtain ⟨-, -, -, m', hm', -⟩ := hok
      refine hsame ?_
      have hwrites := ((hserved.follows i m' hm').setting hop P sys).1
      show (w.step P (.call i op sys)).disk = w.disk
      rw [Cluster.step_call_eq P hm', hwrites]
      rfl
  | get sys =>
    obtain ⟨-, -, m', hm'⟩ := hplain
    refine hsame ?_
    show (w.step P (.read i sys)).disk = w.disk
    rw [Cluster.step, hm']
    rfl
  | lock | unlock | tryLock got | backup dataReads crcReads => exact hsame rfl

omit [DecidableEq ι] in
lemma Linear.content_eq (h : Linear P w s) (hopen : ∃ j m, w.inst j = some m) (himage : Image none w.disk mi dict) :
    s.content = snapContent (snapOf mi dict) := by
  obtain ⟨⟨mi₀, dict₀, hserved⟩, -, -⟩ := h
  obtain ⟨j, m, hm⟩ := hopen
  obtain ⟨rfl, rfl⟩ := himage.unique (hserved.holds j m hm).1
  exact hserved.content

end Versions

/-- A section, whatever the request: the words go from those before it to those after it in their order. -/
lemma climbs_body {μ : Memory} (hμ : μ.SequenceFirst) {P : Platform} {d : Disk} {x y : Store.Snapshot} (c : Request) (p : Proc)
    (hx : parseMeta d.crc = .ok x.info) (hy : parseMeta ((c.body μ P p).exec d).1.crc = .ok y.info) :
    (stamp none).Climbs x y 0 (c.body μ P p) d := by
  have hshows : (stamp none).Shows x y 0 d := words_of_parseMeta none hx
  cases c with
  | call op sys =>
    obtain ⟨inst, fl⟩ := p
    cases inst with
    | none => exact .ret hshows
    | some m =>
      simp only [Request.body, Body.exec_bind, Body.exec_ret, exec_callBody] at hy
      exact (climbs_callBody hμ hx hy).bind_ret
  | get sys => exact climbs_of_readOnly (readOnly_body_get sys p) hshows
  | backup dataReads crcReads =>
    exact climbs_of_readOnly ((readOnly_backupBody dataReads crcReads).bind fun _ => trivial) hshows
  | lock | unlock | tryLock got => exact .ret hshows

/-! ### The invariant -/

section Tracks

variable {ι γ : Type} {μ : Memory} {P : Platform}

/-- The reader's source: the files, with a section that writes them or without. -/
inductive Sourced (L : Live ι γ) (content : ℕ → Store.Snapshot) : Source Disk Store.Snapshot → Prop where
  | quiet (hout : ∀ j c p, L.world.phase j = .inside c p → (L.world.loc j).fl.mode ≠ some .exclusive) :
      Sourced L content (Source.quiet L.world.shared L.done content)
  | writing (j : ι) (c : Request) (p : Body Disk (Proc × Answer)) (k : ℕ) (hphase : L.world.phase j = .inside c p)
      (hmode : (L.world.loc j).fl.mode = some .exclusive)
      (hclimbs : (stamp none).Climbs (content L.done) (content (L.done + 1)) k p L.world.shared) :
      Sourced L content (Source.writing L.world.shared L.done k content)

/-- The processes do what they do one call at a time, the versions are those of the files after each section that wrote
them, and the reader keeps to its protocol. -/
structure Tracks (μ : Memory) (P : Platform) (L : Live ι γ) (a : Seq ι Disk Proc Answer) (content : ℕ → Store.Snapshot)
    (src : Source Disk Store.Snapshot) : Prop where
  sim : Sim (requests μ P) L.world a
  agree : Matches P a L.cluster L.ledger
  opened : ∃ j m, L.cluster.inst j = some m
  sourced : Sourced L content src
  length : L.hist.length = src.upto + 1
  bound : L.hist.length ≤ 2 ^ 32
  newest : ∃ mi dict, Image none L.cluster.disk mi dict ∧ content src.upto = snapOf mi dict
  hist : ∀ n, n ≤ src.upto → L.hist[n]? = some (snapContent (content n))
  chain : ∀ n, n < src.upto → Succeeds (content n) (content (n + 1))
  inv : Inv (stamp none) src L.reader

variable {L : Live ι γ} {a : Seq ι Disk Proc Answer} {content : ℕ → Store.Snapshot} {src : Source Disk Store.Snapshot}

lemma Sourced.state (h : Sourced L content src) : src.state = L.world.shared := by cases h <;> rfl

lemma Sourced.ver (h : Sourced L content src) : src.ver = L.done := by cases h <;> rfl

lemma Sourced.versions (h : Sourced L content src) : src.content = content := by cases h <;> rfl

theorem Tracks.good (h : Tracks μ P L a content src) : src.Good (stamp none) := by
  have htells : (stamp none).Tells content src.upto := by
    have hlength := h.length
    have hbound := h.bound
    exact tells_of_chain (by omega) h.chain
  obtain ⟨mi, dict, himage, hnew⟩ := h.newest
  cases h.sourced with
  | quiet hout =>
    have hdisk : L.cluster.disk = L.world.shared := h.agree.disk.symm.trans (h.sim.quiet hout)
    rw [hdisk] at himage
    have hparse : parseMeta L.world.shared.crc = .ok (content L.done).info := by
      rw [show content L.done = snapOf mi dict from hnew]
      exact himage.parse
    have hwords := words_of_parseMeta none hparse
    refine good_quiet hwords.1 hwords.2 (fun reads => ⟨readOnly_buildBody none reads, ?_⟩) htells
    show ((buildBody none reads).exec L.world.shared).2 = _
    rw [exec_buildBody, buildSnapshot_of_image himage, show content L.done = snapOf mi dict from hnew]
    rfl
  | writing j c p k hphase hmode hclimbs => exact good_writing hclimbs.shows htells

lemma Tracks.aside (h : Tracks μ P L a content src) {L' : Live ι γ} {a' : Seq ι Disk Proc Answer}
    (hsim : Sim (requests μ P) L'.world a') (hagree : Matches P a' L'.cluster L'.ledger)
    (hopen : ∃ j m, L'.cluster.inst j = some m) (hdisk : L'.cluster.disk = L.cluster.disk)
    (hshared : L'.world.shared = L.world.shared) (hreader : L'.reader = L.reader) (hhist : L'.hist = L.hist)
    (hdone : L'.done = L.done)
    (hphase : ∀ j c p, (L.world.phase j = .inside c p ∧ (L.world.loc j).fl.mode = some .exclusive) ↔
      (L'.world.phase j = .inside c p ∧ (L'.world.loc j).fl.mode = some .exclusive)) :
    Tracks μ P L' a' content src := by
  refine ⟨hsim, hagree, hopen, ?_, by rw [hhist]; exact h.length, by rw [hhist]; exact h.bound, ?_, ?_, h.chain, ?_⟩
  · cases h.sourced with
    | quiet hout =>
      have hq : Sourced L' content (Source.quiet L'.world.shared L'.done content) :=
        .quiet fun j c p hp hm => hout j c p ((hphase j c p).2 ⟨hp, hm⟩).1 ((hphase j c p).2 ⟨hp, hm⟩).2
      rwa [hshared, hdone] at hq
    | writing j c p k hp hm hclimbs =>
      have hw : Sourced L' content (Source.writing L'.world.shared L'.done k content) :=
        .writing j c p k ((hphase j c p).1 ⟨hp, hm⟩).1 ((hphase j c p).1 ⟨hp, hm⟩).2
          (by rw [hshared, hdone]; exact hclimbs)
      rwa [hshared, hdone] at hw
  · rw [hdisk]
    exact h.newest
  · rw [hhist]
    exact h.hist
  · rw [hreader]
    exact h.inv

variable [DecidableEq ι]

lemma Tracks.writer_unique (h : Tracks μ P L a content src) {i j : ι} (hi : (L.world.loc i).fl.mode = some .exclusive)
    (hj : (L.world.loc j).fl.mode = some .exclusive) : i = j := by
  by_contra hne
  have := h.sim.apart j i hne hj
  rw [show (requests μ P).holds (L.world.loc i) = some .exclusive from hi] at this
  cases this

lemma Tracks.call [DecidableEq γ] (h : Tracks μ P L a content src) {i : ι} {c : Request}
    (hok : L.world.Enabled (requests μ P) (.call i c)) :
    Tracks μ P (L.step μ P (.process (.call i c))) a content src := by
  have hidle : L.world.phase i = .idle := hok
  refine h.aside (h.sim.step (requests_lawful μ P) hok) h.agree h.opened rfl rfl rfl rfl rfl fun j c' p => ?_
  by_cases hj : j = i
  · subst hj
    simp only [Live.step, Sections.World.step, Function.update_self, hidle, reduceCtorEq, false_and]
  · simp only [Live.step, Sections.World.step, Function.update_of_ne hj]

lemma Tracks.enterShared [DecidableEq γ] (h : Tracks μ P L a content src) {i : ι} {c : Request}
    (hok : L.world.Enabled (requests μ P) (.enter i c)) (hplain : Request.Plain P L.cluster (i, c))
    (hmode : (c.enter (L.world.loc i)).fl.mode ≠ some .exclusive) :
    Tracks μ P (L.step μ P (.process (.enter i c))) (a.step (requests μ P) (i, c)) content src := by
  have hwaits : L.world.phase i = .waits c := hok.1
  have hbegins : beginsWriting L.world (.enter i c) = false := by simpa [beginsWriting] using hmode
  have hagree := h.agree.step (μ := μ) hplain
  have hloc : a.loc i = L.world.loc i := (h.sim.outside i fun c' p => by rw [hwaits]; simp).1
  have hshared : (a.step (requests μ P) (i, c)).shared = a.shared :=
    (requests_lawful μ P).shared_step (by rw [hloc]; exact hmode)
  refine h.aside (h.sim.step (requests_lawful μ P) hok) hagree (opened_after h.opened) ?_ rfl rfl ?_ rfl
    fun j c' p => ?_
  · exact hagree.disk.symm.trans (hshared.trans h.agree.disk)
  · simp only [Live.step, hbegins, Bool.false_eq_true, if_false]
  · by_cases hj : j = i
    · subst hj
      simp only [Live.step, Sections.World.step, Function.update_self, hwaits, reduceCtorEq, false_and, false_iff, not_and]
      exact fun _ => hmode
    · simp only [Live.step, Sections.World.step, Function.update_of_ne hj]

/-- **A call gets the lock with which it writes**: the version it leaves is the next one. -/
lemma Tracks.enterExclusive [DecidableEq γ] (hμ : μ.SequenceFirst) (h : Tracks μ P L a content src) {i : ι} {c : Request}
    (hok : L.world.Enabled (requests μ P) (.enter i c)) (hplain : Request.Plain P L.cluster (i, c))
    (hmode : (c.enter (L.world.loc i)).fl.mode = some .exclusive) (hlocked : L.reader.locked = false)
    (hbound : (L.step μ P (.process (.enter i c))).hist.length ≤ 2 ^ 32) :
    ∃ content' src', Tracks μ P (L.step μ P (.process (.enter i c))) (a.step (requests μ P) (i, c)) content' src' := by
  have hwaits : L.world.phase i = .waits c := hok.1
  have hbegins : beginsWriting L.world (.enter i c) = true := by simpa [beginsWriting] using hmode
  have hagree := h.agree.step (μ := μ) hplain
  have hloc : a.loc i = L.world.loc i := (h.sim.outside i fun c' p => by rw [hwaits]; simp).1
  have hgood := h.good
  -- nobody else has a lock, so nobody is writing
  have hother : ∀ j, j ≠ i → (L.world.loc j).fl.mode = none := by
    intro j hj
    rcases held_of_grant (fun j => (requests μ P).holds (L.world.loc j)) h.sim.apart (hok.2 _ hmode) hj with hn | hn
    · exact hn
    · cases hn.2
  have hout : ∀ j c p, L.world.phase j = .inside c p → (L.world.loc j).fl.mode ≠ some .exclusive := by
    intro j c' p hp
    by_cases hj : j = i
    · subst hj
      rw [hwaits] at hp
      cases hp
    · rw [hother j hj]
      nofun
  obtain ⟨mi, dict, himage, hnew⟩ := h.newest
  obtain ⟨mi', dict', himage', hsucc⟩ := h.agree.linear.succeeds h.opened hplain himage
  have hcontent := hagree.linear.content_eq (opened_after h.opened) himage'
  have hinv := h.inv
  cases h.sourced with
  | writing j c' p k hphase hexcl => exact absurd hexcl (hout j c' p hphase)
  | quiet =>
    have hdisk : L.world.shared = L.cluster.disk := (h.sim.quiet hout).symm.trans h.agree.disk
    have hold : content L.done = snapOf mi dict := hnew
    have hexec : ((c.body μ P (c.enter (L.world.loc i))).exec L.world.shared).1 = (L.cluster.after P (i, c)).disk := by
      rw [← hagree.disk, ← h.sim.quiet hout, ← hloc]
      rfl
    let content' := Function.update content (L.done + 1) (snapOf mi' dict')
    have hprev : ∀ n, n ≤ L.done → content' n = content n := fun n hn => Function.update_of_ne (by omega) _ _
    have hnext : content' (L.done + 1) = snapOf mi' dict' := Function.update_self ..
    have hlength : L.hist.length = L.done + 1 := h.length
    have hhist : (L.step μ P (.process (.enter i c))).hist = L.hist ++ [snapContent (content' (L.done + 1))] := by
      rw [hnext, ← hcontent]
      simp only [Live.step, hbegins, if_true]
      rfl
    have hx : parseMeta L.world.shared.crc = .ok (content' L.done).info := by
      rw [hprev _ (Nat.le_refl _), hold, hdisk]
      exact himage.parse
    have hy : parseMeta ((c.body μ P (c.enter (L.world.loc i))).exec L.world.shared).1.crc =
        .ok (content' (L.done + 1)).info := by
      rw [hnext, hexec]
      exact himage'.parse
    refine ⟨content', Source.writing L.world.shared L.done 0 content', h.sim.step (requests_lawful μ P) hok, hagree,
      opened_after h.opened, ?_, ?_, hbound, ⟨mi', dict', himage', hnext⟩, fun n hn => ?_, fun n hn => ?_, ?_⟩
    · refine .writing i c _ 0 (Function.update_self ..) ?_ (climbs_body hμ c _ hx hy)
      simp only [Live.step, Sections.World.step, Function.update_self]
      exact hmode
    · rw [hhist, List.length_append, hlength]
      rfl
    · rw [hhist]
      have hn' : n ≤ L.done + 1 := hn
      rcases Nat.lt_or_ge L.done n with hlt | hle
      · rw [show n = L.done + 1 by omega, List.getElem?_append_right (by omega), hlength, Nat.sub_self]
        rfl
      · rw [List.getElem?_append_left (by omega), hprev n hle]
        exact h.hist n hle
    · have hn' : n < L.done + 1 := hn
      rcases Nat.lt_or_ge n L.done with hlt | hge
      · rw [hprev n (by omega), hprev (n + 1) (by omega)]
        exact h.chain n hlt
      · rw [show n = L.done by omega, hprev _ (Nat.le_refl _), hnext, hold]
        exact hsucc
    · exact hinv.advance hgood (by rw [hlocked]; exact advances_begin hprev)

lemma Tracks.act [DecidableEq γ] (h : Tracks μ P L a content src) {i : ι}
    (hok : L.world.Enabled (requests μ P) (.act i)) :
    ∃ src', Tracks μ P (L.step μ P (.process (.act i))) a content src' := by
  obtain ⟨c, p, hp⟩ := hok
  have hok : L.world.Enabled (requests μ P) (.act i) := ⟨c, p, hp⟩
  have hworld : L.world.step (requests μ P) (.act i) = _ := World.step_act hp
  have hsim := h.sim.step (requests_lawful μ P) hok
  have hgood := h.good
  by_cases hmode : (L.world.loc i).fl.mode = some .exclusive
  · -- the section that writes is this one
    have hsourced := h.sourced
    have hinv := h.inv
    cases hsourced with
    | quiet hout => exact absurd hmode (hout i c p hp)
    | writing j c' p' k hphase hexcl hclimbs =>
      obtain rfl := h.writer_unique hexcl hmode
      rw [hp] at hphase
      obtain ⟨rfl, rfl⟩ := Phase.inside.inj hphase
      obtain ⟨k', hle, hclimbs'⟩ := hclimbs.next
      refine ⟨Source.writing (p.next L.world.shared).1 L.done k' content, hsim, h.agree, h.opened, ?_, h.length, h.bound,
        h.newest, h.hist, h.chain, ?_⟩
      · have hnew : Sourced (L.step μ P (.process (.act j))) content
            (Source.writing (L.step μ P (.process (.act j))).world.shared L.done k' content) := by
          refine .writing j c (p.next L.world.shared).2 k' ?_ ?_ ?_
          · simp only [Live.step, hworld, Function.update_self]
          · simpa only [Live.step, hworld] using hmode
          · simpa only [Live.step, hworld, endsWriting, Bool.false_eq_true, if_false] using hclimbs'
        simpa only [Live.step, hworld] using hnew
      · have hfree : L.reader.locked = false := by
          by_contra hl
          have := hinv.locked (by simpa using hl)
          cases this
        exact hinv.advance hgood (by rw [hfree]; exact advances_write hle)
  · have hkeep := (h.sim.inside i c p hp).keeps hmode
    refine ⟨src, h.aside hsim h.agree h.opened rfl ?_ rfl rfl rfl fun j c' p' => ?_⟩
    · simp only [Live.step, hworld, hkeep]
    · simp only [Live.step, hworld]
      by_cases hj : j = i
      · subst hj
        exact iff_of_false (fun e => hmode e.2) (fun e => hmode e.2)
      · rw [Function.update_of_ne hj]

lemma Tracks.leave [DecidableEq γ] (h : Tracks μ P L a content src) {i : ι}
    (hok : L.world.Enabled (requests μ P) (.leave i)) :
    ∃ src', Tracks μ P (L.step μ P (.process (.leave i))) a content src' := by
  obtain ⟨c, x, y, hp⟩ := hok
  have hok : L.world.Enabled (requests μ P) (.leave i) := ⟨c, x, y, hp⟩
  have hworld : L.world.step (requests μ P) (.leave i) = _ := World.step_leave hp
  have hsim := h.sim.step (requests_lawful μ P) hok
  have hgood := h.good
  by_cases hmode : (L.world.loc i).fl.mode = some .exclusive
  · have hends : endsWriting L.world (.leave i) = true := by simpa [endsWriting] using hmode
    have hsourced := h.sourced
    have hinv := h.inv
    cases hsourced with
    | quiet hout => exact absurd hmode (hout i c _ hp)
    | writing j c' p' k hphase hexcl hclimbs =>
      obtain rfl := h.writer_unique hexcl hmode
      have hdone : (L.step μ P (.process (.leave j))).done = L.done + 1 := by
        simp only [Live.step, hends, if_true, h.length]
        rfl
      -- the writer leaves with its version complete, and no goroutine of the reader had the lock
      refine ⟨Source.quiet L.world.shared (L.done + 1) content, hsim, h.agree, h.opened, ?_, h.length, h.bound, h.newest,
        h.hist, h.chain, ?_⟩
      · have hnew : Sourced (L.step μ P (.process (.leave j))) content
            (Source.quiet (L.step μ P (.process (.leave j))).world.shared (L.step μ P (.process (.leave j))).done content) := by
          refine .quiet fun j' c' p' hphase' hexcl' => ?_
          simp only [Live.step, hworld] at hphase' hexcl'
          by_cases hj : j' = j
          · subst hj
            rw [Function.update_self] at hphase'
            cases hphase'
          · rw [Function.update_of_ne hj] at hexcl'
            exact hj (h.writer_unique hexcl' hmode)
        rw [hdone] at hnew
        simpa only [Live.step, hworld] using hnew
      · have hfree : L.reader.locked = false := by
          by_contra hl
          have := hinv.locked (by simpa using hl)
          cases this
        exact hinv.advance hgood (by rw [hfree]; exact advances_end)
  -- the section has written nothing
  · have hends : endsWriting L.world (.leave i) = false := by simpa [endsWriting] using hmode
    refine ⟨src, h.aside hsim h.agree h.opened rfl ?_ rfl rfl ?_ fun j c' p' => ?_⟩
    · simp only [Live.step, hworld]
    · simp only [Live.step, hends, Bool.false_eq_true, if_false]
    · simp only [Live.step, hworld]
      by_cases hj : j = i
      · subst hj
        exact iff_of_false (fun e => hmode e.2) (fun e => by simp at e)
      · rw [Function.update_of_ne hj, Function.update_of_ne hj]

lemma Tracks.goroutine [DecidableEq γ] (h : Tracks μ P L a content src) {act : Act (List ℕ) γ}
    (hok : Live.OK μ P L (.goroutine act)) : Tracks μ P (L.step μ P (.goroutine act)) a content src := by
  have hfree : (∀ j, (L.world.loc j).fl.mode ≠ some .exclusive) → src.busy = false := by
    intro hf
    cases h.sourced with
    | quiet hout => rfl
    | writing j c p k hphase hexcl => exact absurd hexcl (hf j)
  have hinv := h.inv.step h.good hfree hok
  have hupto : src.upto = L.hist.length - 1 := by
    rw [h.length]
    rfl
  rw [h.sourced.state, h.sourced.ver, hupto] at hinv
  refine ⟨h.sim, h.agree, h.opened, ?_, h.length, h.bound, h.newest, h.hist, h.chain, hinv⟩
  cases h.sourced with
  | quiet hout => exact .quiet hout
  | writing j c p k hphase hexcl hclimbs => exact .writing j c p k hphase hexcl hclimbs

theorem Tracks.step [DecidableEq γ] (hμ : μ.SequenceFirst) (h : Tracks μ P L a content src) {m : LiveMove ι γ}
    (hok : Live.OK μ P L m) :
    ∃ a' content' src', Tracks μ P (L.step μ P m) a' content' src' := by
  cases m with
  | goroutine act => exact ⟨a, content, src, h.goroutine hok⟩
  | process m =>
    obtain ⟨hen, hlocked, hplain, hbound⟩ := hok
    cases m with
    | call i c => exact ⟨a, content, src, h.call hen⟩
    | enter i c =>
      have hplain := hplain (i, c) rfl
      by_cases hmode : (c.enter (L.world.loc i)).fl.mode = some .exclusive
      · have hlocked := hlocked (by simpa [beginsWriting] using hmode)
        obtain ⟨content', src', h'⟩ := h.enterExclusive hμ hen hplain hmode hlocked hbound
        exact ⟨_, content', src', h'⟩
      · exact ⟨_, content, src, h.enterShared hen hplain hmode⟩
    | act i =>
      obtain ⟨src', h'⟩ := h.act hen
      exact ⟨a, content, src', h'⟩
    | leave i =>
      obtain ⟨src', h'⟩ := h.leave hen
      exact ⟨a, content, src', h'⟩

/-- **Whole runs.**  No read fails in one without a refused lock. -/
theorem Tracks.run [DecidableEq γ] (hμ : μ.SequenceFirst) {ms : List (LiveMove ι γ)} (h : Tracks μ P L a content src)
    (hms : Along (Live.OK μ P) (Live.step μ P) L ms) :
    (∃ a' content' src', Tracks μ P (Lib.run (Live.step μ P) L ms) a' content' src') ∧
      ((∀ g, .goroutine (.fail g) ∉ ms) → L.reader.Unfailed → (Lib.run (Live.step μ P) L ms).reader.Unfailed) := by
  induction ms generalizing L a content src with
  | nil => exact ⟨⟨a, content, src, h⟩, fun _ hu => hu⟩
  | cons m ms ih =>
    obtain ⟨a', content', src', h'⟩ := h.step hμ hms.1
    obtain ⟨htracks, hunfailed⟩ := ih h' hms.2
    refine ⟨htracks, fun hno hu => hunfailed (fun g hg => hno g (List.mem_cons_of_mem _ hg)) ?_⟩
    cases m with
    | process m => exact hu
    | goroutine act =>
      have hact : ∀ g, act ≠ .fail g := by
        rintro g rfl
        exact hno g List.mem_cons_self
      have hstep := h.inv.unfailed_step hu hact
      have hupto : src.upto = L.hist.length - 1 := by
        rw [h.length]
        rfl
      rw [h.sourced.state, h.sourced.ver, hupto] at hstep
      exact hstep

omit [DecidableEq ι] in
lemma tracks_init {w : Cluster ι} {board : Board ι} {x : Store.Snapshot} (hlinear : Linear P w board)
    (hopen : ∃ j m, w.inst j = some m) (hx : buildSnapshot none w.disk = .ok x) :
    Tracks μ P (Live.init w board x : Live ι γ) (Seq.init w.disk w.procs) (fun _ => x)
      (Source.quiet w.disk 0 fun _ => x) := by
  obtain ⟨mi, dict, himage⟩ : ∃ mi dict, Image none w.disk mi dict := by
    obtain ⟨⟨mi, dict, hserved⟩, -, -⟩ := hlinear
    obtain ⟨j, m, hm⟩ := hopen
    exact ⟨mi, dict, (hserved.holds j m hm).1⟩
  have hsnap : x = snapOf mi dict := Except.ok.inj (hx.symm.trans (buildSnapshot_of_image himage))
  refine ⟨sim_idle fun i => rfl, matches_init hlinear, hopen, .quiet fun j c p hp => ?_, rfl,
    (by decide : 1 ≤ 2 ^ 32),
    ⟨mi, dict, himage, hsnap⟩, fun n hn => ?_, fun n hn => absurd hn (Nat.not_lt_zero n), inv_opened _ _⟩
  · cases hp
  · rw [Nat.le_zero.1 hn, hsnap]
    exact congrArg some (hlinear.content_eq hopen himage)

end Tracks

section Live

variable {ι γ : Type} [DecidableEq ι] [DecidableEq γ] {μ : Memory} {P : Platform}

/-- **A reader beside writers is current.**  Any number of processes call, load by load and store by store, while any
number of goroutines read through one `Reader`, which takes no lock unless its probe finds other words in the meta.
Every read got the map of one version of the store, never that of a write in progress, and in the order in which the
reads end these versions never go back.  A read that was not refused the shared lock got a version that was current at
some moment of the read: not older than the one that was complete at its begin, not newer than one begun at its end. -/
theorem live_reader_current {d : Disk} {mi : MetaInfo} {dict : Dict} {acts : List (Move ι)} {w₀ : Cluster ι} {j₀ : ι}
    {m₀ : MMKV} {r : Reader} {ms : List (LiveMove ι γ)} {board : Board ι} (hμ : μ.SequenceFirst) (hstored : Stored none d mi dict)
    (hacts : Along (Move.Plain P) (Cluster.step P) (Cluster.init d) acts)
    (hw₀ : w₀ = run (Cluster.step P) (Cluster.init d) acts)
    (hboard : board = run Board.step (Board.init ⟨OrdMap.lookup dict, mi.expireEnabled⟩) acts)
    (hopen : w₀.inst j₀ = some m₀) (hr : Reader.openReader w₀.disk none = .ok r)
    (hms : Along (Live.OK μ P) (Live.step μ P) (Live.init w₀ board r.snap) ms) :
    let L := run (Live.step μ P) (Live.init w₀ board r.snap) ms
    (∀ e ∈ L.reader.log, L.hist[e.ver]? = some (snapContent e.snap) ∧
      (e.failed = false → ∃ v, e.since ≤ v ∧ v ≤ e.upto ∧ L.hist[v]? = some (snapContent e.snap))) ∧
    (L.reader.log.map Read.ver).Pairwise (· ≤ ·) ∧
    ((∀ g, .goroutine (.fail g) ∉ ms) → ∀ e ∈ L.reader.log, e.failed = false) := by
  intro L
  have hlinear : Linear P w₀ board := by
    rw [hw₀, hboard]
    exact run_linear hstored hacts
  have hinit : Tracks μ P (Live.init w₀ board r.snap : Live ι γ) _ _ _ :=
    tracks_init hlinear ⟨j₀, m₀, hopen⟩ (buildSnapshot_of_openReader hr)
  obtain ⟨⟨a, content, src, htracks⟩, hunfailed⟩ := hinit.run hμ hms
  have hversions := htracks.sourced.versions
  refine ⟨fun e he => ?_, htracks.inv.sorted, fun hno => (hunfailed hno ⟨fun _ => rfl, nofun⟩).2⟩
  have hsound := htracks.inv.log e he
  have hshown : ∀ v, v ≤ src.upto → e.snap = content v → L.hist[v]? = some (snapContent e.snap) := by
    intro v hv hs
    rw [hs]
    exact htracks.hist v hv
  refine ⟨hshown e.ver ?_ ?_, fun hf => ?_⟩
  · exact Nat.le_trans hsound.ver (Nat.le_trans htracks.inv.snapVer src.ver_le_upto)
  · rw [← hversions]
    exact hsound.snap
  · obtain ⟨v, hsince, hupto, hs⟩ := hsound.current hf
    rw [hversions] at hs
    exact ⟨v, hsince, hupto, hshown v (Nat.le_trans hupto hsound.upto) hs⟩

end Live

/-! ### A read that finds nothing new -/

/-- A getter, from its begin to its end, when the words are as they were. -/
def readOnce : List (LiveMove Bool Unit) := .goroutine (.begin ()) :: List.replicate 7 (.goroutine (.next ()))

lemma readOnce_ok (μ : Memory) (P : Platform) {w : Cluster Bool} (board : Board Bool) {x : Store.Snapshot}
    (hparse : parseMeta w.disk.crc = .ok x.info) :
    Along (Live.OK μ P) (Live.step μ P) (Live.init w board x) readOnce ∧
      (run (Live.step μ P) (Live.init w board x) readOnce).reader.log = [⟨0, 0, 0, x, false⟩] := by
  rw [parseMeta_ok (le_length_of_parseMeta hparse), Except.ok.injEq] at hparse
  have hcrc : getUint32 w.disk.crc offCRC = x.info.crcDigest := congrArg MetaInfo.crcDigest hparse
  have hsize : getUint32 w.disk.crc offActualSize = x.info.actualSize := congrArg MetaInfo.actualSize hparse
  have hera : getUint32 w.disk.crc offSequence = x.info.sequence := congrArg MetaInfo.sequence hparse
  simp [readOnce, List.replicate, Along, Live.OK, Live.step, Live.init, World.idle, Reading.opened, Reading.step,
    Reading.Enabled, Reading.goto, stamp, Pc.fresh, hcrc, hsize, hera]

/-- The reader of a store that was just made reads its map. -/
theorem readOnce_current : ∃ r, Reader.openReader bothOpen.disk none = .ok r ∧ snapContent r.snap = bothBoard.content := by
  obtain ⟨d, mi₀, dict₀, acts, hstored, hacts, hw, hboard⟩ := bothOpen_plaintext.opened
  have hinst : bothOpen.inst true = some (shared.fresh linux) := rfl
  obtain ⟨⟨mi, dict, hserved⟩, -, -⟩ := bothOpen_plaintext.linear
  have himage : Image none bothOpen.disk mi dict := (hserved.holds true _ hinst).1
  obtain ⟨r, hr, -⟩ := openReader_of_contentOf (contentOf_image himage)
  have hsnap : r.snap = snapOf mi dict :=
    Except.ok.inj ((buildSnapshot_of_openReader hr).symm.trans (buildSnapshot_of_image himage))
  have hinfo : parseMeta bothOpen.disk.crc = .ok r.snap.info := by
    rw [hsnap]
    exact himage.parse
  obtain ⟨hok, hlog⟩ := readOnce_ok wordwise linux bothBoard hinfo
  have hread := (live_reader_current wordwise_sequenceFirst hstored hacts hw hboard hinst hr hok).1 ⟨0, 0, 0, r.snap, false⟩
    (by rw [hlog]; exact List.mem_singleton_self _)
  exact ⟨r, hr, (Option.some.inj hread.1).symm⟩

end MmkvGo.Multi
