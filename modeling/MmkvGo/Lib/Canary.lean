import MmkvGo.Lib.Sections

/-!
A copy that is kept fresh by a canary.

A source goes from one version to the next.  Any number of threads read a copy of it: each loads the three words of the
source's stamp, one after the other and without a lock, and compares them with those the copy was made at; when they are
not the same, it takes a mutex, probes again, takes a lock that keeps writers away, makes a new copy, publishes it and
then its three words, one after the other.

`Reading.step` is one step of one thread, `Inv` what holds along every run, whatever the source does in between
(`Advances`).  The point is `Inv.cmpEra`: a probe that finds no difference, though its six loads see six moments, has a
copy that is not older than its own begin.  It rests on the order of the accesses: a writer stores the era before the
size, and a probe loads the size before the era.
-/

namespace MmkvGo.Lib.Canary

open MmkvGo.Lib.Sections (Body)

variable {σ W C β γ : Type}

/-- The three words of a stamp, where they stand in the source's state and in a copy, and the ways to make a copy. -/
structure Stamp (σ W C β : Type) where
  crcAt : σ → W
  sizeAt : σ → W
  eraAt : σ → W
  crcOf : C → W
  sizeOf : C → W
  eraOf : C → W
  build : β → Body σ (Option C)

/-- The source: its state, the number of the newest complete version, the versions whose size and era a load sees,
whether a writer is at work on the next one, and the versions. -/
structure Source (σ C : Type) where
  state : σ
  ver : ℕ
  sizeVer : ℕ
  eraVer : ℕ
  busy : Bool
  content : ℕ → C

/-- The number of the newest version that was begun. -/
def Source.upto (src : Source σ C) : ℕ := if src.busy then src.ver + 1 else src.ver

/-- What a load sees of a source, whose writers store the era of the next version before its size.  A size and an era
loaded after it that are both those of an older version tell that the content was as in that one. -/
structure Source.Good (K : Stamp σ W C β) (src : Source σ C) : Prop where
  ver_le : src.ver ≤ src.sizeVer
  sizeVer_le : src.sizeVer ≤ src.eraVer
  eraVer_le : src.eraVer ≤ src.upto
  size : K.sizeAt src.state = K.sizeOf (src.content src.sizeVer)
  era : K.eraAt src.state = K.eraOf (src.content src.eraVer)
  copy : src.busy = false → ∀ x, (K.build x).ReadOnly ∧ ((K.build x).exec src.state).2 = some (src.content src.ver)
  tells : ∀ p v v', p ≤ v → v ≤ v' → v' ≤ src.eraVer → K.sizeOf (src.content p) = K.sizeOf (src.content v) →
    K.eraOf (src.content p) = K.eraOf (src.content v') → src.content p = src.content v

/-- What the source may do while the threads do nothing; with `locked` no writer is at work. -/
structure Advances (locked : Bool) (src src' : Source σ C) : Prop where
  ver : src.ver ≤ src'.ver
  sizeVer : src.sizeVer ≤ src'.sizeVer
  eraVer : src.eraVer ≤ src'.eraVer
  upto : src.upto ≤ src'.upto
  content : ∀ n, n ≤ src.upto → src'.content n = src.content n
  locked : locked = true → src'.ver = src.ver ∧ src'.busy = false ∧ src'.state = src.state

/-- Where a thread is; `second` tells the probe with the mutex from the one without. -/
inductive Pc (σ W C : Type) where
  | idle
  | loadCrc (second : Bool)
  | loadSize (second : Bool) (c : W)
  | loadEra (second : Bool) (c a : W)
  | cmpCrc (second : Bool) (c a s : W)
  | cmpSize (second : Bool) (a s : W)
  | cmpEra (second : Bool) (s : W)
  | lockMu
  | lockFile
  | build (p : Body σ (Option C))
  | putSnap (x : C)
  | putCrc (x : C)
  | putSize (x : C)
  | putEra (x : C)
  | unlockFile
  | unlockMu
  | take

namespace Pc

def holdsMu : Pc σ W C → Bool
  | .loadCrc b | .loadSize b _ | .loadEra b _ _ | .cmpCrc b _ _ _ | .cmpSize b _ _ | .cmpEra b _ => b
  | .lockFile | .build _ | .putSnap _ | .putCrc _ | .putSize _ | .putEra _ | .unlockFile | .unlockMu => true
  | .idle | .lockMu | .take => false

def holdsFile : Pc σ W C → Bool
  | .build _ | .putSnap _ | .putCrc _ | .putSize _ | .putEra _ | .unlockFile => true
  | _ => false

/-- The copy is published, and not all of its words. -/
def publishing : Pc σ W C → Bool
  | .putCrc _ | .putSize _ | .putEra _ => true
  | _ => false

/-- The probe found no difference. -/
def fresh (second : Bool) : Pc σ W C := if second then .unlockMu else .take

/-- The probe found one. -/
def stale (second : Bool) : Pc σ W C := if second then .lockFile else .lockMu

end Pc

/-- A read that is over: the versions that were complete at its begin and begun at its end, the copy it got, the version
that one was made of, and whether it could not make a new one. -/
structure Read (C : Type) where
  since : ℕ
  upto : ℕ
  ver : ℕ
  snap : C
  failed : Bool

/-- The copy, its words, the mutex, the lock on the source, and the threads.  The version numbers are there for the proofs
only: no step depends on them. -/
structure Reading (σ W C γ : Type) where
  snap : C
  snapVer : ℕ
  crc : W
  size : W
  era : W
  mu : Option γ
  locked : Bool
  pc : γ → Pc σ W C
  since : γ → ℕ
  failed : γ → Bool
  log : List (Read C)

/-- The copy `x` of the version `ver`, before any thread reads it. -/
def Reading.opened (K : Stamp σ W C β) (x : C) (ver : ℕ) : Reading σ W C γ :=
  ⟨x, ver, K.crcOf x, K.sizeOf x, K.eraOf x, none, false, fun _ => .idle, fun _ => 0, fun _ => false, []⟩

/-- What a thread does next. -/
inductive Act (β γ : Type) where
  | begin (g : γ)
  | next (g : γ)
  /-- It gets the lock on the source, and goes on to make a copy. -/
  | lock (g : γ) (x : β)
  /-- It is refused the lock on the source. -/
  | fail (g : γ)

section Step

variable [DecidableEq γ]

/-- The thread `g` goes on at `q`. -/
def Reading.goto (r : Reading σ W C γ) (g : γ) (q : Pc σ W C) : Reading σ W C γ :=
  { r with pc := Function.update r.pc g q }

/-- The thread `g` goes on at `q` without a new copy. -/
def Reading.giveUp (r : Reading σ W C γ) (g : γ) (q : Pc σ W C) : Reading σ W C γ :=
  { r with pc := Function.update r.pc g q, failed := Function.update r.failed g true }

/-- One step of one thread on a source in the state `s`, with `ver` complete versions and `upto` that were begun. -/
def Reading.step [DecidableEq W] (K : Stamp σ W C β) (s : σ) (ver upto : ℕ) (r : Reading σ W C γ) :
    Act β γ → Reading σ W C γ
  | .begin g =>
    { r with
      pc := Function.update r.pc g (.loadCrc false)
      since := Function.update r.since g ver
      failed := Function.update r.failed g false }
  | .lock g x => { r.goto g (.build (K.build x)) with locked := true }
  | .fail g => r.giveUp g .unlockMu
  | .next g =>
    match r.pc g with
    | .idle | .lockFile => r
    | .loadCrc b => r.goto g (.loadSize b (K.crcAt s))
    | .loadSize b c => r.goto g (.loadEra b c (K.sizeAt s))
    | .loadEra b c a => r.goto g (.cmpCrc b c a (K.eraAt s))
    | .cmpCrc b c a s => r.goto g (if c = r.crc then .cmpSize b a s else .stale b)
    | .cmpSize b a s => r.goto g (if a = r.size then .cmpEra b s else .stale b)
    | .cmpEra b s => r.goto g (if s = r.era then .fresh b else .stale b)
    | .lockMu => { r.goto g (.loadCrc true) with mu := some g }
    | .build (.ret none) => r.giveUp g .unlockFile
    | .build (.ret (some x)) => r.goto g (.putSnap x)
    | .build p => r.goto g (.build (p.next s).2)
    | .putSnap x => { r.goto g (.putCrc x) with snap := x, snapVer := ver }
    | .putCrc x => { r.goto g (.putSize x) with crc := K.crcOf x }
    | .putSize x => { r.goto g (.putEra x) with size := K.sizeOf x }
    | .putEra x => { r.goto g .unlockFile with era := K.eraOf x }
    | .unlockFile => { r.goto g .unlockMu with locked := false }
    | .unlockMu => { r.goto g .take with mu := none }
    | .take => { r.goto g .idle with log := r.log ++ [⟨r.since g, upto, r.snapVer, r.snap, r.failed g⟩] }

/-- What a step waits for; `free` says that no writer has the lock on the source. -/
def Reading.Enabled (free : Prop) (r : Reading σ W C γ) : Act β γ → Prop
  | .begin g => r.pc g = .idle
  | .lock g _ => r.pc g = .lockFile ∧ free
  | .fail g => r.pc g = .lockFile
  | .next g => r.pc g = .lockMu → r.mu = none

end Step

/-! ### The invariant -/

section Invariant

variable (K : Stamp σ W C β)

/-- What the thread knows where it is: of its probe, that the words it loaded are those of versions not older than its
begin, in the order of the loads; of its copy, that it is that of such a version. -/
def Knows (src : Source σ C) (snap : C) (snapVer : ℕ) (size : W) (since : ℕ) (failed : Bool) : Pc σ W C → Prop
  | .idle | .loadCrc _ | .loadSize _ _ | .lockMu | .lockFile => True
  | .loadEra _ _ a => ∃ v, since ≤ v ∧ v ≤ src.sizeVer ∧ a = K.sizeOf (src.content v)
  | .cmpCrc _ _ a s | .cmpSize _ a s => ∃ v v', since ≤ v ∧ v ≤ v' ∧ v' ≤ src.eraVer ∧ a = K.sizeOf (src.content v) ∧
      s = K.eraOf (src.content v')
  | .cmpEra _ s => ∃ v v', since ≤ v ∧ v ≤ v' ∧ v' ≤ src.eraVer ∧ s = K.eraOf (src.content v') ∧
      (since ≤ snapVer ∨ K.sizeOf snap = K.sizeOf (src.content v))
  | .build p => p.ReadOnly ∧ (p.exec src.state).2 = some (src.content src.ver)
  | .putSnap x => x = src.content src.ver
  | .putCrc x | .putSize x => snapVer = src.ver ∧ x = snap
  | .putEra x => snapVer = src.ver ∧ x = snap ∧ size = K.sizeOf x
  | .unlockFile | .unlockMu | .take => failed = true ∨ ∃ v, since ≤ v ∧ v ≤ src.eraVer ∧ snap = src.content v

/-- A read that is over got the copy of one version, and if it did not fail, of one that was the newest at some time
between its begin and its end. -/
structure Read.Sound (src : Source σ C) (snapVer : ℕ) (e : Read C) : Prop where
  upto : e.upto ≤ src.upto
  ver : e.ver ≤ snapVer
  snap : e.snap = src.content e.ver
  current : e.failed = false → ∃ v, e.since ≤ v ∧ v ≤ e.upto ∧ e.snap = src.content v

structure Inv (src : Source σ C) (r : Reading σ W C γ) : Prop where
  snapVer : r.snapVer ≤ src.ver
  snap : r.snap = src.content r.snapVer
  mu : ∀ g, r.mu = some g ↔ (r.pc g).holdsMu = true
  file : ∀ g, (r.pc g).holdsFile = true → r.locked = true
  locked : r.locked = true → src.busy = false
  canary : (∀ g, (r.pc g).publishing = false) → r.size = K.sizeOf r.snap ∧ r.era = K.eraOf r.snap
  since : ∀ g, r.pc g ≠ .idle → r.since g ≤ src.ver
  knows : ∀ g, Knows K src r.snap r.snapVer r.size (r.since g) (r.failed g) (r.pc g)
  log : ∀ e ∈ r.log, e.Sound src r.snapVer
  sorted : (r.log.map Read.ver).Pairwise (· ≤ ·)

variable {K} {src src' : Source σ C} {r : Reading σ W C γ} {g : γ}

lemma Source.Good.ver_le_eraVer (h : src.Good K) : src.ver ≤ src.eraVer := Nat.le_trans h.ver_le h.sizeVer_le

lemma Source.ver_le_upto (src : Source σ C) : src.ver ≤ src.upto := by
  rw [upto]
  split <;> omega

lemma Inv.alone (h : Inv K src r) (hg : (r.pc g).holdsMu = true) {g' : γ} (hne : g' ≠ g) :
    (r.pc g').holdsMu = false := by
  by_contra hother
  have h₁ := (h.mu g).2 hg
  have h₂ := (h.mu g').2 (by simpa using hother)
  exact hne (Option.some.inj (h₂.symm.trans h₁))

lemma holdsMu_of_holdsFile {q : Pc σ W C} (h : q.holdsFile = true) : q.holdsMu = true := by
  cases q <;> first | rfl | cases h

lemma holdsMu_of_publishing {q : Pc σ W C} (h : q.publishing = true) : q.holdsMu = true := by
  cases q <;> first | rfl | cases h

/-! ### The source moves on -/

lemma Knows.advance {snap : C} {snapVer since : ℕ} {size : W} {failed locked : Bool} {q : Pc σ W C}
    (h : Knows K src snap snapVer size since failed q) (ho : src.Good K) (hadv : Advances locked src src')
    (hfile : q.holdsFile = true → locked = true) : Knows K src' snap snapVer size since failed q := by
  have hcontent : ∀ n, n ≤ src.eraVer → src'.content n = src.content n :=
    fun n hn => hadv.content n (Nat.le_trans hn ho.eraVer_le)
  cases q with
  | idle | loadCrc b | loadSize b c | lockMu | lockFile => trivial
  | loadEra b c a =>
    obtain ⟨v, hv, hle, ha⟩ := h
    exact ⟨v, hv, Nat.le_trans hle hadv.sizeVer, by rw [hcontent v (Nat.le_trans hle ho.sizeVer_le)]; exact ha⟩
  | cmpCrc b c a s | cmpSize b a s =>
    obtain ⟨v, v', hv, hvv, hle, ha, hs⟩ := h
    exact ⟨v, v', hv, hvv, Nat.le_trans hle hadv.eraVer, by rw [hcontent v (Nat.le_trans hvv hle)]; exact ha,
      by rw [hcontent v' hle]; exact hs⟩
  | cmpEra b s =>
    obtain ⟨v, v', hv, hvv, hle, hs, ha⟩ := h
    exact ⟨v, v', hv, hvv, Nat.le_trans hle hadv.eraVer, by rw [hcontent v' hle]; exact hs,
      by rw [hcontent v (Nat.le_trans hvv hle)]; exact ha⟩
  | build p =>
    -- while the file is locked, the source stands still
    obtain ⟨hver, -, hstate⟩ := hadv.locked (hfile rfl)
    rw [Knows, hstate, hver, hcontent _ ho.ver_le_eraVer]
    exact h
  | putSnap x =>
    rw [Knows, (hadv.locked (hfile rfl)).1, hcontent _ ho.ver_le_eraVer]
    exact h
  | putCrc x | putSize x | putEra x =>
    rw [Knows, (hadv.locked (hfile rfl)).1]
    exact h
  | unlockFile | unlockMu | take =>
    refine h.imp_right fun ⟨v, hv, hle, hs⟩ => ⟨v, hv, Nat.le_trans hle hadv.eraVer, ?_⟩
    rw [hcontent v hle]
    exact hs

theorem Inv.advance (h : Inv K src r) (ho : src.Good K) (hadv : Advances r.locked src src') :
    Inv K src' r := by
  have hcontent : ∀ n, n ≤ src.upto → src'.content n = src.content n := hadv.content
  have hsnap := Nat.le_trans h.snapVer src.ver_le_upto
  refine ⟨Nat.le_trans h.snapVer hadv.ver, by rw [hcontent _ hsnap]; exact h.snap, h.mu, h.file,
    fun hl => (hadv.locked hl).2.1, h.canary, fun g hg => Nat.le_trans (h.since g hg) hadv.ver,
    fun g => (h.knows g).advance ho hadv (h.file g), fun e he => ?_, h.sorted⟩
  have hsound := h.log e he
  refine ⟨Nat.le_trans hsound.upto hadv.upto, hsound.ver, ?_, fun hf => ?_⟩
  · rw [hcontent _ (Nat.le_trans hsound.ver hsnap)]
    exact hsound.snap
  · obtain ⟨v, hv, hle, hs⟩ := hsound.current hf
    exact ⟨v, hv, hle, by rw [hcontent _ (Nat.le_trans hle hsound.upto)]; exact hs⟩

/-! ### Probes -/

lemma Inv.of_publishing (h : Inv K src r) {g' : γ} (hpub : (r.pc g').publishing = true) :
    r.snapVer = src.ver := by
  have hk := h.knows g'
  cases hp : r.pc g' with
  | putCrc x | putSize x | putEra x =>
    rw [hp] at hk
    exact hk.1
  | _ => rw [hp] at hpub; cases hpub

/-- Either some thread is about to publish the words of the newest version, or the words are those of the copy. -/
lemma Inv.words (h : Inv K src r) :
    r.snapVer = src.ver ∨ r.size = K.sizeOf r.snap ∧ r.era = K.eraOf r.snap := by
  by_cases hp : ∀ g, (r.pc g).publishing = false
  · exact .inr (h.canary hp)
  · obtain ⟨g', hg'⟩ := not_forall.1 hp
    exact .inl (h.of_publishing (by simpa using hg'))

lemma Inv.canary_of_holder (h : Inv K src r) (hg : (r.pc g).holdsMu = true)
    (hpub : (r.pc g).publishing = false) : r.size = K.sizeOf r.snap ∧ r.era = K.eraOf r.snap := by
  refine h.canary fun g' => ?_
  by_cases hne : g' = g
  · exact hne ▸ hpub
  · by_contra hp
    have hmu := h.alone hg hne
    rw [holdsMu_of_publishing (by simpa using hp)] at hmu
    cases hmu

/-- **What an equal size tells.**  The copy is not older than the begin of the probe, or has the size that was
loaded. -/
lemma Inv.cmpSize (h : Inv K src r) {b : Bool} {a s : W} (hpc : r.pc g = .cmpSize b a s)
    (heq : a = r.size) :
    Knows K src r.snap r.snapVer r.size (r.since g) (r.failed g) (.cmpEra b s) := by
  have hk := h.knows g
  rw [hpc] at hk
  obtain ⟨v, v', hv, hvv, hle, ha, hs⟩ := hk
  refine ⟨v, v', hv, hvv, hle, hs, ?_⟩
  rcases h.words with hver | ⟨hsize, -⟩
  · exact .inl (hver ▸ h.since g (by rw [hpc]; nofun))
  · exact .inr (by rw [← hsize, ← heq, ha])

/-- **What an equal era tells.**  The copy is that of a version not older than the begin of the probe. -/
lemma Inv.cmpEra (h : Inv K src r) (ho : src.Good K) {b : Bool} {s : W}
    (hpc : r.pc g = .cmpEra b s) (heq : s = r.era) :
    ∃ v, r.since g ≤ v ∧ v ≤ src.eraVer ∧ r.snap = src.content v := by
  have hk := h.knows g
  rw [hpc] at hk
  obtain ⟨v, v', hv, hvv, hle, hs, hsize⟩ := hk
  have hcurrent : r.since g ≤ r.snapVer → ∃ v, r.since g ≤ v ∧ v ≤ src.eraVer ∧ r.snap = src.content v :=
    fun hsince => ⟨_, hsince, Nat.le_trans h.snapVer ho.ver_le_eraVer, h.snap⟩
  by_cases hsince : r.since g ≤ r.snapVer
  · exact hcurrent hsince
  rcases h.words with hver | ⟨-, hera⟩
  · exact hcurrent (hver ▸ h.since g (by rw [hpc]; nofun))
  · -- the copy is older than the probe, so both of its words say that nothing changed since
    have hsize := hsize.resolve_left hsince
    refine ⟨v, hv, Nat.le_trans hvv hle, ?_⟩
    rw [h.snap] at hsize hera ⊢
    exact ho.tells _ _ _ (by omega) hvv hle hsize (by rw [← hera, ← heq, hs])

/-! ### The threads move on -/

variable [DecidableEq γ] {r' : Reading σ W C γ} {q : Pc σ W C}

/-- What a thread without the mutex knows stays so when another one publishes the newest version. -/
lemma Knows.republish {snap : C} {snapVer since : ℕ} {size size' : W} {failed : Bool}
    (h : Knows K src snap snapVer size since failed q) (ho : src.Good K) (hmu : q.holdsMu = false)
    (hsince : q ≠ .idle → since ≤ src.ver) :
    Knows K src (src.content src.ver) src.ver size' since failed q := by
  cases q with
  | cmpEra b s =>
    obtain ⟨v, v', hv, hvv, hle, hs, -⟩ := h
    exact ⟨v, v', hv, hvv, hle, hs, .inl (hsince nofun)⟩
  | take => exact .inr ⟨src.ver, hsince nofun, ho.ver_le_eraVer, rfl⟩
  | build | unlockFile | unlockMu | putSnap | putCrc | putSize | putEra => cases hmu
  | _ => exact h

lemma Knows.size_irrel {snap : C} {snapVer since : ℕ} {size size' : W} {failed : Bool}
    (h : Knows K src snap snapVer size since failed q) (hmu : q.holdsMu = false) :
    Knows K src snap snapVer size' since failed q := by
  cases q with
  | putEra => cases hmu
  | _ => exact h

/-- A step of `g` that leaves the copy and the lock on the source as they are, and does not begin or end a
publication. -/
lemma Inv.aside (h : Inv K src r)
    (hr' : r' = { r with pc := Function.update r.pc g q, mu := r'.mu, since := r'.since, failed := r'.failed,
                         log := r'.log })
    (hmu : r'.mu = some g ↔ q.holdsMu = true) (hmu' : ∀ g', g' ≠ g → (r'.mu = some g' ↔ r.mu = some g'))
    (hfile : q.holdsFile = true → r.locked = true) (hpub : (r.pc g).publishing = false)
    (hsince : r'.since g ≤ src.ver) (hsince' : ∀ g', g' ≠ g → r'.since g' = r.since g')
    (hfailed' : ∀ g', g' ≠ g → r'.failed g' = r.failed g')
    (hknows : Knows K src r.snap r.snapVer r.size (r'.since g) (r'.failed g) q)
    (hlog : ∀ e ∈ r'.log, e.Sound src r.snapVer) (hsorted : (r'.log.map Read.ver).Pairwise (· ≤ ·)) :
    Inv K src r' := by
  rw [hr']
  refine ⟨h.snapVer, h.snap, ?_, ?_, h.locked, fun hp => h.canary fun g' => ?_, ?_, ?_, hlog, hsorted⟩
  · exact (Function.forall_update_iff r.pc fun g' q => r'.mu = some g' ↔ q.holdsMu = true).2
      ⟨hmu, fun g' hg' => (hmu' g' hg').trans (h.mu g')⟩
  · exact (Function.forall_update_iff r.pc fun _ q => q.holdsFile = true → r.locked = true).2
      ⟨hfile, fun g' _ => h.file g'⟩
  · by_cases hg : g' = g
    · exact hg ▸ hpub
    · simpa only [Function.update_of_ne hg] using hp g'
  · refine (Function.forall_update_iff r.pc fun g' q => q ≠ .idle → r'.since g' ≤ src.ver).2
      ⟨fun _ => hsince, fun g' hg' hq => ?_⟩
    rw [hsince' g' hg']
    exact h.since g' hq
  · refine (Function.forall_update_iff r.pc fun g' q =>
      Knows K src r.snap r.snapVer r.size (r'.since g') (r'.failed g') q).2 ⟨hknows, fun g' hg' => ?_⟩
    rw [hsince' g' hg', hfailed' g' hg']
    exact h.knows g'

lemma Inv.holder (h : Inv K src r) (ho : src.Good K) (hg : (r.pc g).holdsMu = true)
    (hq : q.holdsMu = true)
    (hr' : r' = { r' with pc := Function.update r.pc g q, mu := r.mu, since := r.since, log := r.log })
    (hfailed' : ∀ g', g' ≠ g → r'.failed g' = r.failed g')
    (hcopy : r'.snap = r.snap ∧ r'.snapVer = r.snapVer ∨ r'.snap = src.content src.ver ∧ r'.snapVer = src.ver)
    (hlocked : r'.locked = true → src.busy = false) (hfile : q.holdsFile = true → r'.locked = true)
    (hcanary : q.publishing = false → r'.size = K.sizeOf r'.snap ∧ r'.era = K.eraOf r'.snap)
    (hknows : Knows K src r'.snap r'.snapVer r'.size (r.since g) (r'.failed g) q) :
    Inv K src r' := by
  have hidle : r.pc g ≠ .idle := fun e => by rw [e] at hg; cases hg
  have hver : r.snapVer ≤ r'.snapVer ∧ r'.snapVer ≤ src.ver := by
    rcases hcopy with ⟨-, e⟩ | ⟨-, e⟩
    · exact ⟨Nat.le_of_eq e.symm, e ▸ h.snapVer⟩
    · exact ⟨e ▸ h.snapVer, Nat.le_of_eq e⟩
  have hsnap : r'.snap = src.content r'.snapVer := by
    rcases hcopy with ⟨e, e'⟩ | ⟨e, e'⟩ <;> rw [e, e']
    exact h.snap
  rw [hr']
  refine ⟨hver.2, hsnap, ?_, ?_, hlocked, fun hp => hcanary ?_, ?_, ?_, fun e he => ?_, h.sorted⟩
  · exact (Function.forall_update_iff r.pc fun g' q => r.mu = some g' ↔ q.holdsMu = true).2
      ⟨iff_of_true ((h.mu g).2 hg) hq, fun g' _ => h.mu g'⟩
  · refine (Function.forall_update_iff r.pc fun _ q => q.holdsFile = true → r'.locked = true).2
      ⟨hfile, fun g' hne hf => ?_⟩
    have := h.alone hg hne
    rw [holdsMu_of_holdsFile hf] at this
    cases this
  · simpa only [Function.update_self] using hp g
  · exact (Function.forall_update_iff r.pc fun g' q => q ≠ .idle → r.since g' ≤ src.ver).2
      ⟨fun _ => h.since g hidle, fun g' _ => h.since g'⟩
  · refine (Function.forall_update_iff r.pc fun g' q =>
      Knows K src r'.snap r'.snapVer r'.size (r.since g') (r'.failed g') q).2 ⟨hknows, fun g' hne => ?_⟩
    have hmu := h.alone hg hne
    rw [hfailed' g' hne]
    rcases hcopy with ⟨e, e'⟩ | ⟨e, e'⟩ <;> rw [e, e']
    · exact (h.knows g').size_irrel hmu
    · exact (h.knows g').republish ho hmu (h.since g')
  -- the reads that are over keep what they got
  · have hsound := h.log e he
    exact ⟨hsound.upto, Nat.le_trans hsound.ver hver.1, hsound.snap, hsound.current⟩

lemma Inv.goto (h : Inv K src r) (hidle : r.pc g ≠ .idle) (hmu : q.holdsMu = (r.pc g).holdsMu)
    (hfile : q.holdsFile = true → (r.pc g).holdsFile = true) (hpub : (r.pc g).publishing = false)
    (hknows : Knows K src r.snap r.snapVer r.size (r.since g) (r.failed g) q) :
    Inv K src (r.goto g q) :=
  h.aside rfl (by rw [hmu]; exact h.mu g) (fun _ _ => Iff.rfl) (fun hf => h.file g (hfile hf)) hpub (h.since g hidle)
    (fun _ _ => rfl) (fun _ _ => rfl) hknows h.log h.sorted

end Invariant

/-! ### Every step -/

section Run

variable {K : Stamp σ W C β} {src : Source σ C} {r : Reading σ W C γ}

lemma fresh_holdsMu (b : Bool) : (Pc.fresh b : Pc σ W C).holdsMu = b := by cases b <;> rfl

lemma stale_holdsMu (b : Bool) : (Pc.stale b : Pc σ W C).holdsMu = b := by cases b <;> rfl

variable [DecidableEq γ] {g : γ}

lemma Inv.goto_stale (h : Inv K src r) {b : Bool} (hidle : r.pc g ≠ .idle)
    (hmu : (r.pc g).holdsMu = b) (hpub : (r.pc g).publishing = false) :
    Inv K src (r.goto g (.stale b)) :=
  h.goto hidle (by rw [stale_holdsMu, hmu]) (fun hf => by cases b <;> cases hf) hpub (by cases b <;> trivial)

lemma Inv.goto_fresh (h : Inv K src r) (ho : src.Good K) {b : Bool} {s : W}
    (hpc : r.pc g = .cmpEra b s) (heq : s = r.era) : Inv K src (r.goto g (.fresh b)) := by
  have hcurrent := h.cmpEra ho hpc heq
  refine h.goto (by rw [hpc]; nofun) (by rw [fresh_holdsMu, hpc]; rfl) (fun hf => ?_) (by rw [hpc]; rfl) ?_
  · cases b <;> cases hf
  · cases b <;> exact .inr hcurrent

lemma Inv.giveUp (h : Inv K src r) (ho : src.Good K) {q : Pc σ W C} (hg : (r.pc g).holdsMu = true)
    (hpub : (r.pc g).publishing = false) (hq : q = .unlockFile ∧ (r.pc g).holdsFile = true ∨ q = .unlockMu) :
    Inv K src (r.giveUp g q) := by
  refine h.holder (g := g) (q := q) ho hg ?_ rfl (fun g' hne => Function.update_of_ne hne _ _) (.inl ⟨rfl, rfl⟩) h.locked
    ?_ (fun _ => h.canary_of_holder hg hpub) ?_
  · rcases hq with ⟨rfl, -⟩ | rfl <;> rfl
  · rcases hq with ⟨rfl, hf⟩ | rfl
    · exact fun _ => h.file g hf
    · nofun
  · have hfailed : (r.giveUp g q).failed g = true := Function.update_self ..
    rcases hq with ⟨rfl, -⟩ | rfl <;> exact .inl hfailed

lemma Inv.take (h : Inv K src r) (ho : src.Good K) (hpc : r.pc g = .take) :
    Inv K src
      { r.goto g .idle with log := r.log ++ [⟨r.since g, src.upto, r.snapVer, r.snap, r.failed g⟩] } := by
  refine h.aside (g := g) (q := .idle) rfl ?_ (fun _ _ => Iff.rfl) nofun (by rw [hpc]; rfl)
    (h.since g (by rw [hpc]; nofun)) (fun _ _ => rfl) (fun _ _ => rfl) trivial (fun e he => ?_) ?_
  · simp only [Reading.goto, h.mu g, hpc]
    rfl
  · rcases List.mem_append.1 he with he | he
    · exact h.log e he
    · rw [List.mem_singleton.1 he]
      refine ⟨Nat.le_refl _, Nat.le_refl _, h.snap, fun hf => ?_⟩
      have hk := h.knows g
      rw [hpc] at hk
      obtain ⟨v, hv, hle, hs⟩ := hk.resolve_left (Bool.not_eq_true _ ▸ hf)
      exact ⟨v, hv, Nat.le_trans hle ho.eraVer_le, hs⟩
  · rw [List.map_append, List.pairwise_append]
    refine ⟨h.sorted, List.pairwise_singleton _ _, fun v hv w hw => ?_⟩
    obtain ⟨e, he, rfl⟩ := List.mem_map.1 hv
    rw [List.mem_singleton.1 hw]
    exact (h.log e he).ver

variable [DecidableEq W]

lemma Inv.probe (h : Inv K src r) (ho : src.Good K)
    {b : Bool}
    (hpc : r.pc g = .loadCrc b ∨ (∃ c, r.pc g = .loadSize b c) ∨ (∃ c a, r.pc g = .loadEra b c a) ∨
      (∃ c a s, r.pc g = .cmpCrc b c a s) ∨ (∃ a s, r.pc g = .cmpSize b a s) ∨ ∃ s, r.pc g = .cmpEra b s) :
    Inv K src (r.step K src.state src.ver src.upto (.next g)) := by
  have hk := h.knows g
  rcases hpc with hpc | ⟨c, hpc⟩ | ⟨c, a, hpc⟩ | ⟨c, a, s, hpc⟩ | ⟨a, s, hpc⟩ | ⟨s, hpc⟩ <;>
    have hidle : r.pc g ≠ .idle := (by rw [hpc]; nofun) <;>
    have hmu : (r.pc g).holdsMu = b := (by rw [hpc]; rfl) <;>
    have hpub : (r.pc g).publishing = false := (by rw [hpc]; rfl) <;>
    have hsince := h.since g hidle <;> simp only [Reading.step, hpc] <;> rw [hpc] at hk
  · exact h.goto hidle hmu.symm nofun hpub trivial
  · exact h.goto hidle hmu.symm nofun hpub ⟨_, Nat.le_trans hsince ho.ver_le, Nat.le_refl _, ho.size⟩
  · obtain ⟨v, hv, hle, ha⟩ := hk
    exact h.goto hidle hmu.symm nofun hpub ⟨v, _, hv, Nat.le_trans hle ho.sizeVer_le, Nat.le_refl _, ha, ho.era⟩
  · split
    · exact h.goto hidle hmu.symm nofun hpub hk
    · exact h.goto_stale hidle hmu hpub
  · split
    · exact h.goto hidle hmu.symm nofun hpub (h.cmpSize hpc (by assumption))
    · exact h.goto_stale hidle hmu hpub
  · split
    · exact h.goto_fresh ho hpc (by assumption)
    · exact h.goto_stale hidle hmu hpub

lemma Inv.publish (h : Inv K src r) (ho : src.Good K)
    (hfile : (r.pc g).holdsFile = true) : Inv K src (r.step K src.state src.ver src.upto (.next g)) := by
  have hk := h.knows g
  have hmu := holdsMu_of_holdsFile hfile
  have hlocked := h.file g hfile
  cases hpc : r.pc g with
  | build p =>
    have hidle : r.pc g ≠ .idle := by rw [hpc]; nofun
    have hpub : (r.pc g).publishing = false := by rw [hpc]; rfl
    rw [hpc] at hk
    obtain ⟨hro, hexec⟩ := hk
    cases p with
    | ret y =>
      cases y with
      | none => cases hexec
      | some x =>
        simp only [Reading.step, hpc]
        exact h.goto hidle hmu.symm (fun _ => hfile) hpub (Option.some.inj hexec)
    | load k =>
      simp only [Reading.step, hpc]
      exact h.goto hidle hmu.symm (fun _ => hfile) hpub ⟨hro src.state, hexec⟩
    | store f k => cases hro
  -- from here to the last word, the copy and its words may disagree
  | putSnap x =>
    rw [hpc] at hk
    simp only [Reading.step, hpc]
    exact h.holder ho hmu rfl rfl (fun _ _ => rfl) (.inr ⟨hk, rfl⟩) h.locked (fun _ => hlocked) nofun ⟨rfl, rfl⟩
  | putCrc x =>
    rw [hpc] at hk
    simp only [Reading.step, hpc]
    exact h.holder ho hmu rfl rfl (fun _ _ => rfl) (.inl ⟨rfl, rfl⟩) h.locked (fun _ => hlocked) nofun hk
  | putSize x =>
    rw [hpc] at hk
    simp only [Reading.step, hpc]
    exact h.holder ho hmu rfl rfl (fun _ _ => rfl) (.inl ⟨rfl, rfl⟩) h.locked (fun _ => hlocked) nofun ⟨hk.1, hk.2, rfl⟩
  | putEra x =>
    rw [hpc] at hk
    obtain ⟨hver, rfl, hsize⟩ := hk
    simp only [Reading.step, hpc]
    exact h.holder ho hmu rfl rfl (fun _ _ => rfl) (.inl ⟨rfl, rfl⟩) h.locked (fun _ => hlocked) (fun _ => ⟨hsize, rfl⟩)
      (.inr ⟨src.ver, h.since g (by rw [hpc]; nofun), ho.ver_le_eraVer, h.snap.trans (congrArg src.content hver)⟩)
  | unlockFile =>
    rw [hpc] at hk
    simp only [Reading.step, hpc]
    exact h.holder ho hmu rfl rfl (fun _ _ => rfl) (.inl ⟨rfl, rfl⟩) nofun nofun
      (fun _ => h.canary_of_holder hmu (by rw [hpc]; rfl)) hk
  | _ => rw [hpc] at hfile; cases hfile

theorem Inv.step (h : Inv K src r) (ho : src.Good K)
    {a : Act β γ} {free : Prop} (hfree : free → src.busy = false)
    (hen : r.Enabled free a) :
    Inv K src (r.step K src.state src.ver src.upto a) := by
  cases a with
  | begin g =>
    have hidle : r.pc g = .idle := hen
    refine h.aside (g := g) (q := .loadCrc false) rfl ?_ (fun _ _ => Iff.rfl) nofun (by rw [hidle]; rfl) ?_
      (fun g' hne => Function.update_of_ne hne _ _) (fun g' hne => Function.update_of_ne hne _ _) trivial h.log h.sorted
    · simp only [Reading.step, h.mu g, hidle]
      rfl
    · simp only [Reading.step, Function.update_self, Nat.le_refl]
  | lock g x =>
    obtain ⟨hpc, hwriters⟩ := hen
    have hbusy := hfree hwriters
    have hmu : (r.pc g).holdsMu = true := by rw [hpc]; rfl
    -- no writer is inside, so what is loaded from here on is the newest version
    exact h.holder ho hmu rfl rfl (fun _ _ => rfl) (.inl ⟨rfl, rfl⟩) (fun _ => hbusy) (fun _ => rfl)
      (fun _ => h.canary_of_holder hmu (by rw [hpc]; rfl)) (ho.copy hbusy x)
  | fail g =>
    have hpc : r.pc g = .lockFile := hen
    exact h.giveUp ho (by rw [hpc]; rfl) (by rw [hpc]; rfl) (.inr rfl)
  | next g =>
    cases hpc : r.pc g with
    | idle | lockFile => simpa only [Reading.step, hpc] using h
    | loadCrc b => exact h.probe ho (.inl hpc)
    | loadSize b c => exact h.probe ho (.inr (.inl ⟨c, hpc⟩))
    | loadEra b c a => exact h.probe ho (.inr (.inr (.inl ⟨c, a, hpc⟩)))
    | cmpCrc b c a s => exact h.probe ho (.inr (.inr (.inr (.inl ⟨c, a, s, hpc⟩))))
    | cmpSize b a s => exact h.probe ho (.inr (.inr (.inr (.inr (.inl ⟨a, s, hpc⟩)))))
    | cmpEra b s => exact h.probe ho (.inr (.inr (.inr (.inr (.inr ⟨s, hpc⟩)))))
    | build p | putSnap x | putCrc x | putSize x | putEra x | unlockFile =>
      exact h.publish ho (by rw [hpc]; rfl)
    | lockMu =>
      have hmu : r.mu = none := hen hpc
      simp only [Reading.step, hpc]
      refine h.aside (g := g) rfl (iff_of_true rfl rfl) (fun g' hne => ?_) nofun (by rw [hpc]; rfl)
        (h.since g (by rw [hpc]; nofun)) (fun _ _ => rfl) (fun _ _ => rfl) trivial h.log h.sorted
      rw [hmu]
      exact iff_of_false (fun e => hne (Option.some.inj e).symm) nofun
    | unlockMu =>
      have hk := h.knows g
      rw [hpc] at hk
      have hmu : r.mu = some g := (h.mu g).2 (by rw [hpc]; rfl)
      simp only [Reading.step, hpc]
      refine h.aside (g := g) rfl (iff_of_false nofun nofun) (fun g' hne => ?_) nofun (by rw [hpc]; rfl)
        (h.since g (by rw [hpc]; nofun)) (fun _ _ => rfl) (fun _ _ => rfl) hk h.log h.sorted
      rw [hmu]
      exact iff_of_false nofun fun e => hne (Option.some.inj e).symm
    | take => simpa only [Reading.step, hpc] using h.take ho hpc

/-- No read failed so far, and none is about to. -/
def Reading.Unfailed (r : Reading σ W C γ) : Prop := (∀ g, r.failed g = false) ∧ ∀ e ∈ r.log, e.failed = false

/-- **No read fails** that is not refused the lock. -/
theorem Inv.unfailed_step (h : Inv K src r) (hu : r.Unfailed) {a : Act β γ} (ha : ∀ g, a ≠ .fail g) :
    (r.step K src.state src.ver src.upto a).Unfailed := by
  cases a with
  | begin g =>
    refine ⟨fun g' => ?_, hu.2⟩
    by_cases hg : g' = g
    · exact hg ▸ Function.update_self ..
    · exact (Function.update_of_ne hg ..).trans (hu.1 g')
  | lock g x => exact hu
  | fail g => exact absurd rfl (ha g)
  | next g =>
    cases hpc : r.pc g with
    | build p =>
      have hk := h.knows g
      rw [hpc] at hk
      cases p with
      | ret y =>
        cases y with
        -- the build of the newest version does not fail
        | none => cases hk.2
        | some x =>
          simp only [Reading.step, hpc]
          exact hu
      | load k | store f k =>
        simp only [Reading.step, hpc]
        exact hu
    | take =>
      simp only [Reading.step, hpc]
      refine ⟨hu.1, fun e he => ?_⟩
      rcases List.mem_append.1 he with he | he
      · exact hu.2 e he
      · rw [List.mem_singleton.1 he]
        exact hu.1 g
    | _ =>
      simp only [Reading.step, hpc]
      exact hu

omit [DecidableEq γ] [DecidableEq W] in
lemma inv_opened (K : Stamp σ W C β) (src : Source σ C) :
    Inv K src (Reading.opened K (src.content src.ver) src.ver : Reading σ W C γ) where
  snapVer := Nat.le_refl _
  snap := rfl
  mu _ := iff_of_false nofun nofun
  file _ := nofun
  locked := nofun
  canary _ := ⟨rfl, rfl⟩
  since _ h := absurd rfl h
  knows _ := trivial
  log := nofun
  sorted := .nil

end Run

/-! ### What a writer shows -/

section Writer

variable {α : Type} (K : Stamp σ W C β)

/-- What a load sees while a writer replaces `x` by `y`: the words of `x`, then the era of `y`, then both words of it. -/
def Stamp.Shows (x y : C) : ℕ → σ → Prop
  | 0, s => K.sizeAt s = K.sizeOf x ∧ K.eraAt s = K.eraOf x
  | 1, s => K.sizeAt s = K.sizeOf x ∧ K.eraAt s = K.eraOf y
  | _, s => K.sizeAt s = K.sizeOf y ∧ K.eraAt s = K.eraOf y

/-- From the state `s` on the section `p` goes through these stages in their order. -/
inductive Stamp.Climbs (x y : C) : ℕ → Body σ α → σ → Prop where
  | ret {k : ℕ} {a : α} {s : σ} (hshows : K.Shows x y k s) : Stamp.Climbs x y k (.ret a) s
  | load {k : ℕ} {f : σ → Body σ α} {s : σ} (hshows : K.Shows x y k s) (h : Stamp.Climbs x y k (f s) s) :
      Stamp.Climbs x y k (.load f) s
  | store {k k' : ℕ} {g : σ → σ} {p : Body σ α} {s : σ} (hshows : K.Shows x y k s) (hle : k ≤ k')
      (h : Stamp.Climbs x y k' p (g s)) : Stamp.Climbs x y k (.store g p) s

variable {K} {x y : C} {k : ℕ} {p : Body σ α} {s : σ}

lemma Stamp.Climbs.shows (h : K.Climbs x y k p s) : K.Shows x y k s := by
  cases h <;> assumption

lemma Stamp.Climbs.next (h : K.Climbs x y k p s) : ∃ k', k ≤ k' ∧ K.Climbs x y k' (p.next s).2 (p.next s).1 := by
  cases h with
  | ret hshows => exact ⟨k, Nat.le_refl k, .ret hshows⟩
  | load _ h => exact ⟨k, Nat.le_refl k, h⟩
  | store _ hle h => exact ⟨_, hle, h⟩

lemma climbs_bind {α' : Type} {f : α → Body σ α'} (hp : p.ReadOnly) (hshows : K.Shows x y k s)
    (hf : K.Climbs x y k (f (p.exec s).2) s) : K.Climbs x y k (p.bind f) s := by
  induction p with
  | ret a => exact hf
  | load g ih => exact .load hshows (ih s (hp s) hf)
  | store g p => cases hp

lemma climbs_of_readOnly (hp : p.ReadOnly) (hshows : K.Shows x y k s) : K.Climbs x y k p s := by
  induction p with
  | ret a => exact .ret hshows
  | load g ih => exact .load hshows (ih s (hp s))
  | store g p => cases hp

lemma Stamp.Climbs.bind_ret {α' : Type} {f : α → α'} (h : K.Climbs x y k p s) :
    K.Climbs x y k (p.bind fun a => .ret (f a)) s := by
  induction h with
  | ret hshows => exact .ret hshows
  | load hshows _ ih => exact .load hshows ih
  | store hshows hle _ ih => exact .store hshows hle ih

/-- The source while no writer is at work. -/
def Source.quiet (s : σ) (ver : ℕ) (content : ℕ → C) : Source σ C := ⟨s, ver, ver, ver, false, content⟩

/-- The source while a writer is at the stage `k`. -/
def Source.writing (s : σ) (ver k : ℕ) (content : ℕ → C) : Source σ C :=
  ⟨s, ver, if 2 ≤ k then ver + 1 else ver, if 1 ≤ k then ver + 1 else ver, true, content⟩

/-- The words of the versions up to `n` tell them apart. -/
def Stamp.Tells (K : Stamp σ W C β) (content : ℕ → C) (n : ℕ) : Prop :=
  ∀ p v v', p ≤ v → v ≤ v' → v' ≤ n → K.sizeOf (content p) = K.sizeOf (content v) →
    K.eraOf (content p) = K.eraOf (content v') → content p = content v

variable {ver : ℕ} {content : ℕ → C}

lemma good_quiet (hsize : K.sizeAt s = K.sizeOf (content ver)) (hera : K.eraAt s = K.eraOf (content ver))
    (hcopy : ∀ x, (K.build x).ReadOnly ∧ ((K.build x).exec s).2 = some (content ver)) (htells : K.Tells content ver) :
    (Source.quiet s ver content).Good K :=
  ⟨Nat.le_refl _, Nat.le_refl _, Nat.le_refl _, hsize, hera, fun _ => hcopy, htells⟩

lemma good_writing (hshows : K.Shows (content ver) (content (ver + 1)) k s) (htells : K.Tells content (ver + 1)) :
    (Source.writing s ver k content).Good K := by
  have hupto : (Source.writing s ver k content).upto = ver + 1 := rfl
  refine ⟨?_, ?_, ?_, ?_, ?_, nofun, fun p v v' hp hv hv' => htells p v v' hp hv (Nat.le_trans hv' ?_)⟩
  · simp only [Source.writing]
    split <;> omega
  · simp only [Source.writing]
    split <;> split <;> omega
  · rw [hupto]
    simp only [Source.writing]
    split <;> omega
  · rcases k with _ | _ | k <;> exact hshows.1
  · rcases k with _ | _ | k <;> exact hshows.2
  · simp only [Source.writing]
    split <;> omega

lemma advances_begin {content' : ℕ → C} (h : ∀ n, n ≤ ver → content' n = content n) :
    Advances false (Source.quiet s ver content) (Source.writing s ver 0 content') :=
  ⟨Nat.le_refl _, Nat.le_refl _, Nat.le_refl _, Nat.le_succ _, h, nofun⟩

lemma advances_write {s' : σ} {k' : ℕ} (h : k ≤ k') :
    Advances false (Source.writing s ver k content) (Source.writing s' ver k' content) := by
  refine ⟨Nat.le_refl _, ?_, ?_, Nat.le_refl _, fun _ _ => rfl, nofun⟩ <;> simp only [Source.writing] <;> split <;>
    split <;> omega

lemma advances_end {s' : σ} : Advances false (Source.writing s ver k content) (Source.quiet s' (ver + 1) content) := by
  refine ⟨Nat.le_succ _, ?_, ?_, Nat.le_refl _, fun _ _ => rfl, nofun⟩ <;> simp only [Source.writing, Source.quiet] <;>
    split <;> omega

end Writer

end MmkvGo.Lib.Canary
