import Mathlib.Data.Nat.Notation
import MmkvGo.Lib.Flock

/-!
The reference-counted lock on the `.crc` file.

A `fileLock` counts the shared and the exclusive references it has given out and asks the kernel only when what the
kernel holds for its description has to change: a shared lock is upgraded by dropping it, a last exclusive reference
falls back to a shared lock when shared references remain.  At every moment when no call of an object is in progress,
the kernel holds for it what its two counters say.
-/

namespace MmkvGo.Lock

open Lib.Flock

/-- `fileLock`, without the file it locks: the counters of its references. -/
@[ext] structure FileLock where
  shared : ℕ
  exclusive : ℕ
  deriving DecidableEq

/-- An error of a call: one of the object's own, or one of the kernel. -/
inductive Err where
  | text (s : String)
  | errno (e : Errno)
  deriving DecidableEq

/-! ### The requests to the kernel -/

/-- The request that waits, or does not, after what was held is dropped; one that fails takes a dropped shared lock
again. -/
def platformRequest (how : Mode) (wait unlockFirst : Bool) : Prog (Option Errno) := do
  match ← Prog.request (.acquire how !wait) with
  | none => pure none
  | some e =>
    if unlockFirst then
      let _ ← Prog.request .reshare
      pure (some e)
    else pure (some e)

def platformLock (how : Mode) (wait unlockFirst : Bool) : Prog (Option Errno) := do
  if unlockFirst then
    match ← Prog.request (.acquire how true) with
    | none => pure none
    | some _ =>
      -- two upgrades that kept their shared locks would wait for each other
      match ← Prog.request .release with
      | some e => pure (some e)
      | none => platformRequest how wait unlockFirst
  else platformRequest how wait unlockFirst

def platformTryLock (how : Mode) (unlockFirst : Bool) : Prog (Bool × Option Errno) := do
  match ← platformLock how false unlockFirst with
  | none => pure (true, none)
  | some .wouldBlock => pure (false, none)
  | some e => pure (false, some e)

def platformUnlock (downgradeToShared : Bool) : Prog (Option Errno) :=
  Prog.request (if downgradeToShared then .reshare else .release)

/-! ### The calls -/

namespace FileLock

def lock (l : FileLock) : Mode → Prog (FileLock × Option Err)
  | .shared =>
    -- an exclusive lock serves for a shared one
    if l.shared > 0 ∨ l.exclusive > 0 then pure ({ l with shared := l.shared + 1 }, none)
    else do
      match ← platformLock .shared true false with
      | some e => pure (l, some (.errno e))
      | none => pure ({ l with shared := l.shared + 1 }, none)
  | .exclusive =>
    if l.exclusive > 0 then pure ({ l with exclusive := l.exclusive + 1 }, none)
    else do
      match ← platformLock .exclusive true (l.shared > 0) with
      | some e => pure (l, some (.errno e))
      | none => pure ({ l with exclusive := l.exclusive + 1 }, none)

def tryLock (l : FileLock) : Mode → Prog (FileLock × Bool × Option Err)
  | .shared =>
    if l.shared > 0 ∨ l.exclusive > 0 then pure ({ l with shared := l.shared + 1 }, true, none)
    else do
      let (ok, err) ← platformTryLock .shared false
      pure (if ok then { l with shared := l.shared + 1 } else l, ok, err.map .errno)
  | .exclusive =>
    if l.exclusive > 0 then pure ({ l with exclusive := l.exclusive + 1 }, true, none)
    else do
      let (ok, err) ← platformTryLock .exclusive (l.shared > 0)
      pure (if ok then { l with exclusive := l.exclusive + 1 } else l, ok, err.map .errno)

def unlock (l : FileLock) : Mode → Prog (FileLock × Option Err)
  | .shared =>
    if l.shared = 0 then pure (l, some (.text "mmkv: unlock shared without holding it"))
    else if l.shared > 1 ∨ l.exclusive > 0 then pure ({ l with shared := l.shared - 1 }, none)
    else do
      match ← platformUnlock false with
      | some e => pure (l, some (.errno e))
      | none => pure ({ l with shared := l.shared - 1 }, none)
  | .exclusive =>
    if l.exclusive = 0 then pure (l, some (.text "mmkv: unlock exclusive without holding it"))
    else if l.exclusive > 1 then pure ({ l with exclusive := l.exclusive - 1 }, none)
    else do
      -- shared references that are left keep a shared lock
      match ← platformUnlock (l.shared > 0) with
      | some e => pure (l, some (.errno e))
      | none => pure ({ l with exclusive := l.exclusive - 1 }, none)

/-- What the counters say the kernel holds. -/
def mode (l : FileLock) : Option Mode :=
  if l.exclusive > 0 then some .exclusive else if l.shared > 0 then some .shared else none

end FileLock

/-- A call of an object. -/
inductive Call where
  | lock (t : Mode)
  | tryLock (t : Mode)
  | unlock (t : Mode)

/-- What a call returns. -/
inductive Ret where
  | done (err : Option Err)
  | tried (ok : Bool) (err : Option Err)

/-- The call returned an error or `false`. -/
def Ret.failed : Ret → Bool
  | .done err => err.isSome
  | .tried ok err => !ok || err.isSome

/-- The program of a call. -/
def Call.prog (l : FileLock) : Call → Prog (FileLock × Ret)
  | .lock t => do
    let (l', err) ← l.lock t
    pure (l', .done err)
  | .tryLock t => do
    let (l', ok, err) ← l.tryLock t
    pure (l', .tried ok err)
  | .unlock t => do
    let (l', err) ← l.unlock t
    pure (l', .done err)

/-! ### What the requests leave -/

section Requests

variable {how : Mode} {wait unlockFirst : Bool} {h : Option Mode}

lemma safe_platformRequest (hnone : h = none) :
    Safe (fun r h' => h' = if r = none then some how else if unlockFirst then some .shared else none)
      (platformRequest how wait unlockFirst) h := by
  subst hnone
  have hfail : ∀ e : Errno, Safe (fun r h' => h' = if r = none then some how else if unlockFirst then some .shared else none)
      (if unlockFirst then (do
        let _ ← Prog.request .reshare
        pure (some e)) else pure (some e)) none := by
    intro e
    cases unlockFirst with
    | false => simp
    | true => exact safe_bind (safe_reshare (by simp))
  exact safe_bind (safe_acquire (by simp) hfail hfail)

/-- **A request of the kernel** begun with a shared lock, to be dropped, or with nothing: it gives the lock asked for,
or it leaves what there was. -/
lemma safe_platformLock (hheld : h = if unlockFirst then some .shared else none) :
    Safe (fun r h' => h' = if r = none then some how else h) (platformLock how wait unlockFirst) h := by
  cases unlockFirst with
  | false =>
    refine (safe_platformRequest hheld).mono fun r h' hr => ?_
    rw [hr, hheld]
  | true =>
    have hdrop : ∀ h₁ : Option Mode, Safe (fun r h' => h' = if r = none then some how else h)
        (do match ← Prog.request .release with
            | some e => pure (some e)
            | none => platformRequest how wait true) h₁ := by
      intro h₁
      refine safe_bind (safe_release ?_)
      refine (safe_platformRequest rfl).mono fun r h' hr => ?_
      rw [hr, hheld]
    exact safe_bind (safe_acquire (by simp) (fun _ => hdrop _) fun _ => hdrop _)

lemma safe_platformTryLock (hheld : h = if unlockFirst then some .shared else none) :
    Safe (fun r h' => (r.1 = true → r.2 = none) ∧ h' = if r.1 then some how else h)
      (platformTryLock how unlockFirst) h := by
  refine safe_bind ((safe_platformLock hheld).mono fun r h' hr => ?_)
  match r, hr with
  | none, hr => simpa using hr
  | some .wouldBlock, hr => simpa using hr
  | some .other, hr => simpa using hr

lemma safe_platformUnlock : Safe (fun r h' => r = none ∧ h' = if unlockFirst then some .shared else none)
    (platformUnlock unlockFirst) h := by
  cases unlockFirst with
  | false => exact safe_release ⟨rfl, rfl⟩
  | true => exact safe_reshare ⟨rfl, rfl⟩

end Requests

/-! ### What the calls leave -/

namespace FileLock

variable {l : FileLock} {t : Mode} {h : Option Mode}

lemma mode_eq_exclusive : l.mode = some .exclusive ↔ 0 < l.exclusive := by
  unfold mode
  split <;> rename_i hex
  · simpa using hex
  · split <;> simpa using hex

lemma mode_eq_none : l.mode = none ↔ l = ⟨0, 0⟩ := by
  unfold mode
  rw [FileLock.ext_iff]
  split <;> rename_i hex
  · simp only [reduceCtorEq, false_iff]
    rintro ⟨-, h0⟩
    exact absurd hex (by simp [h0])
  · split <;> rename_i hsh
    · simp only [reduceCtorEq, false_iff]
      rintro ⟨h0, -⟩
      exact absurd hsh (by simp [h0])
    · simp only [true_iff]
      exact ⟨Nat.eq_zero_of_not_pos hsh, Nat.eq_zero_of_not_pos hex⟩

lemma mode_of_not_exclusive (hex : ¬ 0 < l.exclusive) : l.mode = if decide (l.shared > 0) then some .shared else none := by
  simp [mode, hex]

/-- What a call ensures: the counters say what the kernel holds, and a failed call has not changed them. -/
def Post (l l' : FileLock) (failed : Bool) (h : Option Mode) : Prop :=
  h = l'.mode ∧ (failed = true → l' = l)

@[simp] lemma mode_succ_exclusive : mode { l with exclusive := l.exclusive + 1 } = some .exclusive :=
  mode_eq_exclusive.2 (Nat.succ_pos _)

lemma mode_succ_shared (hheld : 0 < l.shared ∨ 0 < l.exclusive) : mode { l with shared := l.shared + 1 } = l.mode := by
  by_cases hex : 0 < l.exclusive
  · simp [mode, hex]
  · simp [mode, hex, hheld.resolve_right hex]

lemma safe_lock : Safe (fun r h => Post l r.1 r.2.isSome h) (l.lock t) l.mode := by
  cases t with
  | shared =>
    by_cases hheld : 0 < l.shared ∨ 0 < l.exclusive
    · rw [lock, if_pos hheld]
      exact ⟨(mode_succ_shared hheld).symm, by simp⟩
    · rw [lock, if_neg hheld]
      obtain ⟨hs, he⟩ := not_or.1 hheld
      have hnone : l.mode = none := by simp [mode, hs, he]
      refine safe_bind ((safe_platformLock (by simpa using hnone)).mono fun r h' hr => ?_)
      cases r with
      | none => exact ⟨by simp [hr, mode, he], by simp⟩
      | some e => exact ⟨by simpa using hr, by simp⟩
  | exclusive =>
    by_cases hheld : 0 < l.exclusive
    · rw [lock, if_pos hheld]
      exact ⟨by simp [mode_eq_exclusive.2 hheld], by simp⟩
    · rw [lock, if_neg hheld]
      refine safe_bind ((safe_platformLock (mode_of_not_exclusive hheld)).mono fun r h' hr => ?_)
      cases r with
      | none => exact ⟨by simp [hr], by simp⟩
      | some e => exact ⟨by simpa using hr, by simp⟩

lemma safe_tryLock : Safe (fun r h => Post l r.1 (!r.2.1 || r.2.2.isSome) h) (l.tryLock t) l.mode := by
  cases t with
  | shared =>
    by_cases hheld : 0 < l.shared ∨ 0 < l.exclusive
    · rw [tryLock, if_pos hheld]
      exact ⟨(mode_succ_shared hheld).symm, by simp⟩
    · rw [tryLock, if_neg hheld]
      obtain ⟨hs, he⟩ := not_or.1 hheld
      have hnone : l.mode = none := by simp [mode, hs, he]
      refine safe_bind ((safe_platformTryLock (by simpa using hnone)).mono fun r h' hr => ?_)
      obtain ⟨ok, err⟩ := r
      cases ok with
      | true =>
        have herr : err = none := hr.1 rfl
        exact ⟨by simp [hr.2, mode, he], by simp [herr]⟩
      | false => exact ⟨by simpa using hr.2, by simp⟩
  | exclusive =>
    by_cases hheld : 0 < l.exclusive
    · rw [tryLock, if_pos hheld]
      exact ⟨by simp [mode_eq_exclusive.2 hheld], by simp⟩
    · rw [tryLock, if_neg hheld]
      -- an upgrade may let go of the shared lock; what is held in the end is what the counters say either way
      refine safe_bind ((safe_platformTryLock (mode_of_not_exclusive hheld)).mono fun r h' hr => ?_)
      obtain ⟨ok, err⟩ := r
      cases ok with
      | true =>
        have herr : err = none := hr.1 rfl
        exact ⟨by simp [hr.2], by simp [herr]⟩
      | false => exact ⟨by simpa using hr.2, by simp⟩

lemma safe_unlock : Safe (fun r h => Post l r.1 r.2.isSome h) (l.unlock t) l.mode := by
  cases t with
  | shared =>
    rw [unlock]
    split
    · exact ⟨rfl, by simp⟩
    · rename_i hpos
      split
      · rename_i hmore
        -- another reference covers what is held
        refine ⟨?_, by simp⟩
        have hkeep : 0 < l.shared - 1 ∨ 0 < l.exclusive := by omega
        have hsucc := mode_succ_shared (l := { l with shared := l.shared - 1 }) hkeep
        have hsh : l.shared - 1 + 1 = l.shared := by omega
        simpa only [hsh] using hsucc
      · rename_i hlast
        refine safe_bind (safe_platformUnlock.mono fun r h' hr => ?_)
        obtain ⟨rfl, rfl⟩ := hr
        have hzero : l.shared - 1 = 0 ∧ ¬ 0 < l.exclusive := by omega
        exact ⟨by simp [mode, hzero], by simp⟩
  | exclusive =>
    rw [unlock]
    split
    · exact ⟨rfl, by simp⟩
    · rename_i hpos
      split
      · rename_i hmore
        have hkeep : 0 < l.exclusive - 1 := by omega
        exact ⟨by simp [mode, hkeep, Nat.pos_of_ne_zero hpos], by simp⟩
      · rename_i hlast
        refine safe_bind (safe_platformUnlock.mono fun r h' hr => ?_)
        obtain ⟨rfl, rfl⟩ := hr
        have hzero : l.exclusive - 1 = 0 := by omega
        exact ⟨by simp [mode, hzero], by simp⟩

end FileLock

/-- **Every call**, begun while the kernel holds what the counters say. -/
lemma safe_call (c : Call) (l : FileLock) (h : Option Mode) (hheld : h = l.mode) :
    Safe (fun r h => h = r.1.mode ∧ (r.2.failed = true → r.1 = l)) (c.prog l) h := by
  subst hheld
  cases c with
  | lock t => exact safe_bind FileLock.safe_lock
  | tryLock t => exact safe_bind FileLock.safe_tryLock
  | unlock t => exact safe_bind FileLock.safe_unlock

/-! ### Any number of objects -/

/-- One step of one of the objects. -/
abbrev LockStep (ι : Type) [DecidableEq ι] : World ι FileLock Ret → World ι FileLock Ret → Prop :=
  Step fun (c : Call) l => c.prog l

/-- Objects just made, on descriptions just opened. -/
def unlocked (ι : Type) : World ι FileLock Ret where
  party _ := ⟨⟨0, 0⟩, none⟩
  held _ := none

/-- No call of the object is in progress. -/
def Idle {ι : Type} (w : World ι FileLock Ret) (i : ι) : Prop := (w.party i).running = none

/-- **Lock counting matches the kernel.**  In any interleaving of the requests of any number of objects, an object with
no call in progress holds exactly what its counters say; an exclusive reference of one object leaves no reference to
another; and a call that is about to return an error or `false` has left its counters as they were. -/
theorem counters_match_kernel {ι : Type} [DecidableEq ι] {w : World ι FileLock Ret}
    (hrun : Relation.ReflTransGen (LockStep ι) (unlocked ι) w) :
    (∀ i, Idle w i → w.held i = (w.party i).state.mode) ∧
      (∀ i j, j ≠ i → Idle w i → Idle w j → 0 < (w.party i).state.exclusive → (w.party j).state = ⟨0, 0⟩) ∧
      ∀ i l r, (w.party i).running = some (.ret (l, r)) → r.failed = true → l = (w.party i).state := by
  have hinit : Inv (fun l h => h = FileLock.mode l) (fun l l' (r : Ret) => r.failed = true → l' = l) (unlocked ι) :=
    ⟨fun _ _ _ h => (nomatch h), fun _ _ => rfl, fun _ _ h => (nomatch h)⟩
  have hinv := hinit.run safe_call hrun
  refine ⟨hinv.idle, fun i j hne hi hj hex => ?_, fun i l r hr => (hinv.busy i _ hr).2⟩
  have hheld := hinv.exclusive i j hne ((hinv.idle i hi).trans (FileLock.mode_eq_exclusive.2 hex))
  exact FileLock.mode_eq_none.1 ((hinv.idle j hj).symm.trans hheld)

/-- One object has taken the exclusive lock; another, which tried for a shared one, is about to be told that the lock is
contended. -/
lemma exists_contended : ∃ w : World Bool FileLock Ret, Relation.ReflTransGen (LockStep Bool) (unlocked Bool) w ∧
    w.party true = ⟨⟨0, 1⟩, none⟩ ∧ w.party false = ⟨⟨0, 0⟩, some (.ret (⟨0, 0⟩, .tried false none))⟩ := by
  have hcall : LockStep Bool (unlocked Bool) _ := .call true (.lock .exclusive) rfl
  have hgranted := (Relation.ReflTransGen.single hcall).tail
    (.reply true _ _ none (some .exclusive) rfl (.granted _ _ _) fun t _ => .inr fun j _ => .inl rfl)
  have hdone := hgranted.tail (.finish true ⟨0, 1⟩ (.done none) rfl)
  have htried := hdone.tail (.call false (.tryLock .shared) rfl)
  exact ⟨_, htried.tail (.reply false _ _ (some .wouldBlock) none rfl (.refused _ _ _ _) nofun), rfl, rfl⟩

/-- What the kernel holds for the first of the two, and the counters of the second. -/
theorem contended_counters : ∃ w : World Bool FileLock Ret,
    Relation.ReflTransGen (LockStep Bool) (unlocked Bool) w ∧ w.held true = some .exclusive ∧
      (w.party false).state = ⟨0, 0⟩ := by
  obtain ⟨w, hrun, htrue, hfalse⟩ := exists_contended
  obtain ⟨hheld, -, hkept⟩ := counters_match_kernel hrun
  refine ⟨w, hrun, ?_, ?_⟩
  · rw [hheld true (by simp [Idle, htrue]), htrue]
    rfl
  · exact (hkept false _ _ (by rw [hfalse]) rfl).symm

end MmkvGo.Lock
