import Mathlib.Tactic.Common
import MmkvGo.Lib.Runs
import MmkvGo.Lock.FileLock

/-!
The three locks of a process: the registry's (`gInstanceMu`), each instance's (`mu`), and the kernel's on each ".crc" file.

A step is one acquisition or release by one goroutine.  The instances are in multi-process mode; the registry has one of
each file at most, but one that was closed stays with the goroutines that have it.  An access takes `mu` and then the
kernel's lock through its instance's description; `MMKVWithID` takes `gInstanceMu` and, where it repairs what it
salvaged, the kernel's lock through the description of the instance it makes; `RestoreOneFromDirectory` takes the
kernel's lock through a description of its own, then `gInstanceMu` and then `mu`.  Its order contradicts both of the
others: a goroutine that has `mu` or `gInstanceMu` and one that has the file wait for each other for ever.
-/

namespace MmkvGo.Lock

open Lib Lib.Flock

/-! ### The calls -/

/-- An instance: its file, and a number for those that the process makes of the same file. -/
structure Inst (φ : Type) where
  file : φ
  no : ℕ
  deriving DecidableEq

/-- One acquisition or release, or what is done between them that matters to the locks. -/
inductive Instr (φ : Type) where
  | lockG
  | unlockG
  /-- `if m := gInstances[key]; m != nil` of a restore: take and release the instance's lock. -/
  | lookup (i : φ)
  /-- `if m := gInstances[key]; m != nil && !m.closed` of `MMKVWithID`, and `m.open()` where there is none: it may have to
  repair a salvaged store, and may fail. -/
  | find (i : φ) (repair ok : Bool)
  /-- `m.fl.lock(exclusiveLock)` of `open` -/
  | openLock (h : Inst φ)
  | openUnlock (h : Inst φ)
  /-- `gInstances[key] = m` -/
  | register (h : Inst φ)
  /-- The open failed: nobody gets the instance. -/
  | abandon (h : Inst φ)
  /-- The instance leaves the registry. -/
  | deregister (h : Inst φ)
  | lockM (h : Inst φ)
  | unlockM (h : Inst φ)
  /-- `m.fl.lock(t)` -/
  | flock (h : Inst φ) (t : Mode)
  /-- `m.fl.unlock(t)` -/
  | funlock (h : Inst φ) (t : Mode)
  /-- The instance is closed, and its description with it. -/
  | closeFile (h : Inst φ)
  /-- `flockExclusive` on the restore's own description. -/
  | restoreLock (i : φ)
  | restoreUnlock (i : φ)

/-- A call on a multi-process instance or on its file. -/
inductive FileCall (φ : Type) where
  | get (h : Inst φ)
  | set (h : Inst φ)
  | lock (h : Inst φ)
  | unlock (h : Inst φ)
  | mmkvWithID (i : φ) (repair ok : Bool)
  | close (h : Inst φ)
  | importFrom (dst src : Inst φ)
  | restoreOneFromDirectory (i : φ)

section Instrs

variable {φ : Type} [DecidableEq φ]

/-- `lockShared` … `unlockShared`, and the same with exclusive locks. -/
def accessInstrs (h : Inst φ) (t : Mode) : List (Instr φ) := [.lockM h, .flock h t, .funlock h t, .unlockM h]

def FileCall.instrs : FileCall φ → List (Instr φ)
  | .get h => accessInstrs h .shared
  | .set h => accessInstrs h .exclusive
  | .lock h => [.lockM h, .flock h .exclusive, .unlockM h]
  | .unlock h => [.lockM h, .funlock h .exclusive, .unlockM h]
  | .mmkvWithID i repair ok => [.lockG, .find i repair ok, .unlockG]
  | .close h => [.lockG, .deregister h, .unlockG, .lockM h, .closeFile h, .unlockM h]
  | .importFrom dst src => if src = dst then [] else accessInstrs src .shared ++ accessInstrs dst .exclusive
  | .restoreOneFromDirectory i => [.restoreLock i, .lockG, .lookup i, .unlockG, .restoreUnlock i]

omit [DecidableEq φ] in
/-- The instances that the caller must have. -/
def FileCall.insts : FileCall φ → List (Inst φ)
  | .get h | .set h | .lock h | .unlock h | .close h => [h]
  | .importFrom dst src => [dst, src]
  | .mmkvWithID _ _ _ | .restoreOneFromDirectory _ => []

/-- What `open` does about the locks and the registry once the instance `h` has its files. -/
def openInstrs (h : Inst φ) (repair ok : Bool) : List (Instr φ) :=
  (if repair then [.openLock h, .openUnlock h] else []) ++ [if ok then .register h else .abandon h]

/-- What a restore does with the instance that the registry has of its file. -/
def lookupInstrs (i : φ) : Option ℕ → List (Instr φ)
  | some n => [.lockM ⟨i, n⟩, .unlockM ⟨i, n⟩]
  | none => []

end Instrs

/-! ### The steps -/

/-- The program asks the kernel for something. -/
def asks {α : Type} : Prog α → Bool
  | .ret _ => false
  | .flock _ _ => true

/-- The result of a program when every request gets one answer. -/
def answered {α : Type} (r : Option Errno) : Prog α → α
  | .ret a => a
  | .flock _ k => answered r (k r)

/-- A description that holds `held` keeps another one from a lock of the kind `t`. -/
def excludes (held : Option Mode) (t : Mode) : Bool := held = some .exclusive || held = some .shared && t = .exclusive

/-- The locks, and what each goroutine has still to do in its call. -/
structure Locks (φ γ : Type) where
  gInstanceMu : Option γ
  mu : Inst φ → Option γ
  fl : Inst φ → FileLock
  /-- The instance has its description: it is made, and not closed. -/
  isOpen : Inst φ → Bool
  /-- `MMKVWithID` has returned the instance. -/
  known : Inst φ → Bool
  /-- How many instances were made of a file. -/
  made : φ → ℕ
  cached : φ → Option ℕ
  /-- The goroutine whose restore has the kernel's lock. -/
  restoring : φ → Option γ
  /-- The references to the kernel's lock that a goroutine has taken through an instance and not given back. -/
  refs : γ → Inst φ → ℕ
  todo : γ → List (Instr φ)

/-- A goroutine begins a call, or goes on with it. -/
inductive LockMove (φ γ : Type) where
  | begin (g : γ) (c : FileCall φ)
  | next (g : γ)

namespace Locks

variable {φ γ : Type} [DecidableEq φ] [DecidableEq γ] (w : Locks φ γ)

/-- The open instance that the registry has of a file. -/
def current (i : φ) : Option ℕ := (w.cached i).filter fun n => w.isOpen ⟨i, n⟩

/-- A request through the description of a closed instance fails; any other one is granted in the end. -/
def reply (h : Inst φ) : Option Errno := if w.isOpen h then none else some .other

/-- The call has to ask the kernel. -/
def waits (h : Inst φ) (t : Mode) : Bool := w.isOpen h && asks ((w.fl h).lock t)

/-- The kernel holds for the description of the instance what keeps others from a lock of the kind `t`. -/
def holds (h : Inst φ) (t : Mode) : Bool := w.isOpen h && excludes (w.fl h).mode t

/-- The instances that were made of the file. -/
def instsOf (i : φ) : List (Inst φ) := (List.range (w.made i)).map (⟨i, ·⟩)

/-- The kernel grants the lock: neither a restore nor another instance of the file has one that excludes it. -/
def grants (h : Inst φ) (t : Mode) : Bool :=
  (w.restoring h.file).isNone && (w.instsOf h.file).all fun h' => h' = h || !w.holds h' t

/-- What can be done now. -/
def ready : Instr φ → Bool
  | .lockG => w.gInstanceMu.isNone
  | .lockM h => (w.mu h).isNone
  | .flock h t => !w.waits h t || w.grants h t
  | .openLock h => !w.waits h .exclusive || w.grants h .exclusive
  | .restoreLock i => (w.restoring i).isNone && (w.instsOf i).all fun h => !w.holds h .exclusive
  | _ => true

/-- `m.fl.lock(t)` by `g`. -/
def lockFile (g : γ) (h : Inst φ) (t : Mode) : Locks φ γ :=
  let r := answered (w.reply h) ((w.fl h).lock t)
  { w with
    fl := Function.update w.fl h r.1
    refs := if r.2 = none then Function.update w.refs g (Function.update (w.refs g) h (w.refs g h + 1)) else w.refs }

/-- `m.fl.unlock(t)` by `g`. -/
def unlockFile (g : γ) (h : Inst φ) (t : Mode) : Locks φ γ :=
  let r := answered (w.reply h) ((w.fl h).unlock t)
  { w with
    fl := Function.update w.fl h r.1
    refs := if r.2 = none then Function.update w.refs g (Function.update (w.refs g) h (w.refs g h - 1)) else w.refs }

/-- What it does. -/
def perform (g : γ) (x : Instr φ) : Locks φ γ :=
  match x with
  | .lockG => { w with gInstanceMu := some g }
  | .unlockG => { w with gInstanceMu := none }
  | .lookup i => { w with todo := Function.update w.todo g (lookupInstrs i (w.cached i) ++ w.todo g) }
  | .find i repair ok =>
    if (w.current i).isSome then w
    else
      { w with
        made := Function.update w.made i (w.made i + 1)
        isOpen := Function.update w.isOpen ⟨i, w.made i⟩ true
        todo := Function.update w.todo g (openInstrs ⟨i, w.made i⟩ repair ok ++ w.todo g) }
  | .openLock h => w.lockFile g h .exclusive
  | .openUnlock h => w.unlockFile g h .exclusive
  | .register h =>
    { w with known := Function.update w.known h true, cached := Function.update w.cached h.file (some h.no) }
  | .abandon h => { w with isOpen := Function.update w.isOpen h false }
  | .deregister h =>
    { w with cached := if w.cached h.file = some h.no then Function.update w.cached h.file none else w.cached }
  | .lockM h => { w with mu := Function.update w.mu h (some g) }
  | .unlockM h => { w with mu := Function.update w.mu h none }
  | .flock h t => w.lockFile g h t
  | .funlock h t => w.unlockFile g h t
  | .closeFile h => { w with isOpen := Function.update w.isOpen h false }
  | .restoreLock i => { w with restoring := Function.update w.restoring i (some g) }
  | .restoreUnlock i => { w with restoring := Function.update w.restoring i none }

/-- A call begins where its caller has the instances it names. -/
def step : LockMove φ γ → Locks φ γ
  | .begin g c => if w.todo g = [] ∧ c.insts.all w.known then { w with todo := Function.update w.todo g c.instrs } else w
  | .next g =>
    match w.todo g with
    | [] => w
    | x :: l => if w.ready x then { w with todo := Function.update w.todo g l }.perform g x else w

/-- The kernel keeps a request through `h` waiting for what `b` holds: a restore, or a reference to another instance of
the file. -/
def Denies (h : Inst φ) (t : Mode) (b : γ) : Prop :=
  w.waits h t = true ∧
    (w.restoring h.file = some b ∨ ∃ h', h'.file = h.file ∧ h' ≠ h ∧ w.holds h' t = true ∧ 0 < w.refs b h')

/-- The goroutine `a` is blocked on a lock that `b` holds. -/
def Blocks (a b : γ) : Prop :=
  match w.todo a with
  | .lockG :: _ => w.gInstanceMu = some b
  | .lockM h :: _ => w.mu h = some b
  | .flock h t :: _ => w.Denies h t b
  | .openLock h :: _ => w.Denies h .exclusive b
  | .restoreLock i :: _ => w.restoring i = some b ∨ ∃ h, h.file = i ∧ w.holds h .exclusive = true ∧ 0 < w.refs b h
  | _ => False

/-- A cycle of goroutines, each blocked on a lock that the next one holds. -/
def Deadlock : Prop := ∃ a, Relation.TransGen w.Blocks a a

end Locks

/-! ### Where a goroutine is -/

/-- What a goroutine holds in the middle of a call. -/
inductive Phase (φ : Type) where
  | free
  /-- The registry's lock. -/
  | registry
  /-- That, and on its way to or in the repair of the instance that it opens. -/
  | opening (h : Inst φ)
  /-- The lock of an instance. -/
  | access (h : Inst φ)
  /-- The file that it restores. -/
  | restore (i : φ)
  /-- That, and the registry's lock. -/
  | restoreRegistry (i : φ)
  /-- That, and the lock of the instance. -/
  | restoreAccess (i : φ) (h : Inst φ)

namespace Phase

variable {φ : Type} [DecidableEq φ]

def holdsG : Phase φ → Bool
  | .registry | .opening _ | .restoreRegistry _ | .restoreAccess _ _ => true
  | _ => false

def holdsM : Phase φ → Option (Inst φ)
  | .access h | .restoreAccess _ h => some h
  | _ => none

def restores : Phase φ → Option φ
  | .restore i | .restoreRegistry i | .restoreAccess i _ => some i
  | _ => none

/-- The phase after an instruction that can stand there. -/
def next : Phase φ → Instr φ → Option (Phase φ)
  | .free, .lockG => some .registry
  | .free, .lockM h => some (.access h)
  | .free, .restoreLock i => some (.restore i)
  | .registry, .deregister _ => some .registry
  | .registry, .find _ _ _ => some .registry
  | .registry, .register _ => some .registry
  | .registry, .abandon _ => some .registry
  | .registry, .unlockG => some .free
  | .opening h, .openLock h' => if h' = h then some (.opening h) else none
  | .opening h, .openUnlock h' => if h' = h then some .registry else none
  | .access h, .flock h' _ => if h' = h then some (.access h) else none
  | .access h, .funlock h' _ => if h' = h then some (.access h) else none
  | .access h, .closeFile h' => if h' = h then some (.access h) else none
  | .access h, .unlockM h' => if h' = h then some .free else none
  | .restore i, .lockG => some (.restoreRegistry i)
  | .restore i, .restoreUnlock j => if j = i then some .free else none
  | .restoreRegistry i, .lookup j => if j = i then some (.restoreRegistry i) else none
  | .restoreRegistry i, .lockM h => if h.file = i then some (.restoreAccess i h) else none
  | .restoreRegistry i, .unlockG => some (.restore i)
  | .restoreAccess i h, .unlockM h' => if h' = h then some (.restoreRegistry i) else none
  | _, _ => none

/-- The rest of a call can be done from the phase, and gives everything back. -/
def Follows (ph : Phase φ) : List (Instr φ) → Prop
  | [] => ph = .free
  | x :: l => ∃ ph', ph.next x = some ph' ∧ Follows ph' l

lemma follows_append {l l' : List (Instr φ)} {ph : Phase φ} (h : ph.Follows l) (h' : Follows .free l') :
    ph.Follows (l ++ l') := by
  induction l generalizing ph with
  | nil =>
    cases h
    exact h'
  | cons x l ih =>
    obtain ⟨ph', hx, h⟩ := h
    exact ⟨ph', hx, ih h⟩

lemma follows_access (h : Inst φ) (t : Mode) : Follows .free (accessInstrs h t) :=
  ⟨_, rfl, _, if_pos rfl, _, if_pos rfl, _, if_pos rfl, rfl⟩

section Next

variable {p q : Phase φ} {i : φ} {h : Inst φ}

omit [DecidableEq φ] in
lemma same_of_some {β : Type} [DecidableEq β] {a b : β} {r : Phase φ} (h : (if a = b then some r else none) = some q) :
    a = b ∧ q = r := by
  obtain ⟨hj, hq⟩ := Option.ite_none_right_eq_some.1 h
  exact ⟨hj, (Option.some.inj hq).symm⟩

lemma next_lockG (h : p.next .lockG = some q) :
    (p.holdsG = false ∧ q.holdsG = true) ∧ (p.holdsM = none ∧ q.holdsM = none) ∧ q.restores = p.restores := by
  cases p <;> cases h <;> exact ⟨⟨rfl, rfl⟩, ⟨rfl, rfl⟩, rfl⟩

lemma next_unlockG (h : p.next .unlockG = some q) :
    (p.holdsG = true ∧ q.holdsG = false) ∧ q.holdsM = p.holdsM ∧ q.restores = p.restores := by
  cases p <;> cases h <;> exact ⟨⟨rfl, rfl⟩, rfl, rfl⟩

lemma next_lookup (h : p.next (.lookup i) = some q) : p = .restoreRegistry i ∧ q = .restoreRegistry i := by
  cases p with
  | restoreRegistry j =>
    obtain ⟨rfl, rfl⟩ := same_of_some h
    exact ⟨rfl, rfl⟩
  | _ => cases h

lemma next_find {repair ok : Bool} (h : p.next (.find i repair ok) = some q) : p = .registry ∧ q = .registry := by
  cases p <;> cases h
  exact ⟨rfl, rfl⟩

lemma next_register (hn : p.next (.register h) = some q) : p = .registry ∧ q = .registry := by
  cases p <;> cases hn
  exact ⟨rfl, rfl⟩

lemma next_abandon (hn : p.next (.abandon h) = some q) : p = .registry ∧ q = .registry := by
  cases p <;> cases hn
  exact ⟨rfl, rfl⟩

lemma next_deregister (hn : p.next (.deregister h) = some q) : p = .registry ∧ q = .registry := by
  cases p <;> cases hn
  exact ⟨rfl, rfl⟩

lemma next_openLock (hn : p.next (.openLock h) = some q) : p = .opening h ∧ q = .opening h := by
  cases p with
  | opening h' =>
    obtain ⟨rfl, rfl⟩ := same_of_some hn
    exact ⟨rfl, rfl⟩
  | _ => cases hn

lemma next_openUnlock (hn : p.next (.openUnlock h) = some q) : p = .opening h ∧ q = .registry := by
  cases p with
  | opening h' =>
    obtain ⟨rfl, rfl⟩ := same_of_some hn
    exact ⟨rfl, rfl⟩
  | _ => cases hn

lemma next_lockM (hn : p.next (.lockM h) = some q) :
    (p.holdsM = none ∧ q.holdsM = some h) ∧ q.holdsG = p.holdsG ∧ q.restores = p.restores := by
  cases p with
  | free =>
    cases hn
    exact ⟨⟨rfl, rfl⟩, rfl, rfl⟩
  | restoreRegistry j =>
    obtain ⟨rfl, rfl⟩ := same_of_some hn
    exact ⟨⟨rfl, rfl⟩, rfl, rfl⟩
  | _ => cases hn

lemma next_unlockM (hn : p.next (.unlockM h) = some q) :
    (p.holdsM = some h ∧ q.holdsM = none) ∧ q.holdsG = p.holdsG ∧ q.restores = p.restores := by
  cases p with
  | access h' | restoreAccess j h' =>
    obtain ⟨rfl, rfl⟩ := same_of_some hn
    exact ⟨⟨rfl, rfl⟩, rfl, rfl⟩
  | _ => cases hn

lemma next_flock {t : Mode} (hn : p.next (.flock h t) = some q) : p = .access h ∧ q = .access h := by
  cases p with
  | access h' =>
    obtain ⟨rfl, rfl⟩ := same_of_some hn
    exact ⟨rfl, rfl⟩
  | _ => cases hn

lemma next_funlock {t : Mode} (hn : p.next (.funlock h t) = some q) : p = .access h ∧ q = .access h := by
  cases p with
  | access h' =>
    obtain ⟨rfl, rfl⟩ := same_of_some hn
    exact ⟨rfl, rfl⟩
  | _ => cases hn

lemma next_closeFile (hn : p.next (.closeFile h) = some q) : p = .access h ∧ q = .access h := by
  cases p with
  | access h' =>
    obtain ⟨rfl, rfl⟩ := same_of_some hn
    exact ⟨rfl, rfl⟩
  | _ => cases hn

lemma next_restoreLock (h : p.next (.restoreLock i) = some q) : p = .free ∧ q = .restore i := by
  cases p <;> cases h
  exact ⟨rfl, rfl⟩

lemma next_restoreUnlock (h : p.next (.restoreUnlock i) = some q) : p = .restore i ∧ q = .free := by
  cases p with
  | restore j =>
    obtain ⟨rfl, rfl⟩ := same_of_some h
    exact ⟨rfl, rfl⟩
  | _ => cases h

lemma next_ne_opening {x : Instr φ} (hp : p ≠ .opening h) (hn : p.next x = some q) : q ≠ .opening h := by
  rintro rfl
  cases p <;> cases x <;> first | cases hn | skip
  all_goals
    obtain ⟨-, hq⟩ := same_of_some hn
    cases hq
  exact hp rfl

lemma mem_of_opening {l : List (Instr φ)} (hl : Follows (.opening h) l) : .openUnlock h ∈ l := by
  induction l with
  | nil => cases hl
  | cons x l ih =>
    obtain ⟨q, hn, hl⟩ := hl
    cases x with
    | openLock h' =>
      obtain ⟨-, rfl⟩ := same_of_some hn
      exact List.mem_cons_of_mem _ (ih hl)
    | openUnlock h' =>
      obtain ⟨rfl, -⟩ := same_of_some hn
      exact List.mem_cons_self
    | _ => cases hn

end Next

lemma follows_open {h : Inst φ} {repair ok : Bool} {l : List (Instr φ)} (hl : Follows .registry l) :
    Follows (if repair then .opening h else .registry) (openInstrs h repair ok ++ l) := by
  cases repair <;> cases ok
  · exact ⟨_, rfl, hl⟩
  · exact ⟨_, rfl, hl⟩
  · exact ⟨_, if_pos rfl, _, if_pos rfl, _, rfl, hl⟩
  · exact ⟨_, if_pos rfl, _, if_pos rfl, _, rfl, hl⟩

/-- **Every call gives everything back.** -/
theorem follows_instrs (c : FileCall φ) : Follows .free c.instrs := by
  cases c with
  | get h => exact follows_access h _
  | set h => exact follows_access h _
  | lock h => exact ⟨_, rfl, _, if_pos rfl, _, if_pos rfl, rfl⟩
  | unlock h => exact ⟨_, rfl, _, if_pos rfl, _, if_pos rfl, rfl⟩
  | mmkvWithID i repair ok => exact ⟨_, rfl, _, rfl, _, rfl, rfl⟩
  | close h => exact ⟨_, rfl, _, rfl, _, rfl, _, rfl, _, if_pos rfl, _, if_pos rfl, rfl⟩
  | importFrom dst src =>
    rw [FileCall.instrs]
    split
    · rfl
    · exact follows_append (follows_access src _) (follows_access dst _)
  | restoreOneFromDirectory i => exact ⟨_, rfl, _, rfl, _, if_pos rfl, _, rfl, _, if_pos rfl, rfl⟩

end Phase

/-! ### The invariant -/

namespace Locks

variable {φ γ : Type} [DecidableEq φ] [DecidableEq γ]

/-- The locks are held as the phases say, a file has one open instance at most, and one that is being restored is neither
accessed nor repaired. -/
structure Held (w : Locks φ γ) (ph : γ → Phase φ) : Prop where
  follows : ∀ g, (ph g).Follows (w.todo g)
  registry : ∀ g, w.gInstanceMu = some g ↔ (ph g).holdsG = true
  access : ∀ g h, w.mu h = some g ↔ (ph g).holdsM = some h
  restore : ∀ g i, w.restoring i = some g ↔ (ph g).restores = some i
  single : ∀ h h', h'.file = h.file → w.isOpen h = true → w.isOpen h' = true → h' = h
  alone : ∀ g h, w.restoring h.file = some g → w.isOpen h = false ∨ w.mu h = none ∨ w.mu h = some g
  apart : ∀ g g' h, w.restoring h.file = some g → ph g' ≠ .opening h
  /-- A restore begins by taking the file. -/
  first : ∀ g i, .restoreLock i ∉ (w.todo g).tail
  outside : ∀ g i l, w.todo g = .restoreLock i :: l → ∀ h, w.refs g h = 0

/-- Some phases fit the locks. -/
def Orderly (w : Locks φ γ) : Prop := ∃ ph, w.Held ph

/-- The condition on a move.  A restore is not called by a goroutine that still has a reference to a lock; it gets the file
only while nobody has the lock of an open instance of it and nobody repairs one; while it has the file, nobody else takes
the lock of an open instance of it, and none is opened.  An instance is opened only when those made before are closed. -/
def OK (w : Locks φ γ) : LockMove φ γ → Prop
  | .begin g (.restoreOneFromDirectory _) => ∀ h, w.refs g h = 0
  | .begin _ _ => True
  | .next g =>
    match w.todo g with
    | .lockM h :: _ => w.isOpen h = false ∨ w.restoring h.file = none ∨ w.restoring h.file = some g
    | .find i _ _ :: _ => w.current i = none → (∀ n, w.isOpen ⟨i, n⟩ = false) ∧ w.restoring i = none
    | .restoreLock i :: _ =>
      (∀ n, w.isOpen ⟨i, n⟩ = false ∨ w.mu ⟨i, n⟩ = none) ∧ ∀ g' h, .openUnlock h ∈ w.todo g' → h.file ≠ i
    | _ => True

variable {w w' : Locks φ γ} {ph : γ → Phase φ} {g : γ}

/-- What one step of `g` does to the owner of a lock and to whether the phase of `g` says that it has the lock: nothing, or
it takes the lock, or it gives it back. -/
def Passes (g : γ) (o o' : Option γ) (p p' : Prop) : Prop :=
  o' = o ∧ (p' ↔ p) ∨ o = none ∧ o' = some g ∧ p' ∨ p ∧ o' = none ∧ ¬ p'

section Passes

variable {o : Option γ} {p p' : Prop}

omit [DecidableEq γ] in
lemma Passes.keep (h : p' ↔ p) : Passes g o o p p' := .inl ⟨rfl, h⟩

omit [DecidableEq γ] in
lemma Passes.take (ho : o = none) (hp' : p') : Passes g o (some g) p p' := .inr (.inl ⟨ho, rfl, hp'⟩)

omit [DecidableEq γ] in
lemma Passes.release (hp : p) (hp' : ¬ p') : Passes g o none p p' := .inr (.inr ⟨hp, rfl, hp'⟩)

omit [DecidableEq φ] [DecidableEq γ] in
lemma Passes.at {β : Type} [DecidableEq β] {own : β → Option γ} {p p' : β → Prop} {i : β}
    (hi : Passes g (own i) o (p i) (p' i)) (hne : ∀ j, j ≠ i → (p' j ↔ p j)) (j : β) :
    Passes g (own j) (Function.update own i o j) (p j) (p' j) := by
  by_cases hj : j = i
  · subst hj
    rwa [Function.update_self]
  · rw [Function.update_of_ne hj]
    exact .keep (hne j hj)

omit [DecidableEq φ] in
lemma owner_update (f : Phase φ → Prop) {q : Phase φ} {o o' : Option γ} (h : ∀ g, o = some g ↔ f (ph g))
    (ho : Passes g o o' (f (ph g)) (f q)) (g' : γ) : o' = some g' ↔ f (Function.update ph g q g') := by
  by_cases hg : g' = g
  · subst hg
    rw [Function.update_self]
    rcases ho with ⟨rfl, hp⟩ | ⟨-, rfl, hp⟩ | ⟨-, rfl, hp⟩
    · exact (h g').trans hp.symm
    · simp [hp]
    · simp [hp]
  · rw [Function.update_of_ne hg, ← h g']
    rcases ho with ⟨rfl, -⟩ | ⟨rfl, rfl, -⟩ | ⟨hp, rfl, -⟩
    · rfl
    · simp [Ne.symm hg]
    · rw [(h g).2 hp]
      simp [Ne.symm hg]

end Passes

/-- **One acquisition or release**: the phase of the goroutine changes, and the locks with it. -/
theorem Held.update (hw : w.Held ph) {l : List (Instr φ)} {q : Phase φ} (hq : q.Follows l)
    (htodo : w'.todo = Function.update w.todo g l)
    (hG : Passes g w.gInstanceMu w'.gInstanceMu ((ph g).holdsG = true) (q.holdsG = true))
    (hM : ∀ h, Passes g (w.mu h) (w'.mu h) ((ph g).holdsM = some h) (q.holdsM = some h))
    (hR : ∀ i, Passes g (w.restoring i) (w'.restoring i) ((ph g).restores = some i) (q.restores = some i))
    (hsingle : ∀ h h', h'.file = h.file → w'.isOpen h = true → w'.isOpen h' = true → h' = h)
    (halone : ∀ g' h, w'.restoring h.file = some g' → w'.isOpen h = false ∨ w'.mu h = none ∨ w'.mu h = some g')
    (hapart : ∀ g' g'' h, w'.restoring h.file = some g' → Function.update ph g q g'' ≠ .opening h)
    (hrefs : ∀ g', g' ≠ g → w'.refs g' = w.refs g') (hfirst : ∀ i, .restoreLock i ∉ l) :
    w'.Held (Function.update ph g q) := by
  refine ⟨fun g' => ?_, owner_update (fun p => p.holdsG = true) hw.registry hG,
    fun g' h => owner_update (fun p => p.holdsM = some h) (fun g' => hw.access g' h) (hM h) g',
    fun g' i => owner_update (fun p => p.restores = some i) (fun g' => hw.restore g' i) (hR i) g', hsingle, halone,
    hapart, fun g' i hmem => ?_, fun g' i l' hl => ?_⟩
  · by_cases hg : g' = g
    · subst hg
      simpa [htodo] using hq
    · simpa [htodo, hg] using hw.follows g'
  · by_cases hg : g' = g
    · subst hg
      simp only [htodo, Function.update_self] at hmem
      exact hfirst i (List.mem_of_mem_tail hmem)
    · simp only [htodo, Function.update_of_ne hg] at hmem
      exact hw.first g' i hmem
  · by_cases hg : g' = g
    · subst hg
      simp only [htodo, Function.update_self] at hl
      exact absurd (by simp [hl]) (hfirst i)
    · simp only [htodo, Function.update_of_ne hg] at hl
      rw [hrefs g' hg]
      exact hw.outside g' i l' hl

lemma Held.apart_update (hw : w.Held ph) {q : Phase φ} (hq : ∀ h, ph g ≠ .opening h → q ≠ .opening h) (g' g'' : γ)
    (h : Inst φ) (hR : w.restoring h.file = some g') : Function.update ph g q g'' ≠ .opening h := by
  by_cases hg : g'' = g
  · subst hg
    rw [Function.update_self]
    exact hq h (hw.apart g' g'' h hR)
  · rw [Function.update_of_ne hg]
    exact hw.apart g' g'' h hR

/-- **An instruction that changes no owner**, and opens no instance. -/
lemma Held.quiet (hw : w.Held ph) {l : List (Instr φ)} {q : Phase φ} (hq : q.Follows l)
    (hqG : q.holdsG = (ph g).holdsG) (hqM : q.holdsM = (ph g).holdsM) (hqR : q.restores = (ph g).restores)
    (hopening : ∀ h, ph g ≠ .opening h → q ≠ .opening h)
    (htodo : w'.todo = Function.update w.todo g l) (hG : w'.gInstanceMu = w.gInstanceMu) (hM : w'.mu = w.mu)
    (hR : w'.restoring = w.restoring) (hopen : ∀ h, w'.isOpen h = true → w.isOpen h = true)
    (hrefs : ∀ g', g' ≠ g → w'.refs g' = w.refs g') (hfirst : ∀ i, .restoreLock i ∉ l) :
    w'.Held (Function.update ph g q) := by
  refine hw.update hq htodo (by rw [hG, hqG]; exact .keep .rfl) (fun h => by rw [hM, hqM]; exact .keep .rfl)
    (fun i => by rw [hR, hqR]; exact .keep .rfl)
    (fun h h' hf ho ho' => hw.single h h' hf (hopen h ho) (hopen h' ho')) (fun g' h hg' => ?_)
    (by rw [hR]; exact hw.apart_update hopening) hrefs hfirst
  rw [hR] at hg'
  rw [hM]
  refine (hw.alone g' h hg').imp_left fun hclosed => ?_
  cases ho : w'.isOpen h with
  | false => rfl
  | true => exact absurd (hopen h ho) (by simp [hclosed])

lemma Held.access_update (hw : w.Held ph) {h : Inst φ} {o : Option γ} {l : List (Instr φ)} {q : Phase φ}
    (hq : q.Follows l) (hG : q.holdsG = (ph g).holdsG) (hR : q.restores = (ph g).restores)
    (hopening : ∀ h, ph g ≠ .opening h → q ≠ .opening h)
    (hi : Passes g (w.mu h) o ((ph g).holdsM = some h) (q.holdsM = some h))
    (hne : ∀ h', h' ≠ h → (q.holdsM = some h' ↔ (ph g).holdsM = some h'))
    (halone : ∀ g', w.restoring h.file = some g' → w.isOpen h = false ∨ o = none ∨ o = some g')
    (hfirst : ∀ i, .restoreLock i ∉ l) :
    { w with todo := Function.update w.todo g l, mu := Function.update w.mu h o }.Held (Function.update ph g q) := by
  refine hw.update hq rfl (.keep (by rw [hG])) (Passes.at hi hne) (fun j => .keep (by rw [hR])) hw.single
    (fun g' h' hg' => ?_) (hw.apart_update hopening) (fun _ _ => rfl) hfirst
  by_cases he : h' = h
  · subst he
    simpa using halone g' hg'
  · simpa [he] using hw.alone g' h' hg'

lemma Held.restore_update (hw : w.Held ph) {i : φ} {o : Option γ} {l : List (Instr φ)} {q : Phase φ} (hq : q.Follows l)
    (hG : q.holdsG = (ph g).holdsG) (hM : q.holdsM = (ph g).holdsM)
    (hopening : ∀ h, ph g ≠ .opening h → q ≠ .opening h)
    (hi : Passes g (w.restoring i) o ((ph g).restores = some i) (q.restores = some i))
    (hne : ∀ j, j ≠ i → (q.restores = some j ↔ (ph g).restores = some j))
    (hfree : o = none ∨ (∀ h, h.file = i → w.isOpen h = false ∨ w.mu h = none) ∧ ∀ g' h, h.file = i → ph g' ≠ .opening h)
    (hfirst : ∀ i, .restoreLock i ∉ l) :
    { w with todo := Function.update w.todo g l, restoring := Function.update w.restoring i o }.Held
      (Function.update ph g q) := by
  refine hw.update hq rfl (.keep (by rw [hG])) (fun j => .keep (by rw [hM])) (Passes.at hi hne) hw.single
    (fun g' h hg' => ?_) (fun g' g'' h hg' => ?_) (fun _ _ => rfl) hfirst
  · by_cases he : h.file = i
    · subst he
      simp only [Function.update_self] at hg'
      exact ((hfree.resolve_left (by simp [hg'])).1 h rfl).imp_right .inl
    · exact hw.alone g' h (by simpa [he] using hg')
  · by_cases he : h.file = i
    · subst he
      simp only [Function.update_self] at hg'
      have hnone := (hfree.resolve_left (by simp [hg'])).2
      by_cases hg : g'' = g
      · subst hg
        rw [Function.update_self]
        exact hopening h (hnone g'' h rfl)
      · rw [Function.update_of_ne hg]
        exact hnone g'' h rfl
    · exact hw.apart_update hopening g' g'' h (by simpa [he] using hg')

lemma Held.open_update (hw : w.Held ph) {i : φ} (repair ok : Bool) {l : List (Instr φ)} (hp : ph g = .registry)
    (hl : Phase.Follows .registry l) (hclosed : ∀ n, w.isOpen ⟨i, n⟩ = false) (hnone : w.restoring i = none)
    (hfirst : ∀ i, .restoreLock i ∉ l) :
    { w with
      made := Function.update w.made i (w.made i + 1)
      isOpen := Function.update w.isOpen ⟨i, w.made i⟩ true
      todo := Function.update w.todo g (openInstrs ⟨i, w.made i⟩ repair ok ++ l) }.Held
      (Function.update ph g (if repair then .opening ⟨i, w.made i⟩ else .registry)) := by
  generalize w.made i + 1 = n'
  generalize w.made i = n at *
  have hother : ∀ h : Inst φ, Function.update w.isOpen ⟨i, n⟩ true h = true → h.file = i → h = ⟨i, n⟩ := by
    rintro ⟨j, k⟩ ho rfl
    by_contra hne
    rw [Function.update_of_ne hne, hclosed k] at ho
    cases ho
  refine hw.update (Phase.follows_open hl) rfl (.keep ?_) (fun h => .keep ?_) (fun j => .keep ?_)
    (fun h h' hf ho ho' => ?_) (fun g' h hg' => ?_) (fun g' g'' h hg' => ?_) (fun _ _ => rfl) fun j hmem => ?_
  · rw [hp]
    cases repair <;> simp [Phase.holdsG]
  · rw [hp]
    cases repair <;> simp [Phase.holdsM]
  · rw [hp]
    cases repair <;> simp [Phase.restores]
  · by_cases hi : h.file = i
    · rw [hother h ho hi, hother h' ho' (hf.trans hi)]
    · have hne : h ≠ ⟨i, n⟩ := fun he => hi (by rw [he])
      have hne' : h' ≠ ⟨i, n⟩ := fun he => hi (by rw [← hf, he])
      simp only [Function.update_of_ne hne] at ho
      simp only [Function.update_of_ne hne'] at ho'
      exact hw.single h h' hf ho ho'
  · have hne : h ≠ ⟨i, n⟩ := by
      rintro rfl
      rw [hnone] at hg'
      cases hg'
    simp only [Function.update_of_ne hne]
    exact hw.alone g' h hg'
  · by_cases hg : g'' = g
    · subst hg
      rw [Function.update_self]
      rintro hopening
      split at hopening
      · cases hopening
        rw [hnone] at hg'
        cases hg'
      · cases hopening
    · rw [Function.update_of_ne hg]
      exact hw.apart g' g'' h hg'
  · rw [List.mem_append] at hmem
    rcases hmem with hmem | hmem
    · cases repair <;> cases ok <;> simp [openInstrs] at hmem
    · exact hfirst j hmem

lemma refs_lockFile {h : Inst φ} {t : Mode} {g' : γ} (hg : g' ≠ g) : (w.lockFile g h t).refs g' = w.refs g' := by
  simp only [lockFile]
  split <;> simp [hg]

lemma refs_unlockFile {h : Inst φ} {t : Mode} {g' : γ} (hg : g' ≠ g) : (w.unlockFile g h t).refs g' = w.refs g' := by
  simp only [unlockFile]
  split <;> simp [hg]

omit [DecidableEq γ] in
lemma isOpen_of_update {h h' : Inst φ} (ho : Function.update w.isOpen h false h' = true) : w.isOpen h' = true := by
  by_cases he : h' = h
  · subst he
    simp at ho
  · rwa [Function.update_of_ne he] at ho

theorem Held.perform (hw : w.Held ph) {x : Instr φ} {l : List (Instr φ)} (htodo : w.todo g = x :: l)
    (hready : w.ready x = true) (hok : w.OK (.next g)) :
    ∃ ph', ({ w with todo := Function.update w.todo g l }.perform g x).Held ph' := by
  have hfollows := hw.follows g
  rw [htodo] at hfollows
  obtain ⟨q, hnext, hq⟩ := hfollows
  have hfirst : ∀ i, .restoreLock i ∉ l := by
    intro i hmem
    have h := hw.first g i
    rw [htodo] at h
    exact h hmem
  have hopening : ∀ h, ph g ≠ .opening h → q ≠ .opening h := fun h hp => Phase.next_ne_opening hp hnext
  -- one case per instruction; `Phase.next` says in which phase it can stand
  cases x with
  | lockG =>
    obtain ⟨⟨-, hG⟩, ⟨hpM, hqM⟩, hR⟩ := Phase.next_lockG hnext
    have hnone : w.gInstanceMu = none := by simpa [ready] using hready
    exact ⟨_, hw.update hq rfl (.take hnone hG) (fun i => .keep (by rw [hpM, hqM])) (fun i => .keep (by rw [hR]))
      hw.single hw.alone (hw.apart_update hopening) (fun _ _ => rfl) hfirst⟩
  | unlockG =>
    obtain ⟨⟨hpG, hqG⟩, hM, hR⟩ := Phase.next_unlockG hnext
    exact ⟨_, hw.update hq rfl (.release hpG (by simp [hqG])) (fun i => .keep (by rw [hM])) (fun i => .keep (by rw [hR]))
      hw.single hw.alone (hw.apart_update hopening) (fun _ _ => rfl) hfirst⟩
  | lookup i =>
    obtain ⟨hp, rfl⟩ := Phase.next_lookup hnext
    have hq' : (Phase.restoreRegistry i).Follows (lookupInstrs i (w.cached i) ++ l) := by
      cases w.cached i with
      | none => exact hq
      | some n => exact ⟨_, if_pos rfl, _, if_pos rfl, hq⟩
    refine ⟨_, hw.quiet hq' (by rw [hp]) (by rw [hp]) (by rw [hp]) hopening ?_ rfl rfl rfl (fun _ ho => ho)
      (fun _ _ => rfl) fun j => ?_⟩
    · simp [Locks.perform]
    · cases w.cached i <;> simp [lookupInstrs, hfirst j]
  | find i repair ok =>
    obtain ⟨hp, rfl⟩ := Phase.next_find hnext
    -- not cached, so the open makes an instance: by its condition no other one of the file is open
    by_cases hcur : w.current i = none
    · have hcond : w.current i = none → (∀ n, w.isOpen ⟨i, n⟩ = false) ∧ w.restoring i = none := by
        simpa only [OK, htodo] using hok
      obtain ⟨hclosed, hnone⟩ := hcond hcur
      have hnot : ¬ (({ w with todo := Function.update w.todo g l } : Locks φ γ).current i).isSome = true := by
        change ¬ (w.current i).isSome = true
        simp [hcur]
      have hheld := hw.open_update repair ok hp hq hclosed hnone hfirst
      rw [Locks.perform, if_neg hnot]
      simp only [Function.update_self, Function.update_idem]
      exact ⟨_, hheld⟩
    · have hsome : (({ w with todo := Function.update w.todo g l } : Locks φ γ).current i).isSome = true :=
        Option.isSome_iff_ne_none.2 hcur
      rw [Locks.perform, if_pos hsome]
      exact ⟨_, hw.quiet hq (by rw [hp]) (by rw [hp]) (by rw [hp]) hopening rfl rfl rfl rfl (fun _ ho => ho)
        (fun _ _ => rfl) hfirst⟩
  | openLock h =>
    obtain ⟨hp, rfl⟩ := Phase.next_openLock hnext
    exact ⟨_, hw.quiet hq (by rw [hp]) (by rw [hp]) (by rw [hp]) hopening rfl rfl rfl rfl (fun _ ho => ho)
      (fun g' hg => refs_lockFile hg) hfirst⟩
  | openUnlock h =>
    obtain ⟨hp, rfl⟩ := Phase.next_openUnlock hnext
    exact ⟨_, hw.quiet hq (by rw [hp]; rfl) (by rw [hp]; rfl) (by rw [hp]; rfl) hopening rfl rfl rfl rfl (fun _ ho => ho)
      (fun g' hg => refs_unlockFile hg) hfirst⟩
  | register h =>
    obtain ⟨hp, rfl⟩ := Phase.next_register hnext
    exact ⟨_, hw.quiet hq (by rw [hp]) (by rw [hp]) (by rw [hp]) hopening rfl rfl rfl rfl (fun _ ho => ho)
      (fun _ _ => rfl) hfirst⟩
  | abandon h =>
    obtain ⟨hp, rfl⟩ := Phase.next_abandon hnext
    exact ⟨_, hw.quiet hq (by rw [hp]) (by rw [hp]) (by rw [hp]) hopening rfl rfl rfl rfl (fun _ => isOpen_of_update)
      (fun _ _ => rfl) hfirst⟩
  | deregister h =>
    obtain ⟨hp, rfl⟩ := Phase.next_deregister hnext
    exact ⟨_, hw.quiet hq (by rw [hp]) (by rw [hp]) (by rw [hp]) hopening rfl rfl rfl rfl (fun _ ho => ho)
      (fun _ _ => rfl) hfirst⟩
  | lockM h =>
    obtain ⟨⟨hpM, hqM⟩, hG, hR⟩ := Phase.next_lockM hnext
    have hnone : w.mu h = none := by simpa [ready] using hready
    -- the proviso: nobody but this goroutine restores the file of an open instance
    have hrestore : w.isOpen h = false ∨ w.restoring h.file = none ∨ w.restoring h.file = some g := by
      simpa only [OK, htodo] using hok
    refine ⟨_, hw.access_update hq hG hR hopening (.take hnone hqM) (fun h' hne => ?_) (fun g' hg' => ?_) hfirst⟩
    · simp [hpM, hqM, Ne.symm hne]
    · rcases hrestore with hr | hr | hr
      · exact .inl hr
      · cases hr.symm.trans hg'
      · exact .inr (.inr (hr.symm.trans hg'))
  | unlockM h =>
    obtain ⟨⟨hpM, hqM⟩, hG, hR⟩ := Phase.next_unlockM hnext
    refine ⟨_, hw.access_update hq hG hR hopening (.release hpM (by simp [hqM])) (fun h' hne => ?_)
      (fun _ _ => .inr (.inl rfl)) hfirst⟩
    simp [hpM, hqM, Ne.symm hne]
  | flock h t =>
    obtain ⟨hp, rfl⟩ := Phase.next_flock hnext
    exact ⟨_, hw.quiet hq (by rw [hp]) (by rw [hp]) (by rw [hp]) hopening rfl rfl rfl rfl (fun _ ho => ho)
      (fun g' hg => refs_lockFile hg) hfirst⟩
  | funlock h t =>
    obtain ⟨hp, rfl⟩ := Phase.next_funlock hnext
    exact ⟨_, hw.quiet hq (by rw [hp]) (by rw [hp]) (by rw [hp]) hopening rfl rfl rfl rfl (fun _ ho => ho)
      (fun g' hg => refs_unlockFile hg) hfirst⟩
  | closeFile h =>
    obtain ⟨hp, rfl⟩ := Phase.next_closeFile hnext
    exact ⟨_, hw.quiet hq (by rw [hp]) (by rw [hp]) (by rw [hp]) hopening rfl rfl rfl rfl (fun _ => isOpen_of_update)
      (fun _ _ => rfl) hfirst⟩
  | restoreLock i =>
    obtain ⟨hp, rfl⟩ := Phase.next_restoreLock hnext
    have hnone : w.restoring i = none := by
      simp only [ready, Bool.and_eq_true, Option.isNone_iff_eq_none] at hready
      exact hready.1
    -- the proviso: a restore gets its file while no access to it and no repair of it is under way
    obtain ⟨hfree, hrepair⟩ : (∀ n, w.isOpen ⟨i, n⟩ = false ∨ w.mu ⟨i, n⟩ = none) ∧
        ∀ g' h, .openUnlock h ∈ w.todo g' → h.file ≠ i := by simpa only [OK, htodo] using hok
    refine ⟨_, hw.restore_update hq (by rw [hp]; rfl) (by rw [hp]; rfl) hopening (.take hnone rfl) (fun j hj => ?_)
      (.inr ⟨?_, fun g' h hi hph => ?_⟩) hfirst⟩
    · simp [hp, Phase.restores, Ne.symm hj]
    · rintro ⟨j, n⟩ rfl
      exact hfree n
    · have hopens := hw.follows g'
      rw [hph] at hopens
      exact hrepair g' h (Phase.mem_of_opening hopens) hi
  | restoreUnlock i =>
    obtain ⟨hp, rfl⟩ := Phase.next_restoreUnlock hnext
    refine ⟨_, hw.restore_update hq (by rw [hp]; rfl) (by rw [hp]; rfl) hopening
      (.release (by rw [hp]; rfl) (by simp [Phase.restores])) (fun j hj => ?_) (.inl rfl) hfirst⟩
    simp [hp, Phase.restores, Ne.symm hj]

theorem Held.begin (hw : w.Held ph) {c : FileCall φ} (hidle : w.todo g = []) (hok : w.OK (.begin g c)) :
    { w with todo := Function.update w.todo g c.instrs }.Held ph := by
  have hfree : ph g = .free := by simpa only [hidle, Phase.Follows] using hw.follows g
  refine ⟨fun g' => ?_, hw.registry, hw.access, hw.restore, hw.single, hw.alone, hw.apart, fun g' i => ?_,
    fun g' i l hl => ?_⟩ <;>
    by_cases hg : g' = g
  · subst hg
    simpa [hfree] using Phase.follows_instrs c
  · simpa [hg] using hw.follows g'
  · subst hg
    cases c <;> simp [FileCall.instrs, accessInstrs]
    split <;> simp
  · simpa [hg] using hw.first g' i
  · subst hg
    simp only [Function.update_self] at hl
    cases c with
    | restoreOneFromDirectory i => exact hok
    | importFrom dst src =>
      rw [FileCall.instrs] at hl
      split at hl <;> cases hl
    | _ => cases hl
  · simp only [Function.update_of_ne hg] at hl
    exact hw.outside g' i l hl

theorem Held.step (hw : w.Held ph) {a : LockMove φ γ} (hok : w.OK a) : ∃ ph', (w.step a).Held ph' := by
  cases a with
  | begin g c =>
    rw [Locks.step]
    split
    · rename_i hidle
      exact ⟨ph, hw.begin hidle.1 hok⟩
    · exact ⟨ph, hw⟩
  | next g =>
    rw [Locks.step]
    split
    · exact ⟨ph, hw⟩
    · rename_i x l htodo
      split
      · rename_i hready
        exact hw.perform htodo hready hok
      · exact ⟨ph, hw⟩

/-! ### No cycle -/

omit [DecidableEq γ]

/-- The order in which the locks are taken: a file to restore, the registry's lock, an instance's lock, a file to access or
to repair. -/
def rank (w : Locks φ γ) (g : γ) : ℕ :=
  match w.todo g with
  | .lockG :: _ => 1
  | .lockM _ :: _ => 2
  | .flock _ _ :: _ => 3
  | .openLock _ :: _ => 3
  | _ => 0

/-- The kernel keeps an open instance waiting for a restore only. -/
lemma Held.restoring_of_denies (hw : w.Held ph) {h : Inst φ} {t : Mode} {b : γ} (hd : w.Denies h t b) :
    w.isOpen h = true ∧ w.restoring h.file = some b := by
  obtain ⟨hwaits, hd⟩ := hd
  simp only [waits, Bool.and_eq_true] at hwaits
  refine ⟨hwaits.1, hd.resolve_right ?_⟩
  rintro ⟨h', hf, hne, hholds, -⟩
  simp only [holds, Bool.and_eq_true] at hholds
  exact hne (hw.single h h' hf hwaits.1 hholds.1)

/-- Who repairs waits for nothing. -/
lemma Held.not_denies_of_opening (hw : w.Held ph) {a b : γ} {h : Inst φ} {t : Mode} (hp : ph a = .opening h) :
    ¬ w.Denies h t b :=
  fun hd => hw.apart b a h (hw.restoring_of_denies hd).2 hp

/-- Who has the lock of an instance waits for nothing. -/
lemma Held.not_blocks_of_access (hw : w.Held ph) {a b : γ} {h : Inst φ} (ha : w.mu h = some a) : ¬ w.Blocks a b := by
  intro hb
  have hM := (hw.access a h).1 ha
  have hfollows := hw.follows a
  unfold Blocks at hb
  split at hb <;> rename_i htodo <;> try exact hb
  all_goals
    rw [htodo] at hfollows
    obtain ⟨q, hnext, -⟩ := hfollows
  · obtain ⟨-, ⟨hnone, -⟩, -⟩ := Phase.next_lockG hnext
    cases hnone.symm.trans hM
  · obtain ⟨⟨hnone, -⟩, -⟩ := Phase.next_lockM hnext
    cases hnone.symm.trans hM
  · -- the file would be restored by another goroutine while this one accesses it
    obtain ⟨hp, -⟩ := Phase.next_flock hnext
    rw [hp] at hM
    cases hM
    obtain ⟨hopen, hrestore⟩ := hw.restoring_of_denies hb
    have hR := (hw.restore a h.file).not.2 (by rw [hp]; simp [Phase.restores])
    rcases hw.alone b h hrestore with hclosed | hnone | hsame
    · rw [hopen] at hclosed
      cases hclosed
    · rw [ha] at hnone
      cases hnone
    · rw [ha] at hsame
      cases hsame
      exact hR hrestore
  · obtain ⟨hp, -⟩ := Phase.next_openLock hnext
    rw [hp] at hM
    cases hM
  · obtain ⟨hp, -⟩ := Phase.next_restoreLock hnext
    rw [hp] at hM
    cases hM

/-- A goroutine that waits for a file to restore holds nothing. -/
lemma Held.not_restoring_of_blocks (hw : w.Held ph) {a b : γ} (hab : w.Blocks a b) {i : φ} {l : List (Instr φ)}
    (hl : w.todo b = .restoreLock i :: l) : False := by
  have hfollows := hw.follows b
  rw [hl] at hfollows
  obtain ⟨q, hnext, -⟩ := hfollows
  obtain ⟨hp, -⟩ := Phase.next_restoreLock hnext
  have hG := (hw.registry b).not.2 (by rw [hp]; simp [Phase.holdsG])
  have hR := fun j => (hw.restore b j).not.2 (by rw [hp]; simp [Phase.restores])
  have hM := fun h => (hw.access b h).not.2 (by rw [hp]; simp [Phase.holdsM])
  unfold Blocks at hab
  split at hab
  · exact hG hab
  · exact hM _ hab
  · exact hR _ (hw.restoring_of_denies hab).2
  · exact hR _ (hw.restoring_of_denies hab).2
  · rcases hab with h | ⟨h, -, -, hrefs⟩
    · exact hR _ h
    · rw [hw.outside b i l hl] at hrefs
      exact absurd hrefs (Nat.lt_irrefl 0)
  · exact hab

/-- So a goroutine between two others waits for one of the other locks. -/
lemma Held.rank_pos (hw : w.Held ph) {a b c : γ} (hab : w.Blocks a b) (hbc : w.Blocks b c) : 0 < w.rank b := by
  unfold Blocks at hbc
  unfold rank
  split at hbc <;> rename_i htodo
  · simp [htodo]
  · simp [htodo]
  · simp [htodo]
  · simp [htodo]
  · exact (hw.not_restoring_of_blocks hab htodo).elim
  · exact hbc.elim

/-- **The ranks rise along the cycle.** -/
theorem Held.rank_lt (hw : w.Held ph) {a b c : γ} (hab : w.Blocks a b) (hbc : w.Blocks b c) : w.rank a < w.rank b := by
  have hpos := hw.rank_pos hab hbc
  have hblocks := hab
  unfold Blocks at hab
  split at hab <;> rename_i htodo
  · -- who has the registry's lock waits for an instance's lock
    have hG := (hw.registry b).1 hab
    have hfollows := hw.follows b
    have hrank : w.rank a = 1 := by simp [rank, htodo]
    rw [hrank]
    unfold Blocks at hbc
    split at hbc <;> rename_i hb
    · rw [hb] at hfollows
      obtain ⟨q, hnext, -⟩ := hfollows
      obtain ⟨⟨hnot, -⟩, -⟩ := Phase.next_lockG hnext
      cases hnot.symm.trans hG
    · simp [rank, hb]
    · simp [rank, hb]
    · simp [rank, hb]
    · exact (hw.not_restoring_of_blocks hblocks hb).elim
    · exact hbc.elim
  · exact (hw.not_blocks_of_access hab hbc).elim
  · rename_i h t l
    have hfollows := hw.follows a
    rw [htodo] at hfollows
    obtain ⟨q, hnext, -⟩ := hfollows
    obtain ⟨hp, -⟩ := Phase.next_flock hnext
    have hM := (hw.access a h).2 (by rw [hp]; rfl)
    exact (hw.not_blocks_of_access hM hblocks).elim
  · have hfollows := hw.follows a
    rw [htodo] at hfollows
    obtain ⟨q, hnext, -⟩ := hfollows
    obtain ⟨hp, -⟩ := Phase.next_openLock hnext
    exact (hw.not_denies_of_opening hp hab).elim
  · have hrank : w.rank a = 0 := by simp [rank, htodo]
    rw [hrank]
    exact hpos
  · exact hab.elim

theorem Held.not_deadlock (hw : w.Held ph) : ¬ w.Deadlock := by
  rintro ⟨a, hcycle⟩
  have hrank : ∀ {b c}, Relation.TransGen w.Blocks a b → w.Blocks b c → w.rank a < w.rank b := by
    intro b c hab
    induction hab generalizing c with
    | single h => exact hw.rank_lt h
    | tail _ h ih => exact fun hc => Nat.lt_trans (ih h) (hw.rank_lt h hc)
  obtain ⟨b, hab, -⟩ := Relation.TransGen.head'_iff.1 hcycle
  exact Nat.lt_irrefl _ (hrank hcycle hab)

end Locks

/-! ### Runs -/

/-- Nobody does anything, and no file was opened. -/
def idle (φ γ : Type) : Locks φ γ where
  gInstanceMu := none
  mu _ := none
  fl _ := ⟨0, 0⟩
  isOpen _ := false
  known _ := false
  made _ := 0
  cached _ := none
  restoring _ := none
  refs _ _ := 0
  todo _ := []

lemma held_idle (φ γ : Type) [DecidableEq φ] [DecidableEq γ] : (idle φ γ).Held fun _ => .free where
  follows _ := rfl
  registry g := by simp [idle, Phase.holdsG]
  access g h := by simp [idle, Phase.holdsM]
  restore g i := by simp [idle, Phase.restores]
  single h h' _ ho := by cases ho
  alone g h hr := by cases hr
  apart g g' h hr := by cases hr
  first g i := by simp [idle]
  outside g i l h := by cases h

/-- **No deadlock among the three locks** in any run in which a restore is called outside of every `Lock` section, gets its
file only while nobody accesses or repairs an open instance of it, and nobody else begins to while it has the file; and in
which an instance is opened only when those made of its file before are closed. -/
theorem no_deadlock {φ γ : Type} [DecidableEq φ] [DecidableEq γ] {l : List (LockMove φ γ)}
    (hl : Along Locks.OK Locks.step (idle φ γ) l) : ¬ (run Locks.step (idle φ γ) l).Deadlock := by
  have hinv : (run Locks.step (idle φ γ) l).Orderly :=
    hl.invariant (fun _ _ ⟨_, hw⟩ hok => hw.step hok) ⟨_, held_idle φ γ⟩
  obtain ⟨ph, hw⟩ := hinv
  exact hw.not_deadlock

lemma answered_lock (l : FileLock) :
    answered none (l.lock .exclusive) = ({ l with exclusive := l.exclusive + 1 }, none) := by
  rw [FileLock.lock]
  split
  · rfl
  · cases decide (l.shared > 0) <;> rfl

lemma answered_unlock (s n : ℕ) : answered none ((⟨s, n + 1⟩ : FileLock).unlock .exclusive) = (⟨s, n⟩, none) := by
  rw [FileLock.unlock, if_neg (Nat.succ_ne_zero n)]
  split
  · rfl
  · cases decide (s > 0) <;> rfl

/-- The moves of one call. -/
def moves {φ γ : Type} (g : γ) (c : FileCall φ) (n : ℕ) : List (LockMove φ γ) := .begin g c :: List.replicate n (.next g)

/-- One goroutine opens the store and repairs it, and sets a key; another one restores the file and closes the instance; then
the first one opens a second instance. -/
def openSetRestore : List (LockMove Unit Bool) :=
  moves false (.mmkvWithID () true true) 6 ++ moves false (.set ⟨(), 0⟩) 4 ++ moves true (.restoreOneFromDirectory ()) 7 ++
    moves true (.close ⟨(), 0⟩) 6 ++ moves false (.mmkvWithID () true true) 3

/-- The second instance is in its repair, with the registry's lock and the file. -/
theorem openSetRestore_no_deadlock :
    ¬ (run Locks.step (idle Unit Bool) openSetRestore).Deadlock ∧
      (run Locks.step (idle Unit Bool) openSetRestore).todo false =
        [.openUnlock ⟨(), 1⟩, .register ⟨(), 1⟩, .unlockG] := by
  refine ⟨no_deadlock ?_, ?_⟩ <;>
    simp [openSetRestore, moves, List.replicate, Along, Locks.OK, Locks.step, Locks.ready, Locks.perform, Locks.current,
      FileCall.instrs, FileCall.insts, openInstrs, accessInstrs, lookupInstrs, idle, Locks.waits, Locks.instsOf,
      Locks.holds, excludes, FileLock.mode, Locks.grants, Locks.lockFile, Locks.unlockFile, Locks.reply, answered_lock,
      answered_unlock]

/-- A store that is open, a restore that has its file, and a set that has its instance's lock. -/
def restoreAndSet : List (LockMove Unit Bool) :=
  moves false (.mmkvWithID () false true) 4 ++ moves true (.restoreOneFromDirectory ()) 1 ++ moves false (.set ⟨(), 0⟩) 1 ++
    [.next true, .next true]

/-- **A restore and a set wait for each other.** -/
theorem restoreAndSet_deadlock : (run Locks.step (idle Unit Bool) restoreAndSet).Deadlock := by
  have hasks : asks ((⟨0, 0⟩ : FileLock).lock .exclusive) = true := rfl
  have hset : (run Locks.step (idle Unit Bool) restoreAndSet).Blocks false true := by
    simp [restoreAndSet, moves, List.replicate, Locks.step, Locks.ready, Locks.perform, Locks.current, FileCall.instrs,
      FileCall.insts, openInstrs, accessInstrs, lookupInstrs, idle, Locks.Blocks, Locks.Denies, Locks.waits,
      Locks.instsOf, Locks.holds, excludes, FileLock.mode, hasks]
  have hrestore : (run Locks.step (idle Unit Bool) restoreAndSet).Blocks true false := by
    simp [restoreAndSet, moves, List.replicate, Locks.step, Locks.ready, Locks.perform, Locks.current, FileCall.instrs,
      FileCall.insts, openInstrs, accessInstrs, lookupInstrs, idle, Locks.Blocks, Locks.instsOf, Locks.holds, excludes,
      FileLock.mode]
  exact ⟨true, .tail (.single hrestore) hset⟩

/-- A restore that has its file, and an open that is about to repair what it salvaged. -/
def restoreAndOpen : List (LockMove Unit Bool) :=
  moves true (.restoreOneFromDirectory ()) 1 ++ moves false (.mmkvWithID () true true) 2

/-- So do a restore and an open that repairs. -/
theorem restoreAndOpen_deadlock : (run Locks.step (idle Unit Bool) restoreAndOpen).Deadlock := by
  have hasks : asks ((⟨0, 0⟩ : FileLock).lock .exclusive) = true := rfl
  have hopen : (run Locks.step (idle Unit Bool) restoreAndOpen).Blocks false true := by
    simp [restoreAndOpen, moves, List.replicate, Locks.step, Locks.ready, Locks.perform, Locks.current, FileCall.instrs,
      FileCall.insts, openInstrs, idle, Locks.Blocks, Locks.Denies, Locks.waits, Locks.instsOf, hasks]
  have hrestore : (run Locks.step (idle Unit Bool) restoreAndOpen).Blocks true false := by
    simp [restoreAndOpen, moves, List.replicate, Locks.step, Locks.ready, Locks.perform, Locks.current, FileCall.instrs,
      FileCall.insts, openInstrs, idle, Locks.Blocks, Locks.instsOf]
  exact ⟨true, .tail (.single hrestore) hopen⟩

end MmkvGo.Lock
