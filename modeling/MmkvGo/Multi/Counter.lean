import MmkvGo.Lock.Deadlock
import MmkvGo.Multi.Linear
import MmkvGo.Store.Import

/-!
A counter that any number of processes increment, each with `Lock`, `GetInt32`, `SetInt32` and `Unlock`.

The steps are those of the reference-counted lock and of the two accesses, of whichever process the kernel lets go on.  A
getter and a setter take and give back references of their own; between `Lock` and `Unlock` the kernel is not asked for
any of them, so a process keeps its exclusive lock for the whole round.  `Placed` is what the lock says of the places of
the processes in their rounds, `Counting` what the files say of the counter.
-/

namespace MmkvGo.Multi

open MmkvGo.Lib MmkvGo.Lib.Flock MmkvGo.Lock MmkvGo.Wire MmkvGo.Crypt MmkvGo.Store Std

/-! ### The rounds -/

/-- One call of the lock's object, or one access. -/
inductive RoundInstr where
  | flock (t : Mode)
  | funlock (t : Mode)
  | get
  | set
  deriving DecidableEq

/-- `Lock(); v := GetInt32(key); SetInt32(key, v+1); Unlock()`. -/
def roundInstrs : List RoundInstr :=
  [.flock .exclusive] ++ [.flock .shared, .get, .funlock .shared] ++ [.flock .exclusive, .set, .funlock .exclusive] ++
    [.funlock .exclusive]

/-- What the kernel holds for a description after it granted a request. -/
def granted : Cmd → Option Mode
  | .acquire t _ => some t
  | .release => none
  | .reshare => some .shared

/-- What the kernel holds for the description after it granted every request of the program. -/
def heldAfter {α : Type} : Prog α → Option Mode → Option Mode
  | .ret _, h => h
  | .flock c k, _ => heldAfter (k none) (granted c)

/-- The kernel can grant every request of the program to `i`. -/
def Admits {ι α : Type} [DecidableEq ι] (held : ι → Option Mode) (i : ι) : Prog α → Prop
  | .ret _ => True
  | .flock c k => (∀ t, granted c = some t → held i = some t ∨ Grantable held i t) ∧
      Admits (Function.update held i (granted c)) i (k none)

/-- The instances, their locks, what the kernel holds for them, what each process has still to do in its round, what it
got, and the number of rounds that were completed. -/
structure Counters (ι : Type) where
  cluster : Cluster ι
  fl : ι → FileLock
  held : ι → Option Mode
  todo : ι → List RoundInstr
  got : ι → Int32
  rounds : ℕ

/-- No process has begun a round. -/
def Counters.init {ι : Type} (w : Cluster ι) : Counters ι :=
  ⟨w, fun _ => ⟨0, 0⟩, fun _ => none, fun _ => [], fun _ => 0, 0⟩

section Step

variable {ι : Type} [DecidableEq ι]

/-- What the process has left to do is `rest`, after the program `p` of its lock. -/
def Counters.locked (w : Counters ι) (i : ι) (p : Prog (FileLock × Option Lock.Err)) (rest : List RoundInstr) :
    Counters ι :=
  { w with
    fl := Function.update w.fl i (answered none p).1
    held := Function.update w.held i (heldAfter p (w.held i))
    todo := Function.update w.todo i rest }

/-- The process `i` goes on with its round, or begins one. -/
def Counters.step (P : Platform) (key : Bytes) (w : Counters ι) : ι × Sys → Counters ι
  | (i, sys) =>
    match w.todo i with
    | [] => { w with todo := Function.update w.todo i roundInstrs }
    | .flock t :: rest => w.locked i ((w.fl i).lock t) rest
    | .funlock t :: rest =>
      { w.locked i ((w.fl i).unlock t) rest with rounds := if rest = [] then w.rounds + 1 else w.rounds }
    | .get :: rest =>
      match w.cluster.inst i with
      | none => w
      | some m =>
        { w with
          cluster := w.cluster.step P (.read i sys)
          got := Function.update w.got i ((m.get sys w.cluster.disk (fun v => v.getInt32 key) none).2.getD 0)
          todo := Function.update w.todo i rest }
    | .set :: rest =>
      { w with
        cluster := w.cluster.step P (.call i (.set key (.int32 (w.got i + 1))) sys)
        todo := Function.update w.todo i rest }

/-- What is asked of every step: the process has the store open, no call of the system fails, and the kernel grants what
is asked of it. -/
def Counters.Admitted (w : Counters ι) : ι × Sys → Prop
  | (i, sys) => (∃ m, w.cluster.inst i = some m) ∧ sys.OK ∧
    match w.todo i with
    | .flock t :: _ => Admits w.held i ((w.fl i).lock t)
    | .funlock t :: _ => Admits w.held i ((w.fl i).unlock t)
    | _ => True

/-- The condition on a step: when a process gets the counter, there were fewer than 2^32 write-backs since its last
access, and when it sets it, it has the store open for writing and the region stays below 4 GiB. -/
def Counters.OK (key : Bytes) (w : Counters ι) (a : ι × Sys) : Prop :=
  w.Admitted a ∧
    match w.todo a.1 with
    | .get :: _ => w.cluster.behind a.1 < 2 ^ 32
    | .set :: _ => ∀ m, w.cluster.inst a.1 = some m → m.readOnly = false ∧
        4 + ((Op.set key (.int32 (w.got a.1 + 1))).regionAfter a.2 w.cluster.disk
          (m.checkLoadData w.cluster.disk a.2)).length < 2 ^ 32
    | _ => True

end Step

/-! ### The places in a round -/

/-- Where a process is in its round. -/
inductive Place where
  | idle
  | ready
  | locked
  | reading
  | read
  | between
  | writing
  | written
  | unlocking

namespace Place

def todo : Place → List RoundInstr
  | idle => []
  | ready => roundInstrs
  | locked => roundInstrs.drop 1
  | reading => roundInstrs.drop 2
  | read => roundInstrs.drop 3
  | between => roundInstrs.drop 4
  | writing => roundInstrs.drop 5
  | written => roundInstrs.drop 6
  | unlocking => roundInstrs.drop 7

/-- The references that the process has. -/
def fl : Place → FileLock
  | idle | ready => ⟨0, 0⟩
  | locked | between | unlocking => ⟨0, 1⟩
  | reading | read => ⟨1, 1⟩
  | writing | written => ⟨0, 2⟩

def next : Place → Place
  | idle => ready
  | ready => locked
  | locked => reading
  | reading => read
  | read => between
  | between => writing
  | writing => written
  | written => unlocking
  | unlocking => idle

/-- The process has the exclusive lock. -/
def inside (p : Place) : Bool := decide (0 < p.fl.exclusive)

/-- The process has got the counter and not yet set it. -/
def hasGot : Place → Bool
  | read | between | writing => true
  | _ => false

/-- The process has set the counter, and its round is not yet completed. -/
def hasSet : Place → Bool
  | written | unlocking => true
  | _ => false

lemma inside_of_hasGot {p : Place} (h : p.hasGot = true) : p.inside = true := by cases p <;> first | rfl | cases h

lemma inside_of_hasSet {p : Place} (h : p.hasSet = true) : p.inside = true := by cases p <;> first | rfl | cases h

lemma mode_fl (p : Place) : p.fl.mode = if p.inside then some .exclusive else none := by cases p <;> rfl

end Place

/-- The processes are at the places `pl`, their locks and the kernel say so, and at most one is inside its round. -/
structure Placed {ι : Type} (w : Counters ι) (pl : ι → Place) : Prop where
  todo : ∀ i, w.todo i = (pl i).todo
  fl : ∀ i, w.fl i = (pl i).fl
  held : ∀ i, w.held i = (pl i).fl.mode
  one : ∀ i j, (pl i).inside = true → (pl j).inside = true → i = j

section Places

variable {ι : Type} [DecidableEq ι] {P : Platform} {key : Bytes} {w w' : Counters ι} {pl : ι → Place} {i : ι} {sys : Sys}

omit [DecidableEq ι] in
lemma Placed.outside (h : Placed w pl) (hi : (pl i).inside = true) {j : ι} (hj : j ≠ i) : (pl j).inside = false := by
  by_contra hin
  exact hj (h.one j i (by simpa using hin) hi)

lemma Placed.move (h : Placed w pl) {q : Place} (htodo : w'.todo = Function.update w.todo i q.todo)
    (hfl : w'.fl = Function.update w.fl i q.fl) (hheld : w'.held = Function.update w.held i q.fl.mode)
    (hone : q.inside = true → ∀ j, j ≠ i → (pl j).inside = false) : Placed w' (Function.update pl i q) := by
  have hat : ∀ {α : Type} {f' f : ι → α} {g : Place → α}, f' = Function.update f i (g q) → (∀ j, f j = g (pl j)) →
      ∀ j, f' j = g (Function.update pl i q j) := by
    intro α f' f g hf' hf j
    rw [hf']
    by_cases hj : j = i
    · subst hj
      rw [Function.update_self, Function.update_self]
    · rw [Function.update_of_ne hj, Function.update_of_ne hj, hf j]
  refine ⟨hat htodo h.todo, hat hfl h.fl, hat (g := fun p => p.fl.mode) hheld h.held, fun a b ha hb => ?_⟩
  by_cases hai : a = i
  · by_cases hbi : b = i
    · rw [hai, hbi]
    · subst hai
      rw [Function.update_self] at ha
      rw [Function.update_of_ne hbi, hone ha b hbi] at hb
      cases hb
  · by_cases hbi : b = i
    · subst hbi
      rw [Function.update_self] at hb
      rw [Function.update_of_ne hai, hone hb a hai] at ha
      cases ha
    · rw [Function.update_of_ne hai] at ha
      rw [Function.update_of_ne hbi] at hb
      exact h.one a b ha hb

/-- A process that takes the exclusive lock finds no other one inside. -/
lemma Placed.alone (h : Placed w pl) (hp : pl i = .ready) (hgrant : Admits w.held i ((w.fl i).lock .exclusive)) {j : ι}
    (hj : j ≠ i) : (pl j).inside = false := by
  rw [h.fl i, hp] at hgrant
  have hfree : w.held i = some .exclusive ∨ Grantable w.held i .exclusive := hgrant.1 .exclusive rfl
  rw [h.held i, hp] at hfree
  rcases hfree with hself | hfree
  · cases hself
  · rcases hfree j hj with hnone | ⟨-, hmode⟩
    · rw [h.held j, Place.mode_fl] at hnone
      cases hin : (pl j).inside with
      | false => rfl
      | true => simp [hin] at hnone
    · cases hmode

lemma Placed.locked (h : Placed w pl) {q : Place} {p : Prog (FileLock × Option Lock.Err)}
    (hfl : (answered none p).1 = q.fl) (hheld : heldAfter p (w.held i) = q.fl.mode)
    (hone : q.inside = true → ∀ j, j ≠ i → (pl j).inside = false) :
    Placed (w.locked i p q.todo) (Function.update pl i q) :=
  h.move rfl (by rw [← hfl]; rfl) (by rw [← hheld]; rfl) hone

lemma Placed.accessed (h : Placed w pl) {q : Place} (htodo : w'.todo = Function.update w.todo i q.todo)
    (hfl : w'.fl = w.fl) (hheld : w'.held = w.held) (hq : q.fl = (pl i).fl) : Placed w' (Function.update pl i q) := by
  refine h.move htodo ?_ ?_ fun hin j hj => ?_
  · rw [hfl, hq, ← h.fl i, Function.update_eq_self]
  · rw [hheld, hq, ← h.held i, Function.update_eq_self]
  · rw [Place.inside, hq] at hin
    exact h.outside hin hj

/-- **One step of the locks**: the process moves to the next place, and no two are inside. -/
theorem Placed.step (h : Placed w pl) (hok : w.Admitted (i, sys)) :
    Placed (w.step P key (i, sys)) (Function.update pl i (pl i).next) := by
  obtain ⟨⟨m, hm⟩, -, hgrant⟩ := hok
  have htodo := h.todo i
  have hfl := h.fl i
  have hheld := h.held i
  have hout := fun hi j (hj : j ≠ i) => h.outside hi hj
  rw [Counters.step]
  cases hp : pl i <;> rw [hp] at htodo hfl hheld hout <;>
    simp only [htodo, Place.todo, roundInstrs, List.drop, List.cons_append, List.nil_append] at hgrant ⊢
  case idle => exact h.accessed rfl rfl rfl (by rw [hp]; rfl)
  case reading =>
    rw [hm]
    exact h.accessed rfl rfl rfl (by rw [hp]; rfl)
  case writing => exact h.accessed rfl rfl rfl (by rw [hp]; rfl)
  case ready =>
    exact h.locked (q := .locked) (by rw [hfl]; rfl) (by rw [hfl]; rfl) fun _ j hj => h.alone hp hgrant hj
  case locked => exact h.locked (q := .reading) (by rw [hfl]; rfl) (by rw [hfl, hheld]; rfl) fun _ => hout rfl
  case read => exact h.locked (q := .between) (by rw [hfl]; rfl) (by rw [hfl, hheld]; rfl) fun _ => hout rfl
  case between => exact h.locked (q := .writing) (by rw [hfl]; rfl) (by rw [hfl, hheld]; rfl) fun _ => hout rfl
  case written => exact h.locked (q := .unlocking) (by rw [hfl]; rfl) (by rw [hfl, hheld]; rfl) fun _ => hout rfl
  case unlocking =>
    have hlocked := h.locked (i := i) (q := .idle) (p := (w.fl i).unlock .exclusive) (by rw [hfl]; rfl) (by rw [hfl]; rfl)
      nofun
    exact ⟨hlocked.todo, hlocked.fl, hlocked.held, hlocked.one⟩

end Places

/-! ### The counter -/

/-- The map counts `n` under `key`, at whatever time it is read. -/
def Counts (key : Bytes) (n : ℕ) (c : Content) : Prop :=
  ∀ (dict : Dict) (now : UInt32), OrdMap.lookup dict = c.slots →
    ((⟨dict, c.expire, now⟩ : View).getInt32 key).getD 0 = Int32.ofNat n

lemma counts_zero {key : Bytes} {c : Content} (h : c.slots key = none) : Counts key 0 c := by
  intro dict now hdict
  have hnone : dict[key]? = none := (congrFun hdict key).trans h
  simp [View.getInt32, View.typed, View.value, hnone]

lemma slotValue_slot_zero (c : Content) (sys : Sys) (now : UInt32) (blob : Bytes) :
    slotValue c.expire now (c.slot sys 0 blob) = some blob := by
  rw [Content.slot]
  cases c.expire with
  | false => simp [slotValue]
  | true =>
    rw [if_pos rfl, MMKV.appendExpire]
    simp only [ne_eq, not_true_eq_false, if_false]
    rw [slotValue_append, if_neg (by simp)]

lemma counts_after {key : Bytes} {c : Content} {sys : Sys} {n : ℕ} :
    Counts key n (c.after sys 0 (.set key (.int32 (Int32.ofNat n)))) := by
  intro dict now hdict
  have hslot : dict[key]? = some (c.slot sys 0 (Value.int32 (Int32.ofNat n)).blob) := by
    have hkey := congrFun hdict key
    simp only [Content.after, Function.update_self] at hkey
    exact hkey
  have hvalue : (⟨dict, c.expire, now⟩ : View).value key = some (writeInt32 (Int32.ofNat n) ++ []) := by
    rw [View.value_eq_bind, hslot, Option.bind_some, slotValue_slot_zero, List.append_nil]
    rfl
  have hread : (⟨dict, c.expire, now⟩ : View).getInt32 key = some (Int32.ofNat n) :=
    View.typed_of_value hvalue (readInt32_writeInt32 (Int32.ofNat n) [])
  show ((⟨dict, c.expire, now⟩ : View).getInt32 key).getD 0 = _
  rw [hread]
  rfl

/-- The files hold the one map, no process has a duration, and the counter is the number of rounds: of the completed ones
before the process that is inside has set it, and one more afterwards. -/
structure Counting {ι : Type} (P : Platform) (crypt : Option Cipher) (key : Bytes) (w : Counters ι) (pl : ι → Place)
    (s : Board ι) (mi : MetaInfo) (dict : Dict) : Prop where
  served : Served P crypt w.cluster s mi dict
  restored : w.cluster.restored = false
  seconds : ∀ i, s.seconds i = 0
  got : ∀ i, (pl i).hasGot = true → w.got i = Int32.ofNat w.rounds ∧ w.cluster.behind i = 0
  before : (∀ i, (pl i).hasSet = false) → Counts key w.rounds s.content
  after : ∀ i, (pl i).hasSet = true → Counts key (w.rounds + 1) s.content

section Counting

variable {ι : Type} [DecidableEq ι] {P : Platform} {crypt : Option Cipher} {key : Bytes} {w w' : Counters ι}
  {pl : ι → Place} {s : Board ι} {mi : MetaInfo} {dict : Dict} {i : ι} {m : MMKV} {sys : Sys}

omit [DecidableEq ι] in
lemma Placed.others (h : Placed w pl) (hi : (pl i).inside = true) {j : ι} (hj : j ≠ i) :
    (pl j).hasGot = false ∧ (pl j).hasSet = false := by
  have hout := h.outside hi hj
  constructor
  · by_contra hgot
    rw [Place.inside_of_hasGot (by simpa using hgot)] at hout
    cases hout
  · by_contra hset
    rw [Place.inside_of_hasSet (by simpa using hset)] at hout
    cases hout

lemma Placed.eq_of_update {f : Place → Bool} {q : Place} (hother : ∀ j, j ≠ i → f (pl j) = false) {j : ι}
    (hj : f (Function.update pl i q j) = true) : j = i ∧ f q = true := by
  by_cases hji : j = i
  · subst hji
    rw [Function.update_self] at hj
    exact ⟨rfl, hj⟩
  · rw [Function.update_of_ne hji, hother j hji] at hj
    cases hj

lemma Counting.moved (h : Counting P crypt key w pl s mi dict) {q : Place} (hcluster : w'.cluster = w.cluster)
    (hgot : w'.got = w.got) (hrounds : w'.rounds = w.rounds) (hg : q.hasGot = (pl i).hasGot)
    (hs : q.hasSet = (pl i).hasSet) : Counting P crypt key w' (Function.update pl i q) s mi dict := by
  have hsame : ∀ {f : Place → Bool}, f q = f (pl i) → ∀ j, f (Function.update pl i q j) = f (pl j) := by
    intro f hf j
    by_cases hj : j = i
    · subst hj
      rw [Function.update_self, hf]
    · rw [Function.update_of_ne hj]
  refine ⟨by rw [hcluster]; exact h.served, by rw [hcluster]; exact h.restored, h.seconds, fun j hj => ?_, fun hj => ?_,
    fun j hj => ?_⟩
  · rw [hsame hg] at hj
    rw [hgot, hrounds, hcluster]
    exact h.got j hj
  · rw [hrounds]
    exact h.before fun j => (hsame hs j).symm.trans (hj j)
  · rw [hsame hs] at hj
    rw [hrounds]
    exact h.after j hj

lemma Counting.get (hp : Placed w pl) (h : Counting P crypt key w pl s mi dict) (hpl : pl i = .reading)
    (hm : w.cluster.inst i = some m) (hsys : sys.remap = none) (hbehind : w.cluster.behind i < 2 ^ 32)
    (hcluster : w'.cluster = w.cluster.step P (.read i sys))
    (hgot : w'.got i = (m.get sys w.cluster.disk (fun v => v.getInt32 key) none).2.getD 0)
    (hrounds : w'.rounds = w.rounds) : Counting P crypt key w' (Function.update pl i .read) s mi dict := by
  have hothers := fun j (hj : j ≠ i) => hp.others (i := i) (by rw [hpl]; rfl) hj
  have htells := tells_of_behind h.served h.restored fun _ _ => hbehind
  have hread : w.cluster.step P (.read i sys) = w.cluster.put i w.cluster.disk
      (some (m.get sys w.cluster.disk (fun _ => ()) ()).1) true := by rw [Cluster.step, hm]
  have hunset : ∀ j, (pl j).hasSet = false := by
    intro j
    by_cases hj : j = i
    · rw [hj, hpl]
      rfl
    · exact (hothers j hj).2
  have hserved : Served P crypt w'.cluster s mi dict := by
    rw [hcluster]
    exact step_read h.served ⟨hsys, htells, m, hm⟩
  refine ⟨hserved, by rw [hcluster, hread]; exact h.restored, h.seconds, fun j hj => ?_, fun _ => ?_, fun j hj => ?_⟩
  · obtain ⟨rfl, -⟩ := Placed.eq_of_update (fun j hj => (hothers j hj).1) hj
    obtain ⟨-, -, hview⟩ := h.served.serves hm htells hsys
    refine ⟨?_, by rw [hcluster, hread]; simp [Cluster.put]⟩
    rw [hgot, hview, hrounds]
    exact h.before hunset dict sys.now (by rw [h.served.content])
  · rw [hrounds]
    exact h.before hunset
  · obtain ⟨-, hj⟩ := Placed.eq_of_update (fun j hj => (hothers j hj).2) hj
    cases hj

/-- **The process that is inside sets the counter**, which nobody has touched since. -/
lemma Counting.set (hp : Placed w pl) (h : Counting P crypt key w pl s mi dict) (hk : key ≠ []) (hpl : pl i = .writing)
    (hm : w.cluster.inst i = some m) (hsys : sys.OK)
    (hlt : m.readOnly = false ∧ 4 + ((Op.set key (.int32 (w.got i + 1))).regionAfter sys w.cluster.disk
      (m.checkLoadData w.cluster.disk sys)).length < 2 ^ 32)
    (hcluster : w'.cluster = w.cluster.step P (.call i (.set key (.int32 (w.got i + 1))) sys))
    (hrounds : w'.rounds = w.rounds) :
    ∃ s' mi' dict', Counting P crypt key w' (Function.update pl i .written) s' mi' dict' := by
  have hothers := fun j (hj : j ≠ i) => hp.others (i := i) (by rw [hpl]; rfl) hj
  obtain ⟨hgot, hbehind⟩ := h.got i (by rw [hpl]; rfl)
  have htells := tells_of_behind h.served h.restored (i := i) fun _ _ => by rw [hbehind]; decide
  have hmove : (Move.call i (.set key (.int32 (w.got i + 1))) sys).OK P crypt w.cluster :=
    ⟨hsys, by simp, fun _ => htells, m, hm, hk, fun _ => hlt⟩
  obtain ⟨mi', dict', hserved, -⟩ := step_call h.served rfl hmove
  have hnext : w.got i + 1 = Int32.ofNat (w.rounds + 1) := by
    rw [hgot, Int32.ofNat_add]
    rfl
  refine ⟨_, mi', dict', by rw [hcluster]; exact hserved, ?_, fun j => ?_, fun j hj => ?_, fun hj => ?_, fun j _ => ?_⟩
  · rw [hcluster, Cluster.step_call_eq P hm]
    exact h.restored
  · by_cases hj : j = i
    · subst hj
      simp [Board.step, Op.secondsAfter, h.seconds j]
    · simp [Board.step, hj, h.seconds j]
  · obtain ⟨-, hj⟩ := Placed.eq_of_update (fun j hj => (hothers j hj).1) hj
    cases hj
  · have hset := hj i
    rw [Function.update_self] at hset
    cases hset
  · rw [hrounds]
    simp only [Board.step, h.seconds i, hnext]
    exact counts_after

lemma Counting.unlock (hp : Placed w pl) (h : Counting P crypt key w pl s mi dict) (hpl : pl i = .unlocking)
    (hcluster : w'.cluster = w.cluster) (hrounds : w'.rounds = w.rounds + 1) :
    Counting P crypt key w' (Function.update pl i .idle) s mi dict := by
  have hothers := fun j (hj : j ≠ i) => hp.others (i := i) (by rw [hpl]; rfl) hj
  refine ⟨by rw [hcluster]; exact h.served, by rw [hcluster]; exact h.restored, h.seconds, fun j hj => ?_, fun _ => ?_,
    fun j hj => ?_⟩
  · obtain ⟨-, hj⟩ := Placed.eq_of_update (fun j hj => (hothers j hj).1) hj
    cases hj
  · rw [hrounds]
    exact h.after i (by rw [hpl]; rfl)
  · obtain ⟨-, hj⟩ := Placed.eq_of_update (fun j hj => (hothers j hj).2) hj
    cases hj

theorem Counting.step (hp : Placed w pl) (h : Counting P crypt key w pl s mi dict) (hk : key ≠ [])
    (hok : w.OK key (i, sys)) :
    ∃ s' mi' dict', Counting P crypt key (w.step P key (i, sys)) (Function.update pl i (pl i).next) s' mi' dict' := by
  obtain ⟨⟨⟨m, hm⟩, hsys, -⟩, hcond⟩ := hok
  have htodo := hp.todo i
  rw [Counters.step]
  cases hpl : pl i <;> rw [hpl] at htodo <;>
    simp only [htodo, Place.todo, roundInstrs, List.drop, List.cons_append, List.nil_append] at hcond ⊢
  case reading =>
    rw [hm]
    exact ⟨s, mi, dict, h.get hp hpl hm hsys.remap hcond rfl (Function.update_self ..) rfl⟩
  case writing => exact h.set hp hk hpl hm hsys (hcond m hm) rfl rfl
  case unlocking => exact ⟨s, mi, dict, h.unlock hp hpl rfl rfl⟩
  all_goals exact ⟨s, mi, dict, h.moved rfl rfl rfl (by rw [hpl]; rfl) (by rw [hpl]; rfl)⟩

/-! ### Any run of the rounds -/

/-- The processes open the store one after the other. -/
def opening (opens : List (ι × Config × Sys)) : List (Move ι) := opens.map fun (i, cfg, sys) => .start i cfg sys

lemma served_opening {w : Cluster ι} {c : Content} {opens : List (ι × Config × Sys)}
    (h : Served P crypt w (Board.init c) mi dict) (hr : w.restored = false)
    (hopens : Along (Move.OK P crypt) (Cluster.step P) w (opening opens)) :
    let w' := run (Cluster.step P) w (opening opens)
    Served P crypt w' (Board.init c) mi dict ∧ w'.restored = false := by
  induction opens generalizing w with
  | nil => exact ⟨h, hr⟩
  | cons o opens ih =>
    obtain ⟨i, cfg, sys⟩ := o
    obtain ⟨hok, hrest⟩ := hopens
    have hserved := step_start h hok
    rw [Board.step, Board.init, Function.update_eq_self] at hserved
    refine ih hserved ?_ hrest
    rw [Cluster.step, hok.1]
    exact hr

omit [DecidableEq ι] in
lemma counting_init {w : Cluster ι} {c : Content} (h : Served P crypt w (Board.init c) mi dict)
    (hr : w.restored = false) (habsent : dict[key]? = none) :
    Counting P crypt key (Counters.init w) (fun _ => .idle) (Board.init c) mi dict := by
  refine ⟨h, hr, fun _ => rfl, nofun, fun _ => counts_zero ?_, nofun⟩
  rw [h.content]
  exact habsent

omit [DecidableEq ι] in
lemma placed_init (w : Cluster ι) : Placed (Counters.init w) fun _ => .idle :=
  ⟨fun _ => rfl, fun _ => rfl, fun _ => rfl, nofun⟩

/-- The processes are at some places, and the files hold some map, that fit the counters. -/
def Counters.Sound (P : Platform) (crypt : Option Cipher) (key : Bytes) (w : Counters ι) : Prop :=
  ∃ pl s mi dict, Placed w pl ∧ Counting P crypt key w pl s mi dict

lemma Counters.Sound.step {a : ι × Sys} (h : w.Sound P crypt key) (hk : key ≠ []) (hok : w.OK key a) :
    (w.step P key a).Sound P crypt key := by
  obtain ⟨pl, s, mi, dict, hp, h⟩ := h
  obtain ⟨s', mi', dict', h'⟩ := h.step hp hk hok
  exact ⟨_, s', mi', dict', hp.step hok.1, h'⟩

/-- **No increment is lost and none is applied twice.**  When every process has finished its rounds, the files reopen to a
counter that is the number of rounds, and every process reads it. -/
theorem counter_counts_rounds {d : Disk} {opens : List (ι × Config × Sys)} {acts : List (ι × Sys)}
    (hstored : Stored crypt d mi dict) (hk : key ≠ []) (habsent : dict[key]? = none)
    (hopens : Along (Move.OK P crypt) (Cluster.step P) (Cluster.init d) (opening opens)) :
    let w₀ := Counters.init (run (Cluster.step P) (Cluster.init d) (opening opens))
    let w := run (Counters.step P key) w₀ acts
    Along (Counters.OK key) (Counters.step P key) w₀ acts → (∀ i, w.todo i = []) →
      (∀ cfg sys, cfg.readOnly = false → cfg.crypt P = crypt →
        ∃ m', (World.start P cfg sys w.cluster.disk).inst = .ok m' ∧
          ∀ now, ((m'.view now).getInt32 key).getD 0 = Int32.ofNat w.rounds) ∧
      ∀ i m sys, w.cluster.inst i = some m → w.cluster.behind i < 2 ^ 32 → sys.remap = none →
        (m.get sys w.cluster.disk (fun v => v.getInt32 key) none).2.getD 0 = Int32.ofNat w.rounds := by
  obtain ⟨hserved, hr⟩ := served_opening (served_init hstored) rfl hopens
  intro w₀ w hacts hdone
  have hinit : w₀.Sound P crypt key := ⟨_, _, mi, dict, placed_init _, counting_init hserved hr habsent⟩
  obtain ⟨pl, s, mi', dict', hp, h⟩ : w.Sound P crypt key := hacts.invariant (fun _ _ h hok => h.step hk hok) hinit
  have hunset : ∀ i, (pl i).hasSet = false := by
    intro i
    have htodo := (hp.todo i).symm.trans (hdone i)
    cases hpl : pl i <;> first | rfl | (rw [hpl] at htodo; cases htodo)
  have hcounts := h.before hunset
  constructor
  · intro cfg sys hro hkey
    have hstored' := h.served.stored
    rw [← hkey] at hstored'
    rw [World.start, openMMKV_of_stored hstored' hro]
    refine ⟨_, rfl, fun now => ?_⟩
    have hcount := hcounts dict' now (by rw [h.served.content])
    rw [h.served.content] at hcount
    exact hcount
  · intro i m sys hm hbehind hsys
    obtain ⟨-, -, hview⟩ := h.served.serves hm (tells_of_behind h.served h.restored fun _ _ => hbehind) hsys
    rw [hview]
    exact hcounts dict' sys.now (by rw [h.served.content])

/-! ### A process alone -/

/-- **A process goes on while no other one is inside.** -/
lemma Placed.admitted (h : Placed w pl) (hothers : ∀ j, j ≠ i → (pl j).inside = false)
    (hm : ∃ m, w.cluster.inst i = some m) (hsys : sys.OK) : w.Admitted (i, sys) := by
  refine ⟨hm, hsys, ?_⟩
  rw [h.todo i, h.fl i]
  have hfree : Grantable w.held i .exclusive := by
    intro j hj
    left
    rw [h.held j, Place.mode_fl, hothers j hj]
    rfl
  cases pl i with
  | ready =>
    refine ⟨?_, trivial⟩
    rintro t ⟨⟩
    exact .inr hfree
  | unlocking => exact ⟨nofun, trivial⟩
  | _ => trivial

lemma inst_step (a : ι × Sys) (h : ∃ m, w.cluster.inst a.1 = some m) :
    ∃ m, (w.step P key a).cluster.inst a.1 = some m := by
  obtain ⟨i, sys⟩ := a
  obtain ⟨m, hm⟩ := h
  rw [Counters.step]
  split
  · exact ⟨m, hm⟩
  · exact ⟨m, hm⟩
  · exact ⟨m, hm⟩
  · rw [hm]
    simp only [Cluster.step, hm, Cluster.put_inst_self]
    exact ⟨_, rfl⟩
  · simp only [Cluster.step, hm, Cluster.put_inst_self]
    exact ⟨_, rfl⟩

lemma admitted_alone (key : Bytes) (n : ℕ) (h : Placed w pl) (hothers : ∀ j, j ≠ i → (pl j).inside = false)
    (hm : ∃ m, w.cluster.inst i = some m) (hsys : sys.OK) :
    Along Counters.Admitted (Counters.step P key) w (List.replicate n (i, sys)) ∧
      Placed (run (Counters.step P key) w (List.replicate n (i, sys)))
        (Function.update pl i (Place.next^[n] (pl i))) := by
  induction n generalizing w pl with
  | zero => exact ⟨trivial, by rwa [Function.iterate_zero_apply, Function.update_eq_self]⟩
  | succ n ih =>
    have hok := h.admitted hothers hm hsys
    have hothers' : ∀ j, j ≠ i → (Function.update pl i (pl i).next j).inside = false := by
      intro j hj
      rw [Function.update_of_ne hj]
      exact hothers j hj
    obtain ⟨hrest, hplaced⟩ := ih (h.step hok) hothers' (inst_step (i, sys) hm)
    rw [Function.update_idem, Function.update_self] at hplaced
    exact ⟨⟨hok, hrest⟩, hplaced⟩

/-- **A round of one process, while the others rest**, is admitted, and leaves all of them at rest. -/
theorem round_alone {w : Cluster ι} (key : Bytes) (hm : w.inst i = some m) (hsys : sys.OK) :
    let acts := List.replicate 9 (i, sys)
    Along Counters.Admitted (Counters.step P key) (Counters.init w) acts ∧
      ∀ j, (run (Counters.step P key) (Counters.init w) acts).todo j = [] := by
  obtain ⟨hadmitted, hplaced⟩ := admitted_alone key 9 (placed_init w) (fun _ _ => rfl) ⟨m, hm⟩ hsys
  refine ⟨hadmitted, fun j => ?_⟩
  rw [hplaced.todo j]
  by_cases hj : j = i
  · rw [hj, Function.update_self]
    rfl
  · rw [Function.update_of_ne hj]
    rfl

/-- What a round of a process that finds the others at rest does to the store: one get and one set. -/
lemma run_round (key : Bytes) (sys : Sys) (htodo : w.todo i = []) (hfl : w.fl i = ⟨0, 0⟩) (hm : w.cluster.inst i = some m) :
    let v := (m.get sys w.cluster.disk (fun v => v.getInt32 key) none).2.getD 0
    let w' := run (Counters.step P key) w (List.replicate 9 (i, sys))
    w'.rounds = w.rounds + 1 ∧
      w'.cluster = (w.cluster.step P (.read i sys)).step P (.call i (.set key (.int32 (v + 1))) sys) := by
  simp [List.replicate, Counters.step, htodo, hfl, Counters.locked, roundInstrs, hm]

lemma round_ok (key : Bytes) (h : Placed w pl) (hrest : ∀ j, pl j = .idle) (hm : w.cluster.inst i = some m) (hsys : sys.OK)
    (hbehind : w.cluster.behind i < 2 ^ 32)
    (hlt : let v := (m.get sys w.cluster.disk (fun v => v.getInt32 key) none).2.getD 0
      let m' := (m.get sys w.cluster.disk (fun _ => ()) ()).1
      m'.readOnly = false ∧ 4 + ((Op.set key (.int32 (v + 1))).regionAfter sys w.cluster.disk (m'.checkLoadData w.cluster.disk
        sys)).length < 2 ^ 32) :
    Along (Counters.OK key) (Counters.step P key) w (List.replicate 9 (i, sys)) := by
  have htodo : w.todo i = [] := by rw [h.todo i, hrest i]; rfl
  have hfl : w.fl i = ⟨0, 0⟩ := by rw [h.fl i, hrest i]; rfl
  obtain ⟨⟨h₁, h₂, h₃, h₄, h₅, h₆, h₇, h₈, h₉, -⟩, -⟩ :=
    admitted_alone (P := P) key 9 h (fun j _ => by rw [hrest j]; rfl) ⟨m, hm⟩ hsys
  refine ⟨⟨h₁, ?_⟩, ⟨h₂, ?_⟩, ⟨h₃, ?_⟩, ⟨h₄, ?_⟩, ⟨h₅, ?_⟩, ⟨h₆, ?_⟩, ⟨h₇, ?_⟩, ⟨h₈, ?_⟩, ⟨h₉, ?_⟩, trivial⟩ <;>
    clear h₁ h₂ h₃ h₄ h₅ h₆ h₇ h₈ h₉ <;>
    simp only [Counters.step, htodo, hfl, Counters.locked, Function.update_self, roundInstrs, List.cons_append,
      List.nil_append, hm]
  · exact hbehind
  · intro m' hm'
    rw [Cluster.step, hm, Cluster.put_inst_self, Option.some.injEq] at hm'
    subst hm'
    simp only [Cluster.step, hm]
    exact hlt

lemma first_get {w : Cluster ι} (sys : Sys) (hm : w.inst i = some m) (hsynced : Synced w.disk m)
    (habsent : m.dict[key]? = none) :
    w.step P (.read i sys) = w.put i w.disk (some m) true ∧
      (m.get sys w.disk (fun v => v.getInt32 key) none).2.getD 0 + 1 = 1 := by
  constructor
  · rw [Cluster.step, hm]
    simp only [MMKV.get, hsynced.closed, Bool.false_eq_true, if_false, MMKV.checkLoadData_of_synced hsynced]
  · simp only [MMKV.get, hsynced.closed, Bool.false_eq_true, if_false, MMKV.checkLoadData_of_synced hsynced]
    simp [View.getInt32, View.typed, View.value, MMKV.view, habsent]

end Counting

/-! ### Two processes, and a key of 4 GiB -/

lemma run_opening_both :
    run (Cluster.step linux) (Cluster.init ⟨[], []⟩) (opening [(true, shared, calm), (false, shared, calm)]) = bothOpen :=
  opened_twice

lemma opening_both_ok : Along (Move.OK linux none) (Cluster.step linux) (Cluster.init ⟨[], []⟩)
    (opening [(true, shared, calm), (false, shared, calm)]) := by
  refine ⟨⟨rfl, rfl, rfl, by simp [shared]⟩, ⟨?_, rfl, rfl, by simp [shared]⟩, trivial⟩
  rw [Cluster.step_start_eq _ rfl (start_absent rfl)]
  simp [Cluster.put, Cluster.init]

lemma synced_bothOpen : Synced bothOpen.disk (shared.fresh linux) := synced_fresh linux rfl

/-- The instances and the files after the first process's round. -/
def onceCounted : Cluster Bool :=
  (bothOpen.step linux (.read true calm)).step linux (.call true (.set [97] (.int32 1)) calm)

/-- The instances and the files after the second process's round. -/
def twiceCounted : Cluster Bool :=
  (onceCounted.step linux (.read false calm)).step linux (.call false (.set [97] (.int32 2)) calm)

/-- Both of two processes complete a round, one after the other: the files and both of them count two. -/
theorem both_rounds_counted :
    let w := run (Counters.step linux [97]) (Counters.init (run (Cluster.step linux) (Cluster.init ⟨[], []⟩)
      (opening [(true, shared, calm), (false, shared, calm)])))
      (List.replicate 9 (true, calm) ++ List.replicate 9 (false, calm))
    (∃ m', (World.start linux shared calm w.cluster.disk).inst = .ok m' ∧
        ∀ now, ((m'.view now).getInt32 [97]).getD 0 = 2) ∧
      ∀ i, ∃ m, w.cluster.inst i = some m ∧ (m.get calm w.cluster.disk (fun v => v.getInt32 [97]) none).2.getD 0 = 2 := by
  have hidle : ∀ {pl : Bool → Place} {i : Bool}, (∀ j, pl j = .idle) →
      ∀ j, Function.update pl i (Place.next^[9] (pl i)) j = .idle := by
    intro pl i hpl j
    rw [hpl i, show Place.next^[9] .idle = .idle from rfl, ← hpl i, Function.update_eq_self, hpl i, hpl j]
  have hinst : bothOpen.inst true = some (shared.fresh linux) := rfl
  -- the first process
  have hplaced := placed_init bothOpen
  have hok := round_ok (P := linux) [97] hplaced (fun _ => rfl) hinst calm_ok (by decide) (by decide +kernel)
  obtain ⟨-, hplaced⟩ := admitted_alone (P := linux) (i := true) [97] 9 hplaced (fun _ _ => rfl) ⟨_, hinst⟩
    calm_ok
  obtain ⟨hrounds, hcluster⟩ := run_round (P := linux) (w := Counters.init bothOpen) [97] calm rfl rfl hinst
  have hone : ((shared.fresh linux).get calm bothOpen.disk (fun v => v.getInt32 [97]) none).2.getD 0 + 1 = 1 := by
    decide +kernel
  rw [show (Counters.init bothOpen).cluster = bothOpen from rfl, hone, ← onceCounted] at hcluster
  have hrest := hidle (i := true) fun _ => rfl
  generalize hw : run (Counters.step linux [97]) (Counters.init bothOpen) (List.replicate 9 (true, calm)) = w
    at hplaced hrounds hcluster
  -- the second process
  have hinst' : w.cluster.inst false = some (shared.fresh linux) := by rw [hcluster]; rfl
  have hok' := round_ok (P := linux) [97] hplaced hrest hinst' calm_ok (by rw [hcluster]; decide +kernel)
    (by rw [hcluster]; decide +kernel)
  obtain ⟨-, hplaced'⟩ := admitted_alone (P := linux) (i := false) [97] 9 hplaced
    (fun j _ => by rw [hrest j]; rfl) ⟨_, hinst'⟩ calm_ok
  obtain ⟨hrounds', hcluster'⟩ := run_round (P := linux) [97] calm ((hplaced.todo false).trans rfl)
    ((hplaced.fl false).trans rfl) hinst'
  have htwo : ((shared.fresh linux).get calm onceCounted.disk (fun v => v.getInt32 [97]) none).2.getD 0 + 1 = 2 := by
    decide +kernel
  rw [hcluster, htwo, ← twiceCounted] at hcluster'
  have hdone : ∀ j, (run (Counters.step linux [97]) w (List.replicate 9 (false, calm))).todo j = [] := by
    intro j
    rw [hplaced'.todo j, hidle hrest j]
    rfl
  have hacts : Along (Counters.OK [97]) (Counters.step linux [97]) (Counters.init bothOpen)
      (List.replicate 9 (true, calm) ++ List.replicate 9 (false, calm)) :=
    along_append.2 ⟨hok, by rw [hw]; exact hok'⟩
  have hrun : run (Counters.step linux [97]) (Counters.init bothOpen)
      (List.replicate 9 (true, calm) ++ List.replicate 9 (false, calm)) =
        run (Counters.step linux [97]) w (List.replicate 9 (false, calm)) := by rw [run_append, hw]
  rw [← hrun] at hdone hcluster' hrounds'
  rw [← run_opening_both] at hacts hdone hcluster' hrounds'
  obtain ⟨hopen, hread⟩ := counter_counts_rounds (.inr ⟨blank_absent, rfl, rfl⟩) (by simp) (by simp) opening_both_ok hacts
    hdone
  rw [hrounds', hrounds] at hopen hread
  refine ⟨hopen shared calm rfl rfl, fun i => ?_⟩
  obtain ⟨m, hm⟩ := Option.isSome_iff_exists.1 (show (twiceCounted.inst i).isSome = true by cases i <;> decide +kernel)
  rw [← hcluster'] at hm
  refine ⟨m, hm, hread i m calm hm ?_ rfl⟩
  rw [hcluster']
  cases i <;> decide +kernel

/-- A key that leaves no room for its value in a region of 32 bits: the round sets it in memory, and no files hold it. -/
lemma large_key_not_counted {key : Bytes} (hlen : key.length + 1 = 2 ^ 32) {w : Counters Bool}
    (hw : run (Counters.step linux key) (Counters.init bothOpen) (List.replicate 9 (true, calm)) = w) :
    w.rounds = 1 ∧ (∃ m, w.cluster.inst true = some m ∧ ∀ now, (m.view now).getInt32 key = some 1) ∧
      ∀ sys m', (World.start linux shared sys w.cluster.disk).inst = .ok m' →
        ∀ now, (m'.view now).getInt32 key = none := by
  have hinst : bothOpen.inst true = some (shared.fresh linux) := rfl
  have hk : key ≠ [] := by
    rintro rfl
    simp at hlen
  have habsent : (shared.fresh linux).dict[key]? = none := ExtTreeMap.getElem?_empty
  obtain ⟨hread, hone⟩ := first_get (P := linux) calm hinst synced_bothOpen habsent
  obtain ⟨hrounds, hcluster⟩ := run_round (P := linux) (w := Counters.init bothOpen) key calm rfl rfl hinst
  rw [show (Counters.init bothOpen).cluster = bothOpen from rfl, hread, hone,
    Cluster.step_call_eq linux (Cluster.put_inst_self ..)] at hcluster
  rw [hw] at hrounds hcluster
  have hparse := parseDict_regionOf_singleton hk (Value.int32 1).blob_ne_nil (by omega) (by decide)
  have hfirst := exec_first_set_parsed (P := linux) (show shared.readOnly = false from rfl) calm_ok hparse
  rw [show (bothOpen.put true bothOpen.disk (some (shared.fresh linux)) true).disk = freshDisk linux from rfl] at hcluster
  generalize (shared.fresh linux).exec linux calm (freshDisk linux) (.set key (.int32 1)) = r at hfirst hcluster
  obtain ⟨-, hdict, hexp, -, -, -⟩ := hfirst
  refine ⟨hrounds, ⟨r.m, by rw [hcluster, Cluster.put_inst_self], fun now => ?_⟩, fun sys m' hm' now => ?_⟩
  · refine Value.readAs_of_value (v := .int32 1) (by decide) ?_
    simp [View.value, MMKV.view, hdict, hexp, slotValue]
  · have hnone : m'.dict[key]? = none := absent_reopened rfl rfl (by omega) hm'
    simp [View.getInt32, View.typed, View.value, MMKV.view, hnone]

/-- **A counter with a key of nearly 4 GiB is lost**: the process that completed its round reads one, and a process that
opens the store finds no counter. -/
theorem four_gib_key_not_counted :
    let key := zeros (2 ^ 32 - 1)
    let w₀ := Counters.init (run (Cluster.step linux) (Cluster.init ⟨[], []⟩)
      (opening [(true, shared, calm), (false, shared, calm)]))
    let w := run (Counters.step linux key) w₀ (List.replicate 9 (true, calm))
    Along Counters.Admitted (Counters.step linux key) w₀ (List.replicate 9 (true, calm)) ∧ (∀ i, w.todo i = []) ∧
      w.rounds = 1 ∧ (∃ m, w.cluster.inst true = some m ∧ ∀ now, (m.view now).getInt32 key = some 1) ∧
      ∀ sys m', (World.start linux shared sys w.cluster.disk).inst = .ok m' →
        ∀ now, (m'.view now).getInt32 key = none := by
  rw [run_opening_both]
  obtain ⟨hadmitted, hdone⟩ := round_alone (P := linux) (w := bothOpen) (i := true) (zeros (2 ^ 32 - 1)) rfl calm_ok
  exact ⟨hadmitted, hdone, large_key_not_counted (by rw [length_zeros]; norm_num) rfl⟩

end MmkvGo.Multi
