import MmkvGo.Lib.Flock
import MmkvGo.Lib.Runs

/-!
Critical sections under a readers–writer lock.

Any number of parties share a state.  A call of a party takes a lock, loads and stores the shared state one access at a
time, and gives the lock back; the accesses of different parties interleave in any order (`World`).  The sequential
system (`Seq`) runs each call at once.  `Sim.run` says that the first behaves as the second, with the calls in the
order in which they got their locks (`points`): every call takes effect at one moment between its begin and its end.

It is asked of the calls (`Lawful`) that one that stores has an exclusive lock and one that loads any lock.  A party may
keep its lock when a call ends.
-/

namespace MmkvGo.Lib.Sections

open MmkvGo.Lib.Flock (Mode Grantable)

/-! ### What a call does while it has its lock -/

/-- A series of loads and stores. -/
inductive Body (σ α : Type) where
  | ret (a : α)
  | load (k : σ → Body σ α)
  | store (f : σ → σ) (k : Body σ α)

namespace Body

variable {σ α β : Type}

/-- The whole body, run at once. -/
def exec : Body σ α → σ → σ × α
  | .ret a, s => (s, a)
  | .load k, s => (k s).exec s
  | .store f k, s => k.exec (f s)

/-- One load or store. -/
def next : Body σ α → σ → σ × Body σ α
  | .ret a, s => (s, .ret a)
  | .load k, s => (s, k s)
  | .store f k, s => (f s, k)

protected def bind : Body σ α → (α → Body σ β) → Body σ β
  | .ret a, f => f a
  | .load k, f => .load fun s => (k s).bind f
  | .store g k, f => .store g (k.bind f)

/-- The stores of `fs`, then the rest. -/
def stores (fs : List (σ → σ)) (k : Body σ α) : Body σ α := fs.foldr .store k

/-- The number of its accesses, if nobody else stores meanwhile. -/
def accesses : Body σ α → σ → ℕ
  | .ret _, _ => 0
  | .load k, s => (k s).accesses s + 1
  | .store f k, s => k.accesses (f s) + 1

/-- A body without stores. -/
def ReadOnly : Body σ α → Prop
  | .ret _ => True
  | .load k => ∀ s, (k s).ReadOnly
  | .store _ _ => False

@[simp] lemma exec_ret (a : α) (s : σ) : (Body.ret a).exec s = (s, a) := rfl

@[simp] lemma exec_load (k : σ → Body σ α) (s : σ) : (Body.load k).exec s = (k s).exec s := rfl

theorem exec_next (p : Body σ α) (s : σ) : (p.next s).2.exec (p.next s).1 = p.exec s := by
  cases p <;> rfl

@[simp] theorem exec_bind (p : Body σ α) (f : α → Body σ β) (s : σ) :
    (p.bind f).exec s = (f (p.exec s).2).exec (p.exec s).1 := by
  induction p generalizing s with
  | ret a => rfl
  | load k ih => exact ih s s
  | store g k ih => exact ih (g s)

@[simp] theorem exec_stores (fs : List (σ → σ)) (k : Body σ α) (s : σ) :
    (stores fs k).exec s = k.exec (fs.foldl (fun s f => f s) s) := by
  induction fs generalizing s with
  | nil => rfl
  | cons f fs ih => exact ih (f s)

theorem ReadOnly.exec_fst {p : Body σ α} (h : p.ReadOnly) (s : σ) : (p.exec s).1 = s := by
  induction p with
  | ret a => rfl
  | load k ih => exact ih s (h s)
  | store f k => cases h

theorem ReadOnly.next {p : Body σ α} (h : p.ReadOnly) (s : σ) : (p.next s).2.ReadOnly ∧ (p.next s).1 = s := by
  cases p with
  | ret a => exact ⟨h, rfl⟩
  | load k => exact ⟨h s, rfl⟩
  | store f k => cases h

theorem ReadOnly.bind {p : Body σ α} {f : α → Body σ β} (h : p.ReadOnly) (hf : ∀ a, (f a).ReadOnly) :
    (p.bind f).ReadOnly := by
  induction p with
  | ret a => exact hf a
  | load k ih => exact fun s => ih s (h s)
  | store g k => cases h

end Body

/-! ### The calls -/

/-- The calls `r` of parties with a state `l` of their own: the lock that such a state holds, the lock that a call
takes, and what it does then, with the party's state afterwards and the answer. -/
structure Calls (σ l r b : Type) where
  holds : l → Option Mode
  enter : r → l → l
  body : r → l → Body σ (l × b)

/-- Nothing is held that was not held before. -/
def Weaker (o' o : Option Mode) : Prop := o' = none ∨ o' = o ∨ o' = some .shared ∧ o = some .exclusive

lemma Weaker.exclusive {o : Option Mode} (h : Weaker (some .exclusive) o) : o = some .exclusive := by
  rcases h with h | h | h
  · cases h
  · exact h.symm
  · cases h.1

lemma Weaker.none {o' : Option Mode} (h : Weaker o' none) : o' = none := by
  rcases h with h | h | h
  · exact h
  · exact h
  · cases h.2

/-- A call that stores has an exclusive lock, one that loads any lock, and no call ends with more than it has. -/
structure Calls.Lawful {σ l r b : Type} (S : Calls σ l r b) : Prop where
  reader : ∀ c x, S.holds (S.enter c x) = some .shared → (S.body c (S.enter c x)).ReadOnly
  pure : ∀ c x, S.holds (S.enter c x) = none → ∃ a, S.body c (S.enter c x) = .ret a
  weaker : ∀ c x s, Weaker (S.holds ((S.body c (S.enter c x)).exec s).2.1) (S.holds (S.enter c x))

/-- Where a party is in its call. -/
inductive Phase (σ l r b : Type) where
  | idle
  /-- The call has begun and waits for its lock. -/
  | waits (c : r)
  /-- The rest of what it does with the lock. -/
  | inside (c : r) (p : Body σ (l × b))

/-- The shared state, the parties, and the answers each of them got. -/
structure World (ι σ l r b : Type) where
  shared : σ
  loc : ι → l
  phase : ι → Phase σ l r b
  log : ι → List b

/-- What one of the parties does next. -/
inductive Move (ι r : Type) where
  | call (i : ι) (c : r)
  /-- It gets its lock. -/
  | enter (i : ι) (c : r)
  /-- One load or store. -/
  | act (i : ι)
  | leave (i : ι)

/-- The call that takes effect with a move. -/
def Move.point {ι r : Type} : Move ι r → Option (ι × r)
  | .enter i c => some (i, c)
  | _ => none

/-- The calls of a run, in the order in which they got their locks. -/
def points {ι r : Type} (l : List (Move ι r)) : List (ι × r) := l.filterMap Move.point

/-- The shared state, the parties and their answers when each call is run at once. -/
structure Seq (ι σ l b : Type) where
  shared : σ
  loc : ι → l
  log : ι → List b

section Relation

variable {ι σ l r b : Type} (S : Calls σ l r b)

/-- What the rest `p` of a section of `i` says of the sequential system, which has run the call already: its answer and
its party's state, and the shared state if it has an exclusive lock. -/
structure Running (s : σ) (x : l) (log : List b) (a : Seq ι σ l b) (i : ι) (p : Body σ (l × b)) : Prop where
  loc : a.loc i = (p.exec s).2.1
  log : a.log i = log ++ [(p.exec s).2.2]
  writer : S.holds x = some .exclusive → a.shared = (p.exec s).1
  reader : S.holds x = some .shared → p.ReadOnly
  pure : S.holds x = none → ∃ y, p = .ret y
  weaker : Weaker (S.holds (p.exec s).2.1) (S.holds x)

/-- The sequential system has run every call that has got its lock. -/
structure Sim (w : World ι σ l r b) (a : Seq ι σ l b) : Prop where
  apart : ∀ i j, j ≠ i → S.holds (w.loc i) = some .exclusive → S.holds (w.loc j) = none
  outside : ∀ i, (∀ c p, w.phase i ≠ .inside c p) → a.loc i = w.loc i ∧ a.log i = w.log i
  inside : ∀ i c p, w.phase i = .inside c p → Running S w.shared (w.loc i) (w.log i) a i p
  quiet : (∀ i c p, w.phase i = .inside c p → S.holds (w.loc i) ≠ some .exclusive) → a.shared = w.shared

variable {S} {w : World ι σ l r b} {a : Seq ι σ l b} {i : ι}

lemma World.outside_of_waits {c : r} (h : w.phase i = .waits c) : ∀ c' p, w.phase i ≠ .inside c' p := by
  intro c' p hin
  cases h.symm.trans hin

lemma held_of_grant (held : ι → Option Mode) (hex : ∀ i j, j ≠ i → held i = some .exclusive → held j = none) {t : Mode}
    (h : held i = some t ∨ Grantable held i t) {j : ι} (hj : j ≠ i) :
    held j = none ∨ held j = some .shared ∧ t = .shared := by
  rcases h with hi | hgrant
  · cases t with
    | exclusive => exact .inl (hex i j hj hi)
    | shared =>
      cases hheld : held j with
      | none => exact .inl rfl
      | some u =>
        cases u with
        | shared => exact .inr ⟨rfl, rfl⟩
        | exclusive => exact absurd (hex j i hj.symm hheld) (by rw [hi]; simp)
  · exact hgrant j hj

/-- A section whose party holds nothing is over, whatever becomes of the shared state. -/
lemma Running.of_none {s s' : σ} {x : l} {log : List b} {a' : Seq ι σ l b} {p : Body σ (l × b)}
    (h : Running S s x log a i p) (hx : S.holds x = none) (hloc : a'.loc i = a.loc i) (hlog : a'.log i = a.log i) :
    Running S s' x log a' i p := by
  obtain ⟨y, rfl⟩ := h.pure hx
  refine ⟨hloc.trans h.loc, hlog.trans h.log, fun he => ?_, h.reader, h.pure, h.weaker⟩
  rw [hx] at he
  cases he

lemma Running.congr {s : σ} {x : l} {log : List b} {a' : Seq ι σ l b} {p : Body σ (l × b)}
    (h : Running S s x log a i p) (hloc : a'.loc i = a.loc i) (hlog : a'.log i = a.log i) (hs : a'.shared = a.shared) :
    Running S s x log a' i p :=
  ⟨hloc.trans h.loc, hlog.trans h.log, fun he => hs.trans (h.writer he), h.reader, h.pure, h.weaker⟩

lemma Running.keeps {s : σ} {x : l} {log : List b} {p : Body σ (l × b)} (h : Running S s x log a i p)
    (hne : S.holds x ≠ some .exclusive) : (p.next s).1 = s := by
  cases hh : S.holds x with
  | none =>
    obtain ⟨y, rfl⟩ := h.pure hh
    rfl
  | some t =>
    cases t with
    | shared => exact ((h.reader hh).next _).2
    | exclusive => exact absurd hh hne

/-- Where no other party holds an exclusive lock, and this one is not in a section, nothing is being stored. -/
lemma Sim.shared_eq (h : Sim S w a) (hi : ∀ c p, w.phase i ≠ .inside c p)
    (hother : ∀ j, j ≠ i → S.holds (w.loc j) ≠ some .exclusive) : a.shared = w.shared := by
  refine h.quiet fun j c p hj => ?_
  by_cases hji : j = i
  · subst hji
    exact absurd hj (hi c p)
  · exact hother j hji

/-- Parties that have not begun a call. -/
def World.idle (s : σ) (loc : ι → l) : World ι σ l r b := ⟨s, loc, fun _ => .idle, fun _ => []⟩

/-- The same parties, one call at a time. -/
def Seq.init (s : σ) (loc : ι → l) : Seq ι σ l b := ⟨s, loc, fun _ => []⟩

lemma sim_idle {s : σ} {loc : ι → l} (hfree : ∀ i, S.holds (loc i) = none) :
    Sim S (World.idle s loc : World ι σ l r b) (Seq.init s loc) := by
  refine ⟨fun i j _ he => ?_, fun i _ => ⟨rfl, rfl⟩, fun i c p hp => ?_, fun _ => rfl⟩
  · exact absurd he (by simp [World.idle, hfree i])
  · cases hp

/-- **The answers so far** are those of the sequential run, which may have one more, of the call in progress. -/
theorem Sim.log_more (h : Sim S w a) (i : ι) : ∃ more : List b, a.log i = w.log i ++ more ∧ more.length ≤ 1 ∧
    ((∀ c p, w.phase i ≠ .inside c p) → more = []) := by
  by_cases hin : ∃ c p, w.phase i = .inside c p
  · obtain ⟨c, p, hp⟩ := hin
    exact ⟨_, (h.inside i c p hp).log, Nat.le_refl 1, fun hout => absurd hp (hout c p)⟩
  · push Not at hin
    exact ⟨[], by rw [List.append_nil]; exact (h.outside i hin).2, Nat.zero_le 1, fun _ => rfl⟩

end Relation

/-! ### The steps -/

section System

variable {ι σ l r b : Type} [DecidableEq ι] (S : Calls σ l r b)

def World.step (w : World ι σ l r b) : Move ι r → World ι σ l r b
  | .call i c => { w with phase := Function.update w.phase i (.waits c) }
  | .enter i c =>
    let x := S.enter c (w.loc i)
    { w with loc := Function.update w.loc i x, phase := Function.update w.phase i (.inside c (S.body c x)) }
  | .act i =>
    match w.phase i with
    | .inside c p =>
      { w with
        shared := (p.next w.shared).1
        phase := Function.update w.phase i (.inside c (p.next w.shared).2) }
    | _ => w
  | .leave i =>
    match w.phase i with
    | .inside _ (.ret (x, y)) =>
      { w with
        loc := Function.update w.loc i x
        phase := Function.update w.phase i .idle
        log := Function.update w.log i (w.log i ++ [y]) }
    | _ => w

/-- What a move asks of the state it is taken in; a lock is granted when the other parties hold none that excludes it. -/
def World.Enabled (w : World ι σ l r b) : Move ι r → Prop
  | .call i _ => w.phase i = .idle
  | .enter i c => w.phase i = .waits c ∧ ∀ t, S.holds (S.enter c (w.loc i)) = some t →
      S.holds (w.loc i) = some t ∨ Grantable (fun j => S.holds (w.loc j)) i t
  | .act i => ∃ c p, w.phase i = .inside c p
  | .leave i => ∃ c x y, w.phase i = .inside c (.ret (x, y))

/-- One call, run at once. -/
def Seq.step (a : Seq ι σ l b) (x : ι × r) : Seq ι σ l b :=
  let out := (S.body x.2 (S.enter x.2 (a.loc x.1))).exec a.shared
  ⟨out.1, Function.update a.loc x.1 out.2.1, Function.update a.log x.1 (a.log x.1 ++ [out.2.2])⟩

variable {S} {w : World ι σ l r b} {a : Seq ι σ l b} {i : ι}

lemma World.step_act {c : r} {p : Body σ (l × b)} (hp : w.phase i = .inside c p) :
    w.step S (.act i) =
      { w with
        shared := (p.next w.shared).1
        phase := Function.update w.phase i (.inside c (p.next w.shared).2) } := by
  rw [World.step, hp]

lemma World.step_leave {c : r} {x : l} {y : b} (hp : w.phase i = .inside c (.ret (x, y))) :
    w.step S (.leave i) =
      { w with
        loc := Function.update w.loc i x
        phase := Function.update w.phase i .idle
        log := Function.update w.log i (w.log i ++ [y]) } := by
  rw [World.step, hp]

lemma Calls.Lawful.shared_step (hS : S.Lawful) {c : r} (hne : S.holds (S.enter c (a.loc i)) ≠ some .exclusive) :
    (a.step S (i, c)).shared = a.shared := by
  simp only [Seq.step]
  cases hh : S.holds (S.enter c (a.loc i)) with
  | none =>
    obtain ⟨y, hy⟩ := hS.pure c (a.loc i) hh
    rw [hy, Body.exec_ret]
  | some t =>
    cases t with
    | shared => exact (hS.reader c (a.loc i) hh).exec_fst _
    | exclusive => exact absurd hh hne

lemma Sim.call (h : Sim S w a) (hidle : w.phase i = .idle) (c : r) : Sim S (w.step S (.call i c)) a := by
  have hinside : ∀ j c' p, (w.step S (.call i c)).phase j = .inside c' p → w.phase j = .inside c' p := by
    intro j c' p hj
    by_cases hji : j = i
    · subst hji
      simp [World.step] at hj
    · simpa [World.step, Function.update_of_ne hji] using hj
  refine ⟨h.apart, fun j hj => h.outside j fun c' p hp => ?_, fun j c' p hj => h.inside j c' p (hinside j c' p hj),
    fun hq => h.quiet fun j c' p hp => ?_⟩ <;>
  · have hji : j ≠ i := by
      rintro rfl
      rw [hidle] at hp
      cases hp
    have hp' : (w.step S (.call i c)).phase j = .inside c' p := by
      simpa [World.step, Function.update_of_ne hji] using hp
    first
    | exact hj c' p hp'
    | exact hq j c' p hp'

/-- **A call gets its lock**: the sequential system runs it. -/
lemma Sim.enter (hS : S.Lawful) (h : Sim S w a) {c : r} (hok : w.Enabled S (.enter i c)) :
    Sim S (w.step S (.enter i c)) (a.step S (i, c)) := by
  obtain ⟨hwaits, hgrant⟩ := hok
  have hout : ∀ c' p, w.phase i ≠ .inside c' p := by
    intro c' p
    rw [hwaits]
    simp
  obtain ⟨hloc, hlog⟩ := h.outside i hout
  have hother : ∀ t, S.holds (S.enter c (w.loc i)) = some t → ∀ j, j ≠ i →
      S.holds (w.loc j) = none ∨ S.holds (w.loc j) = some .shared ∧ t = .shared :=
    fun t ht j hj => held_of_grant (fun j => S.holds (w.loc j)) h.apart (hgrant t ht) hj
  -- the state on which the sequential system runs the call, and what becomes of it
  have hshared : S.holds (S.enter c (w.loc i)) ≠ none → a.shared = w.shared := by
    intro hne
    obtain ⟨t, ht⟩ := Option.ne_none_iff_exists'.1 hne
    refine h.shared_eq hout fun j hj he => ?_
    rcases hother t ht j hj with hn | ⟨hn, -⟩ <;> rw [he] at hn <;> cases hn
  have hsame : S.holds (S.enter c (w.loc i)) ≠ some .exclusive → (a.step S (i, c)).shared = a.shared := by
    rw [← hloc]
    exact hS.shared_step
  have hself : Running S w.shared (S.enter c (w.loc i)) (w.log i) (a.step S (i, c)) i
      (S.body c (S.enter c (w.loc i))) := by
    have hexec : ((S.body c (S.enter c (w.loc i))).exec a.shared).2 =
        ((S.body c (S.enter c (w.loc i))).exec w.shared).2 := by
      by_cases hne : S.holds (S.enter c (w.loc i)) = none
      · obtain ⟨y, hy⟩ := hS.pure c (w.loc i) hne
        rw [hy]
        rfl
      · rw [hshared hne]
    refine ⟨?_, ?_, fun he => ?_, hS.reader c (w.loc i), hS.pure c (w.loc i), hS.weaker c (w.loc i) _⟩
    · simp [Seq.step, hloc, hexec]
    · simp [Seq.step, hloc, hlog, hexec]
    · simp [Seq.step, hloc, hshared (by rw [he]; simp)]
  refine ⟨fun j k hkj he => ?_, fun j hj => ?_, fun j c' p hj => ?_, fun hq => ?_⟩
  · simp only [World.step] at he ⊢
    by_cases hji : j = i
    · subst hji
      rw [Function.update_self] at he
      rw [Function.update_of_ne hkj]
      rcases hother _ he k hkj with hn | ⟨-, ht⟩
      · exact hn
      · cases ht
    · rw [Function.update_of_ne hji] at he
      by_cases hki : k = i
      · subst hki
        rw [Function.update_self]
        cases hh : S.holds (S.enter c (w.loc k)) with
        | none => rfl
        | some t =>
          rcases hother t hh j hji with hn | ⟨hn, -⟩ <;> rw [he] at hn <;> cases hn
      · rw [Function.update_of_ne hki]
        exact h.apart j k hkj he
  · have hji : j ≠ i := by
      rintro rfl
      exact hj c _ (Function.update_self ..)
    simp only [World.step, Seq.step, Function.update_of_ne hji] at hj ⊢
    exact h.outside j hj
  · by_cases hji : j = i
    · subst hji
      simp only [World.step, Function.update_self, Phase.inside.injEq] at hj ⊢
      obtain ⟨rfl, rfl⟩ := hj
      exact hself
    · simp only [World.step, Function.update_of_ne hji] at hj ⊢
      have hrun := h.inside j c' p hj
      by_cases he : S.holds (S.enter c (w.loc i)) = some .exclusive
      · refine hrun.of_none ?_ (by simp [Seq.step, Function.update_of_ne hji])
          (by simp [Seq.step, Function.update_of_ne hji])
        rcases hother _ he j hji with hn | ⟨-, ht⟩
        · exact hn
        · cases ht
      · exact hrun.congr (by simp [Seq.step, Function.update_of_ne hji])
          (by simp [Seq.step, Function.update_of_ne hji]) (hsame he)
  · have hne : S.holds (S.enter c (w.loc i)) ≠ some .exclusive := by
      simpa [World.step] using hq i c _ (Function.update_self ..)
    rw [hsame hne]
    refine h.quiet fun j c' p hj => ?_
    have hji : j ≠ i := by
      rintro rfl
      exact hout c' p hj
    simpa [World.step, Function.update_of_ne hji] using hq j c' p (by simpa [World.step, Function.update_of_ne hji] using hj)

/-- **One load or store**: the sequential system has made it already. -/
lemma Sim.act (h : Sim S w a) (hok : w.Enabled S (.act i)) : Sim S (w.step S (.act i)) a := by
  obtain ⟨c, p, hp⟩ := hok
  have hrun := h.inside i c p hp
  have hexec := p.exec_next w.shared
  -- only a party with an exclusive lock stores, and then no other one holds any
  have hkeep : S.holds (w.loc i) ≠ some .exclusive → (p.next w.shared).1 = w.shared := hrun.keeps
  rw [World.step_act hp]
  refine ⟨h.apart, fun j hj => ?_, fun j c' q hj => ?_, fun hq => ?_⟩
  · have hji : j ≠ i := by
      rintro rfl
      exact hj c _ (Function.update_self ..)
    exact h.outside j fun c' q hq => hj c' q (by simpa only [Function.update_of_ne hji] using hq)
  · by_cases hji : j = i
    · subst hji
      simp only [Function.update_self, Phase.inside.injEq] at hj
      obtain ⟨rfl, rfl⟩ := hj
      refine ⟨by rw [hexec]; exact hrun.loc, by rw [hexec]; exact hrun.log, fun he => by rw [hexec]; exact hrun.writer he,
        fun he => ((hrun.reader he).next _).1, fun he => ?_, by rw [hexec]; exact hrun.weaker⟩
      obtain ⟨y, rfl⟩ := hrun.pure he
      exact ⟨y, rfl⟩
    · simp only [Function.update_of_ne hji] at hj
      by_cases he : S.holds (w.loc i) = some .exclusive
      · exact (h.inside j c' q hj).of_none (h.apart i j hji he) rfl rfl
      · simp only [hkeep he]
        exact h.inside j c' q hj
  · have hne := hq i c _ (Function.update_self ..)
    simp only [hkeep hne]
    refine h.quiet fun j c' q hj => ?_
    by_cases hji : j = i
    · subst hji
      exact hne
    · exact hq j c' q (by simpa only [Function.update_of_ne hji] using hj)

lemma Sim.leave (h : Sim S w a) (hok : w.Enabled S (.leave i)) : Sim S (w.step S (.leave i)) a := by
  obtain ⟨c, x, y, hp⟩ := hok
  have hrun := h.inside i c _ hp
  have hinside : ∀ j c' q, Function.update w.phase i .idle j = .inside c' q → j ≠ i ∧ w.phase j = .inside c' q := by
    intro j c' q hj
    by_cases hji : j = i
    · subst hji
      simp at hj
    · exact ⟨hji, by rwa [Function.update_of_ne hji] at hj⟩
  have hweaker : Weaker (S.holds x) (S.holds (w.loc i)) := hrun.weaker
  rw [World.step_leave hp]
  refine ⟨fun j k hkj he => ?_, fun j hj => ?_, fun j c' q hj => ?_, fun hq => ?_⟩
  · simp only at he ⊢
    by_cases hji : j = i
    · subst hji
      rw [Function.update_self] at he
      rw [Function.update_of_ne hkj]
      rw [he] at hweaker
      exact h.apart j k hkj hweaker.exclusive
    · rw [Function.update_of_ne hji] at he
      by_cases hki : k = i
      · subst hki
        rw [Function.update_self]
        rw [h.apart j k hkj he] at hweaker
        exact hweaker.none
      · rw [Function.update_of_ne hki]
        exact h.apart j k hkj he
  · by_cases hji : j = i
    · subst hji
      simp only [Function.update_self]
      exact ⟨hrun.loc, hrun.log⟩
    · simp only [Function.update_of_ne hji] at hj ⊢
      exact h.outside j hj
  · obtain ⟨hji, hj⟩ := hinside j c' q hj
    simp only [Function.update_of_ne hji]
    exact h.inside j c' q hj
  -- a writer that leaves has stored all that its call stores
  · by_cases he : S.holds (w.loc i) = some .exclusive
    · exact hrun.writer he
    · refine h.quiet fun j c' q hj => ?_
      by_cases hji : j = i
      · subst hji
        exact he
      · have hq' := hq j c' q (by simpa only [Function.update_of_ne hji] using hj)
        simpa only [Function.update_of_ne hji] using hq'

/-- The sequential system after a move. -/
def Seq.after (S : Calls σ l r b) (a : Seq ι σ l b) (m : Move ι r) : Seq ι σ l b := m.point.elim a (a.step S)

/-- **One move of whichever party.** -/
theorem Sim.step (hS : S.Lawful) (h : Sim S w a) {m : Move ι r} (hok : w.Enabled S m) :
    Sim S (w.step S m) (a.after S m) := by
  cases m with
  | call i c => exact h.call hok c
  | enter i c => exact h.enter hS hok
  | act i => exact h.act hok
  | leave i => exact h.leave hok

/-- **Whole runs**: the calls in the order in which they got their locks. -/
theorem Sim.run (hS : S.Lawful) (h : Sim S w a) {ms : List (Move ι r)}
    (hms : Along (World.Enabled S) (World.step S) w ms) :
    Sim S (Lib.run (World.step S) w ms) (Lib.run (Seq.step S) a (points ms)) := by
  have hsim : Sim S (Lib.run (World.step S) w ms) (Lib.run (Seq.after S) a ms) :=
    hms.simulation (fun _ _ _ h hok => h.step hS hok) h
  rwa [show Lib.run (Seq.after S) a ms = Lib.run (Seq.step S) a (points ms) from run_filterMap ..] at hsim

/-! ### Where an answer comes from -/

/-- **An answer of the sequential run** is that of one of its calls, in the state that the calls before it left. -/
theorem mem_log_run {xs : List (ι × r)} {y : b} (hy : y ∈ (Lib.run (Seq.step S) a xs).log i) (hnew : y ∉ a.log i) :
    ∃ pre c post, xs = pre ++ (i, c) :: post ∧
      let a' := Lib.run (Seq.step S) a pre
      y = ((S.body c (S.enter c (a'.loc i))).exec a'.shared).2.2 := by
  induction xs generalizing a with
  | nil => exact absurd hy hnew
  | cons x xs ih =>
    obtain ⟨j, c⟩ := x
    by_cases hmem : y ∈ (a.step S (j, c)).log i
    · have hij : i = j := by
        by_contra hij
        simp only [Seq.step, Function.update_of_ne hij] at hmem
        exact hnew hmem
      subst hij
      simp only [Seq.step, Function.update_self, List.mem_append, List.mem_singleton] at hmem
      exact ⟨[], c, xs, rfl, hmem.resolve_left hnew⟩
    · obtain ⟨pre, c', post, rfl, hrep⟩ := ih hy hmem
      exact ⟨(j, c) :: pre, c', post, rfl, hrep⟩

/-! ### A party that keeps an exclusive lock -/

/-- Two sequential systems that are the same for the party `i`. -/
structure Seq.SameFor (i : ι) (a a' : Seq ι σ l b) : Prop where
  shared : a.shared = a'.shared
  loc : a.loc i = a'.loc i
  log : a.log i = a'.log i

lemma Seq.SameFor.own {a' : Seq ι σ l b} (h : Seq.SameFor i a a') (c : r) :
    Seq.SameFor i (a.step S (i, c)) (a'.step S (i, c)) := by
  refine ⟨?_, ?_, ?_⟩
  · simp only [Seq.step, h.shared, h.loc]
  · simp only [Seq.step, Function.update_self, h.shared, h.loc]
  · simp only [Seq.step, Function.update_self, h.shared, h.loc, h.log]

lemma Seq.SameFor.other {a' : Seq ι σ l b} {j : ι} {c : r} (h : Seq.SameFor i a a') (hj : j ≠ i)
    (hshared : (a.step S (j, c)).shared = a.shared) : Seq.SameFor i (a.step S (j, c)) a' := by
  refine ⟨hshared.trans h.shared, ?_, ?_⟩
  · rw [← h.loc]
    exact Function.update_of_ne hj.symm ..
  · rw [← h.log]
    exact Function.update_of_ne hj.symm ..

omit [DecidableEq ι] in
/-- While a party has an exclusive lock, a call of another one that gets on is one that takes none. -/
lemma Sim.unlocked_of_held (h : Sim S w a) {j : ι} (hji : j ≠ i) (hheld : S.holds (w.loc i) = some .exclusive) {c : r}
    (hok : w.Enabled S (.enter j c)) : S.holds (S.enter c (w.loc j)) = none := by
  cases hmode : S.holds (S.enter c (w.loc j)) with
  | none => rfl
  | some t =>
    rcases hok.2 t hmode with hown | hgrant
    · rw [h.apart i j hji hheld] at hown
      cases hown
    · have hfree : S.holds (w.loc i) = none ∨ S.holds (w.loc i) = some .shared ∧ t = .shared := hgrant i hji.symm
      rcases hfree with hn | ⟨hn, -⟩ <;> rw [hheld] at hn <;> cases hn

/-- **A party that keeps an exclusive lock is alone**: the calls of the others make no difference to it. -/
theorem Sim.alone (hS : S.Lawful) (h : Sim S w a) {a' : Seq ι σ l b} (hsame : Seq.SameFor i a a') {ms : List (Move ι r)}
    (hms : Along (World.Enabled S) (World.step S) w ms)
    (hheld : Along (fun w _ => S.holds (w.loc i) = some .exclusive) (World.step S) w ms) :
    Seq.SameFor i (Lib.run (Seq.step S) a (points ms))
      (Lib.run (Seq.step S) a' ((points ms).filter fun x => decide (x.1 = i))) := by
  induction ms generalizing w a a' with
  | nil => exact hsame
  | cons m ms ih =>
    have h' := h.step hS hms.1
    cases m with
    | call j c | act j | leave j => exact ih h' hsame hms.2 hheld.2
    | enter j c =>
      show Seq.SameFor i (Lib.run (Seq.step S) (a.step S (j, c)) (points ms))
        (Lib.run (Seq.step S) a' (((j, c) :: points ms).filter fun x => decide (x.1 = i)))
      by_cases hj : j = i
      · subst hj
        rw [List.filter_cons_of_pos (by simp), run_cons]
        exact ih h' (hsame.own c) hms.2 hheld.2
      · rw [List.filter_cons_of_neg (by simpa using hj)]
        have hwaits : w.phase j = .waits c := hms.1.1
        have hloc : a.loc j = w.loc j := (h.outside j (World.outside_of_waits hwaits)).1
        have hnone := h.unlocked_of_held hj hheld.1 hms.1
        exact ih h' (hsame.other hj (hS.shared_step (by rw [hloc, hnone]; nofun))) hms.2 hheld.2

/-! ### A call that nobody comes between -/

lemma run_acts {c : r} {p : Body σ (l × b)} (hp : w.phase i = .inside c p) :
    let acts := List.replicate (p.accesses w.shared) (Move.act i)
    Along (World.Enabled S) (World.step S) w acts ∧ Lib.run (World.step S) w acts =
      { w with
        shared := (p.exec w.shared).1
        phase := Function.update w.phase i (.inside c (.ret (p.exec w.shared).2)) } := by
  induction p generalizing w with
  | ret a => exact ⟨trivial, by rw [Body.accesses, List.replicate_zero, run_nil, Body.exec_ret, ← hp, Function.update_eq_self]⟩
  | load k ih =>
    obtain ⟨halong, hrun⟩ := ih w.shared (w := w.step S (.act i)) (by rw [World.step_act hp]; exact Function.update_self ..)
    rw [World.step_act hp] at halong hrun
    refine ⟨⟨⟨c, _, hp⟩, by rw [World.step_act hp]; exact halong⟩, ?_⟩
    rw [Body.accesses, List.replicate_succ, run_cons, World.step_act hp]
    refine hrun.trans ?_
    simp only [Function.update_idem]
    rfl
  | store f k ih =>
    obtain ⟨halong, hrun⟩ := ih (w := w.step S (.act i)) (by rw [World.step_act hp]; exact Function.update_self ..)
    rw [World.step_act hp] at halong hrun
    refine ⟨⟨⟨c, _, hp⟩, by rw [World.step_act hp]; exact halong⟩, ?_⟩
    rw [Body.accesses, List.replicate_succ, run_cons, World.step_act hp]
    refine hrun.trans ?_
    simp only [Function.update_idem]
    rfl

/-- The moves of a call that waits, from its lock to its end. -/
def World.undisturbed (S : Calls σ l r b) (w : World ι σ l r b) (i : ι) (c : r) : List (Move ι r) :=
  .enter i c :: (List.replicate ((S.body c (S.enter c (w.loc i))).accesses w.shared) (.act i) ++ [.leave i])

/-- **A call that nobody comes between** does what the sequential system does. -/
theorem run_undisturbed {c : r} (hok : w.Enabled S (.enter i c)) :
    let out := (S.body c (S.enter c (w.loc i))).exec w.shared
    Along (World.Enabled S) (World.step S) w (w.undisturbed S i c) ∧
      Lib.run (World.step S) w (w.undisturbed S i c) =
        ⟨out.1, Function.update w.loc i out.2.1, Function.update w.phase i .idle,
          Function.update w.log i (w.log i ++ [out.2.2])⟩ := by
  intro out
  have hshared : (w.step S (.enter i c)).shared = w.shared := rfl
  have hinside : (w.step S (.enter i c)).phase i = .inside c (S.body c (S.enter c (w.loc i))) := Function.update_self ..
  obtain ⟨hacts, hrun⟩ := run_acts (S := S) hinside
  rw [hshared] at hacts hrun
  have hlast : (Lib.run (World.step S) (w.step S (.enter i c))
      (List.replicate ((S.body c (S.enter c (w.loc i))).accesses w.shared) (.act i))).phase i =
      .inside c (.ret out.2) := by
    rw [hrun]
    exact Function.update_self ..
  refine ⟨⟨hok, along_append.2 ⟨hacts, ⟨c, _, _, hlast⟩, trivial⟩⟩, ?_⟩
  rw [World.undisturbed, run_cons, run_append, run_cons, run_nil, World.step_leave hlast, hrun]
  simp only [World.step, Function.update_idem]
  rfl

end System

end MmkvGo.Lib.Sections
