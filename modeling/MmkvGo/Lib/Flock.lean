import Mathlib.Logic.Function.Basic
import Mathlib.Logic.Relation

/-!
Advisory locks of the kernel on one file (`flock(2)`), and programs that use them.

A lock belongs to an open file description.  A description holds nothing, a shared lock or an exclusive one; an
exclusive lock excludes all others, a shared one excludes exclusive ones.  A request replaces what the description
held; one that is refused may have lost it, and one that waits may lose it while it waits.

A `Prog` is a program of such requests.  `Safe` is its weakest precondition, seen from its own description: whatever
the kernel answers, the program ends as the postcondition says.  Any number of parties, each with a state of its own
and a description of its own, run calls made of such programs in any interleaving of the single requests (`Step`).
The rule `Inv.step` carries an invariant of each idle party along such a run, from the safety of each call alone.
-/

namespace MmkvGo.Lib.Flock

/-- What a description can hold. -/
inductive Mode where
  | shared
  | exclusive
  deriving DecidableEq

/-- A request to the kernel. -/
inductive Cmd where
  /-- Take a lock; with `nb` the request does not wait. -/
  | acquire (t : Mode) (nb : Bool)
  /-- Release what is held. -/
  | release
  /-- Take a shared lock, by a request that is not refused. -/
  | reshare
  deriving DecidableEq

/-- Why a request was refused. -/
inductive Errno where
  | wouldBlock
  | other
  deriving DecidableEq

/-- A program of requests; a request is answered with no error or with one. -/
inductive Prog (α : Type) where
  | ret (a : α)
  | flock (c : Cmd) (k : Option Errno → Prog α)

namespace Prog

variable {α β : Type}

protected def bind : Prog α → (α → Prog β) → Prog β
  | .ret a, f => f a
  | .flock c k, f => .flock c fun r => (k r).bind f

instance : Monad Prog where
  pure := .ret
  bind := .bind

/-- One request. -/
def request (c : Cmd) : Prog (Option Errno) := .flock c .ret

end Prog

/-- What a request does to its description, from what it held to what it holds. -/
inductive Replies : Cmd → Option Mode → Option Errno → Option Mode → Prop where
  | granted (t : Mode) (nb : Bool) (h : Option Mode) : Replies (.acquire t nb) h none (some t)
  | refused (t : Mode) (nb : Bool) (h : Option Mode) (e : Errno) : Replies (.acquire t nb) h (some e) h
  /-- A refused request may have lost what was held. -/
  | lost (t : Mode) (nb : Bool) (h : Option Mode) (e : Errno) : Replies (.acquire t nb) h (some e) none
  | released (h : Option Mode) : Replies .release h none none
  | reshared (h : Option Mode) : Replies .reshare h none (some .shared)

/-! ### Safety of one program -/

/-- **The weakest precondition**: from what the description holds, every end of the program is as `post` says. -/
def Safe {α : Type} (post : α → Option Mode → Prop) : Prog α → Option Mode → Prop
  | .ret a, h => post a h
  | .flock c k, h => ∀ r h', Replies c h r h' → Safe post (k r) h'

section Rules

variable {α β : Type} {post : α → Option Mode → Prop} {h : Option Mode}

@[simp] lemma safe_ret {a : α} : Safe post (.ret a) h ↔ post a h := Iff.rfl

@[simp] lemma safe_pure {a : α} : Safe post (pure a) h ↔ post a h := Iff.rfl

/-- **Sequencing.** -/
theorem safe_bind {post : β → Option Mode → Prop} {p : Prog α} {f : α → Prog β}
    (hp : Safe (fun a h => Safe post (f a) h) p h) : Safe post (p >>= f) h := by
  show Safe post (p.bind f) h
  induction p generalizing h with
  | ret a => exact hp
  | flock c k ih => exact fun r h' hr => ih r (hp r h' hr)

/-- **Weakening.** -/
theorem Safe.mono {post' : α → Option Mode → Prop} {p : Prog α} (hp : Safe post p h)
    (himp : ∀ a h, post a h → post' a h) : Safe post' p h := by
  induction p generalizing h with
  | ret a => exact himp a h hp
  | flock c k ih => exact fun r h' hr => ih r (hp r h' hr)

theorem safe_release {post : Option Errno → Option Mode → Prop} (hp : post none none) :
    Safe post (Prog.request .release) h := by
  intro r h' hr
  cases hr
  exact hp

theorem safe_reshare {post : Option Errno → Option Mode → Prop} (hp : post none (some .shared)) :
    Safe post (Prog.request .reshare) h := by
  intro r h' hr
  cases hr
  exact hp

theorem safe_acquire {post : Option Errno → Option Mode → Prop} {t : Mode} {nb : Bool} (hok : post none (some t))
    (hrefused : ∀ e, post (some e) h) (hlost : ∀ e, post (some e) none) :
    Safe post (Prog.request (.acquire t nb)) h := by
  intro r h' hr
  cases hr with
  | granted => exact hok
  | refused => exact hrefused _
  | lost => exact hlost _

theorem Safe.lose {c : Cmd} {k : Option Errno → Prog α} (hp : Safe post (.flock c k) h) :
    Safe post (.flock c k) none := by
  intro r h' hr
  cases hr with
  | granted t nb => exact hp _ _ (.granted t nb h)
  | refused t nb _ e => exact hp _ _ (.lost t nb h e)
  | lost t nb _ e => exact hp _ _ (.lost t nb h e)
  | released => exact hp _ _ (.released h)
  | reshared => exact hp _ _ (.reshared h)

end Rules

/-! ### Many parties -/

/-- A party's own state, and the rest of the call it is in. -/
structure Party (σ β : Type) where
  state : σ
  running : Option (Prog (σ × β))

/-- The parties, and what the kernel holds for the description of each. -/
structure World (ι σ β : Type) where
  party : ι → Party σ β
  held : ι → Option Mode

/-- The party `i` may be given a lock. -/
def Grantable {ι : Type} (held : ι → Option Mode) (i : ι) (t : Mode) : Prop :=
  ∀ j, j ≠ i → held j = none ∨ held j = some .shared ∧ t = .shared

section System

variable {ι σ β γ : Type} [DecidableEq ι]

/-- One step of one party: it begins a call, its pending request is answered, it loses what it holds while it waits, or
its call returns. -/
inductive Step (prog : γ → σ → Prog (σ × β)) (w : World ι σ β) : World ι σ β → Prop where
  | call (i : ι) (c : γ) (hidle : (w.party i).running = none) :
      Step prog w { w with party := Function.update w.party i ⟨(w.party i).state, some (prog c (w.party i).state)⟩ }
  | reply (i : ι) (c : Cmd) (k : Option Errno → Prog (σ × β)) (r : Option Errno) (h' : Option Mode)
      (hrun : (w.party i).running = some (.flock c k)) (hr : Replies c (w.held i) r h')
      (hgrant : ∀ t, h' = some t → h' = w.held i ∨ Grantable w.held i t) :
      Step prog w ⟨Function.update w.party i ⟨(w.party i).state, some (k r)⟩, Function.update w.held i h'⟩
  | lose (i : ι) (c : Cmd) (k : Option Errno → Prog (σ × β)) (hrun : (w.party i).running = some (.flock c k)) :
      Step prog w { w with held := Function.update w.held i none }
  | finish (i : ι) (s : σ) (b : β) (hrun : (w.party i).running = some (.ret (s, b))) :
      Step prog w { w with party := Function.update w.party i ⟨s, none⟩ }

/-- What holds along every run: the kernel keeps exclusive locks apart; an idle party and its description are as `I` says;
and a call in progress will leave them so, and its result as `Q` says of the state it began in. -/
structure Inv (I : σ → Option Mode → Prop) (Q : σ → σ → β → Prop) (w : World ι σ β) : Prop where
  exclusive : ∀ i j, j ≠ i → w.held i = some .exclusive → w.held j = none
  idle : ∀ i, (w.party i).running = none → I (w.party i).state (w.held i)
  busy : ∀ i p, (w.party i).running = some p →
    Safe (fun r h => I r.1 h ∧ Q (w.party i).state r.1 r.2) p (w.held i)

variable {I : σ → Option Mode → Prop} {Q : σ → σ → β → Prop} {prog : γ → σ → Prog (σ × β)} {w w' : World ι σ β}

lemma exclusive_update {held : ι → Option Mode} (hex : ∀ i j, j ≠ i → held i = some .exclusive → held j = none) {i : ι}
    {h' : Option Mode} (hgrant : ∀ t, h' = some t → h' = held i ∨ Grantable held i t) (a b : ι) (hne : b ≠ a)
    (ha : Function.update held i h' a = some .exclusive) : Function.update held i h' b = none := by
  by_cases hai : a = i
  · subst hai
    rw [Function.update_self] at ha
    rw [Function.update_of_ne hne]
    rcases hgrant _ ha with hold | hfree
    · exact hex a b hne (hold ▸ ha)
    · rcases hfree b hne with hb | ⟨-, ht⟩
      · exact hb
      · cases ht
  · rw [Function.update_of_ne hai] at ha
    by_cases hbi : b = i
    · subst hbi
      rw [Function.update_self]
      cases hh : h' with
      | none => rfl
      | some t =>
        rcases hgrant t hh with hold | hfree
        · rw [← hh, hold]
          exact hex a b hne ha
        · rcases hfree a hai with hb | ⟨hb, -⟩ <;> rw [ha] at hb <;> cases hb
    · rw [Function.update_of_ne hbi]
      exact hex a b hne ha

lemma Inv.update (hw : Inv I Q w) {i : ι} {x : Party σ β} {o : Option Mode}
    (hgrant : ∀ t, o = some t → o = w.held i ∨ Grantable w.held i t) (hidle : x.running = none → I x.state o)
    (hbusy : ∀ p, x.running = some p → Safe (fun r h => I r.1 h ∧ Q x.state r.1 r.2) p o) :
    Inv I Q ⟨Function.update w.party i x, Function.update w.held i o⟩ := by
  refine ⟨exclusive_update hw.exclusive hgrant, fun j hj => ?_, fun j p hj => ?_⟩ <;> by_cases hji : j = i
  · subst hji
    simp only [Function.update_self] at hj ⊢
    exact hidle hj
  · simp only [Function.update_of_ne hji] at hj ⊢
    exact hw.idle j hj
  · subst hji
    simp only [Function.update_self] at hj ⊢
    exact hbusy p hj
  · simp only [Function.update_of_ne hji] at hj ⊢
    exact hw.busy j p hj

/-- **One step of any party**, when every call is safe from the states that `I` allows. -/
theorem Inv.step (hprog : ∀ c s h, I s h → Safe (fun r h => I r.1 h ∧ Q s r.1 r.2) (prog c s) h) (hw : Inv I Q w)
    (hstep : Step prog w w') : Inv I Q w' := by
  cases hstep with
  | call i c hidle =>
    have hcall := hw.update (i := i) (x := ⟨(w.party i).state, some (prog c (w.party i).state)⟩) (o := w.held i)
      (fun _ _ => .inl rfl) (fun h => by cases h) fun p hp => by
        cases hp
        exact hprog c _ _ (hw.idle i hidle)
    rwa [Function.update_eq_self] at hcall
  | reply i c k r h' hrun hr hgrant =>
    refine hw.update hgrant (fun h => by cases h) fun p hp => ?_
    cases hp
    exact hw.busy i _ hrun r h' hr
  | lose i c k hrun =>
    have hlose := hw.update (i := i) (x := w.party i) (o := none) (fun _ h => by cases h)
      (fun h => by cases hrun.symm.trans h) fun p hp => by
        cases hp.symm.trans hrun
        exact (hw.busy i _ hrun).lose
    rwa [Function.update_eq_self] at hlose
  | finish i s b hrun =>
    have hfinish := hw.update (i := i) (x := ⟨s, none⟩) (o := w.held i) (fun _ _ => .inl rfl)
      (fun _ => (hw.busy i _ hrun).1) fun p hp => by cases hp
    rwa [Function.update_eq_self] at hfinish

/-- **Whole runs.** -/
theorem Inv.run (hprog : ∀ c s h, I s h → Safe (fun r h => I r.1 h ∧ Q s r.1 r.2) (prog c s) h) (hw : Inv I Q w)
    (hrun : Relation.ReflTransGen (Step prog) w w') : Inv I Q w' := by
  induction hrun with
  | refl => exact hw
  | tail _ hstep ih => exact ih.step hprog hstep

end System

end MmkvGo.Lib.Flock
