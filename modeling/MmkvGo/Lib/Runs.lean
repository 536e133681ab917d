import Mathlib.Data.List.Basic

/-!
Runs of a system that takes one action after the other: the state a list of actions leads to, what it means that
every action met its condition in the state it was taken in, and the rules that carry a fact along a run: an invariant,
a simulation by another system, and a part of the state that no action changes.
-/

namespace MmkvGo.Lib

variable {σ τ α : Type*}

/-- The state after the actions of `l`. -/
def run (step : σ → α → σ) (s : σ) (l : List α) : σ := l.foldl step s

/-- Every action of `l` meets `ok` in the state it is taken in. -/
def Along (ok : σ → α → Prop) (step : σ → α → σ) : σ → List α → Prop
  | _, [] => True
  | s, a :: l => ok s a ∧ Along ok step (step s a) l

@[simp] lemma run_nil (step : σ → α → σ) (s : σ) : run step s [] = s := rfl

@[simp] lemma run_cons (step : σ → α → σ) (s : σ) (a : α) (l : List α) :
    run step s (a :: l) = run step (step s a) l := rfl

lemma run_append (step : σ → α → σ) (s : σ) (l₁ l₂ : List α) :
    run step s (l₁ ++ l₂) = run step (run step s l₁) l₂ := List.foldl_append

lemma run_filterMap {β : Type*} (f : β → Option α) (step : σ → α → σ) (s : σ) (l : List β) :
    run (fun s b => (f b).elim s (step s)) s l = run step s (l.filterMap f) := by
  induction l generalizing s with
  | nil => rfl
  | cons b l ih =>
    rw [run_cons, ih, List.filterMap_cons]
    cases f b <;> rfl

section Rules

variable {ok : σ → α → Prop} {step : σ → α → σ} {s : σ} {l : List α}

lemma along_append {l₁ l₂ : List α} :
    Along ok step s (l₁ ++ l₂) ↔ Along ok step s l₁ ∧ Along ok step (run step s l₁) l₂ := by
  induction l₁ generalizing s with
  | nil => exact ⟨fun h => ⟨trivial, h⟩, fun h => h.2⟩
  | cons a l₁ ih => exact ⟨fun h => ⟨⟨h.1, (ih.1 h.2).1⟩, (ih.1 h.2).2⟩, fun h => ⟨h.1.1, ih.2 ⟨h.1.2, h.2⟩⟩⟩

/-- **The invariant rule.** -/
theorem Along.invariant {Inv : σ → Prop} (hstep : ∀ s a, Inv s → ok s a → Inv (step s a)) (h : Inv s)
    (hl : Along ok step s l) : Inv (run step s l) := by
  induction l generalizing s with
  | nil => exact h
  | cons a l ih => exact ih (hstep s a h hl.1) hl.2

/-- **The simulation rule**: two systems that are related stay so, action by action. -/
theorem Along.simulation {R : σ → τ → Prop} {step' : τ → α → τ} {t : τ}
    (hstep : ∀ s t a, R s t → ok s a → R (step s a) (step' t a)) (h : R s t) (hl : Along ok step s l) :
    R (run step s l) (run step' t l) := by
  induction l generalizing s t with
  | nil => exact h
  | cons a l ih => exact ih (hstep s t a h hl.1) hl.2

/-- **The rule for a system that may fail**: it does not, as long as it is related to one that cannot. -/
theorem Along.lockstep {R : τ → σ → Prop} {step' : τ → α → Option τ} {t : τ}
    (hstep : ∀ t s a, R t s → ok s a → ∃ t', step' t a = some t' ∧ R t' (step s a)) (h : R t s)
    (hl : Along ok step s l) : ∃ t', l.foldlM step' t = some t' ∧ R t' (run step s l) := by
  induction l generalizing s t with
  | nil => exact ⟨t, rfl, h⟩
  | cons a l ih =>
    obtain ⟨t₁, ht₁, hr⟩ := hstep t s a h hl.1
    obtain ⟨t', ht', hrun⟩ := ih hr hl.2
    exact ⟨t', by rw [List.foldlM_cons, ht₁]; exact ht', hrun⟩

end Rules

end MmkvGo.Lib
