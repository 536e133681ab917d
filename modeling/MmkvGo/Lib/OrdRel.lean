import MmkvGo.Lib.OrdMap

/-!
Two finite maps over the same keys whose values are related key by key, as a map of pointers and the map of what they
point to: the relation under insertion and erasure, and the map that is read out of one whose values can be read.
-/

namespace MmkvGo.Lib.OrdMap

open Std

section Related

variable {κ β γ : Type*} {cmp : κ → κ → Ordering} [TransCmp cmp] {R : β → γ → Prop} {s : ExtTreeMap κ β cmp}
  {t : ExtTreeMap κ γ cmp}

/-- The maps have the same keys, and related values under them. -/
def Related (R : β → γ → Prop) (s : ExtTreeMap κ β cmp) (t : ExtTreeMap κ γ cmp) : Prop :=
  ∀ k : κ, Option.Rel R s[k]? t[k]?

lemma related_empty : Related R (∅ : ExtTreeMap κ β cmp) (∅ : ExtTreeMap κ γ cmp) := by
  intro k
  rw [ExtTreeMap.getElem?_empty, ExtTreeMap.getElem?_empty]
  exact .none

lemma Related.exists_right {k : κ} {a : β} (h : Related R s t) (ha : s[k]? = some a) :
    ∃ b, t[k]? = some b ∧ R a b := by
  have hk := h k
  rw [ha] at hk
  generalize t[k]? = o at hk
  cases hk with
  | some hab => exact ⟨_, rfl, hab⟩

lemma Related.mono {R' : β → γ → Prop} (h : Related R s t) (himp : ∀ a b, R a b → R' a b) : Related R' s t := by
  intro k
  have hk := h k
  generalize s[k]? = o, t[k]? = o' at hk ⊢
  cases hk with
  | none => exact .none
  | some hab => exact .some (himp _ _ hab)

theorem Related.insert {a : β} {b : γ} (h : Related R s t) (hab : R a b) (k : κ) :
    Related R (s.insert k a) (t.insert k b) := by
  intro l
  rw [ExtTreeMap.getElem?_insert, ExtTreeMap.getElem?_insert]
  split
  · exact .some hab
  · exact h l

theorem Related.erase (h : Related R s t) (k : κ) : Related R (s.erase k) (t.erase k) := by
  intro l
  rw [ExtTreeMap.getElem?_erase, ExtTreeMap.getElem?_erase]
  split
  · exact .none
  · exact h l

/-- The map of what the values of `s` are read as, if all of them can be read. -/
def readAll (read : β → Option γ) (s : ExtTreeMap κ β cmp) : Option (ExtTreeMap κ γ cmp) :=
  if s.toList.all fun kv => (read kv.2).isSome then some (s.filterMap fun _ a => read a) else none

end Related

section Read

variable {κ β γ : Type*} {cmp : κ → κ → Ordering} [TransCmp cmp] [LawfulEqCmp cmp] {R : β → γ → Prop}
  {s : ExtTreeMap κ β cmp} {t : ExtTreeMap κ γ cmp}

theorem Related.map {β' : Type*} {R' : β' → γ → Prop} {f : β → β'} (h : Related R s t)
    (himp : ∀ a b, R a b → R' (f a) b) : Related R' (s.map fun _ a => f a) t := by
  intro k
  rw [ExtTreeMap.getElem?_map]
  have hk := h k
  generalize s[k]? = o, t[k]? = o' at hk ⊢
  cases hk with
  | none => exact .none
  | some hab => exact .some (himp _ _ hab)

/-- **What is read out of a map of pointers** is the map they point to. -/
theorem Related.readAll_eq {read : β → Option γ} (h : Related R s t) (hread : ∀ a b, R a b → read a = some b) :
    readAll read s = some t := by
  have hall : (s.toList.all fun kv => (read kv.2).isSome) = true := by
    rw [List.all_eq_true]
    rintro ⟨k, a⟩ hka
    obtain ⟨b, -, hab⟩ := h.exists_right (ExtTreeMap.mem_toList_iff_getElem?_eq_some.1 hka)
    simp only [hread _ _ hab, Option.isSome_some]
  rw [readAll, if_pos hall]
  congr 1
  refine ExtTreeMap.ext_getElem? fun k => ?_
  rw [ExtTreeMap.getElem?_filterMap']
  have hk := h k
  generalize s[k]? = o, t[k]? = o' at hk ⊢
  cases hk with
  | none => rfl
  | some hab => exact hread _ _ hab

end Read

end MmkvGo.Lib.OrdMap
