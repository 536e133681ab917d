import Mathlib.Algebra.BigOperators.Group.List.Basic
import Mathlib.Algebra.GroupWithZero.Nat
import Mathlib.Algebra.Order.BigOperators.Group.List
import Mathlib.Logic.Function.Basic

/-!
Finite maps over an ordered key type (`Std.ExtTreeMap`, equal when they have the same entries): the list of
entries under `insert` and `erase`, the weight of a map, that is the sum of a weight over its entries,
the map a list of entries builds when it is inserted entry by entry, and a map as the partial function it represents.
-/

namespace MmkvGo.Lib.OrdMap

open Std

variable {κ β : Type*} {cmp : κ → κ → Ordering} [TransCmp cmp] [LawfulEqCmp cmp]

theorem nodup_toList (t : ExtTreeMap κ β cmp) : t.toList.Nodup := by
  refine t.distinct_keys_toList.imp ?_
  rintro a b h rfl
  exact h ReflCmp.compare_self

theorem toList_insert_perm (t : ExtTreeMap κ β cmp) (k : κ) (v : β) :
    (t.insert k v).toList.Perm ((k, v) :: (t.erase k).toList) := by
  have hk : (k, v) ∉ (t.erase k).toList := by
    simp [ExtTreeMap.mem_toList_iff_getElem?_eq_some]
  rw [List.perm_ext_iff_of_nodup (nodup_toList _) (List.nodup_cons.2 ⟨hk, nodup_toList _⟩)]
  rintro ⟨a, b⟩
  simp only [ExtTreeMap.mem_toList_iff_getElem?_eq_some, List.mem_cons, Prod.mk.injEq,
    ExtTreeMap.getElem?_insert, ExtTreeMap.getElem?_erase]
  by_cases h : cmp k a = .eq
  · obtain rfl := LawfulEqCmp.compare_eq_iff_eq.1 h
    simp only [if_pos h, Option.some.injEq, true_and, reduceCtorEq, or_false]
    exact eq_comm
  · have hne : a ≠ k := by
      rintro rfl
      exact h ReflCmp.compare_self
    simp [h, hne]

theorem toList_perm_erase {t : ExtTreeMap κ β cmp} {k : κ} {v : β} (h : t[k]? = some v) :
    t.toList.Perm ((k, v) :: (t.erase k).toList) := by
  have hself : t.insert k v = t := by
    refine ExtTreeMap.ext_getElem? fun a => ?_
    rw [ExtTreeMap.getElem?_insert]
    split
    · next hka => rw [← LawfulEqCmp.compare_eq_iff_eq.1 hka, h]
    · rfl
  rw [← hself]
  refine (toList_insert_perm t k v).trans ?_
  rw [hself]

theorem erase_of_getElem?_none {t : ExtTreeMap κ β cmp} {k : κ} (h : t[k]? = none) : t.erase k = t := by
  refine ExtTreeMap.ext_getElem? fun a => ?_
  rw [ExtTreeMap.getElem?_erase]
  split
  · next hka => rw [← LawfulEqCmp.compare_eq_iff_eq.1 hka, h]
  · rfl

/-! ### The weight of a map -/

/-- The sum of `w` over the entries. -/
def weight (w : κ × β → ℕ) (t : ExtTreeMap κ β cmp) : ℕ := (t.toList.map w).sum

theorem weight_insert (w : κ × β → ℕ) (t : ExtTreeMap κ β cmp) (k : κ) (v : β) :
    weight w (t.insert k v) = w (k, v) + weight w (t.erase k) := by
  rw [weight, ((toList_insert_perm t k v).map w).sum_eq, List.map_cons, List.sum_cons, weight]

theorem weight_erase_le (w : κ × β → ℕ) (t : ExtTreeMap κ β cmp) (k : κ) :
    weight w (t.erase k) ≤ weight w t := by
  cases h : t[k]? with
  | none => rw [erase_of_getElem?_none h]
  | some v =>
    rw [weight, weight, ((toList_perm_erase h).map w).sum_eq, List.map_cons, List.sum_cons]
    omega

theorem weight_insert_le (w : κ × β → ℕ) (t : ExtTreeMap κ β cmp) (k : κ) (v : β) :
    weight w (t.insert k v) ≤ weight w t + w (k, v) := by
  have := weight_erase_le w t k
  rw [weight_insert]
  omega

/-! ### Building a map from its entries -/

/-- **Inserting the entries of a map, in any order and each key once, builds it.** -/
theorem foldl_insert_eq [BEq κ] [LawfulBEqCmp cmp] {t : ExtTreeMap κ β cmp} {l : List (κ × β)}
    (hd : l.Pairwise fun a b => ¬ cmp a.1 b.1 = .eq) (hl : ∀ k v, (k, v) ∈ l ↔ t[k]? = some v) :
    l.foldl (fun m p => m.insert p.1 p.2) (∅ : ExtTreeMap κ β cmp) = t := by
  have hfold : ∀ (l : List (κ × β)) (m : ExtTreeMap κ β cmp),
      l.foldl (fun m p => m.insert p.1 p.2) m = m.insertMany l := by
    intro l
    induction l with
    | nil => intro m; simp
    | cons p l ih => intro m; rw [List.foldl_cons, ih, ExtTreeMap.insertMany_cons]
  rw [hfold]
  refine ExtTreeMap.ext_getElem? fun k => ?_
  cases h : t[k]? with
  | some v =>
    exact ExtTreeMap.getElem?_insertMany_list_of_mem ReflCmp.compare_self hd ((hl k v).2 h)
  | none =>
    rw [ExtTreeMap.getElem?_insertMany_list_of_contains_eq_false]
    · simp
    · rw [Bool.eq_false_iff]
      intro hc
      obtain ⟨a, ha, hka⟩ := List.contains_iff_exists_mem_beq.1 hc
      obtain ⟨⟨a', v⟩, hm, rfl⟩ := List.mem_map.1 ha
      have hc' : cmp k a' = .eq := LawfulBEqCmp.compare_eq_iff_beq.2 hka
      have hk : k = a' := LawfulEqCmp.compare_eq_iff_eq.1 hc'
      rw [← hk, hl, h] at hm
      cases hm

/-! ### The partial function of a map -/

/-- The partial function a map represents. -/
def lookup (t : ExtTreeMap κ β cmp) : κ → Option β := fun k => t[k]?

theorem lookup_inj {s t : ExtTreeMap κ β cmp} (h : lookup s = lookup t) : s = t :=
  ExtTreeMap.ext_getElem? fun k => congrFun h k

omit [LawfulEqCmp cmp] in
@[simp] lemma lookup_empty : lookup (∅ : ExtTreeMap κ β cmp) = fun _ => none := by
  funext k
  simp [lookup]

@[simp] theorem lookup_insert [DecidableEq κ] (t : ExtTreeMap κ β cmp) (k : κ) (v : β) :
    lookup (t.insert k v) = Function.update (lookup t) k (some v) := by
  funext a
  rw [lookup, ExtTreeMap.getElem?_insert, Function.update_apply]
  simp only [LawfulEqCmp.compare_eq_iff_eq, lookup, eq_comm (a := a)]

@[simp] theorem lookup_erase [DecidableEq κ] (t : ExtTreeMap κ β cmp) (k : κ) :
    lookup (t.erase k) = Function.update (lookup t) k none := by
  funext a
  rw [lookup, ExtTreeMap.getElem?_erase, Function.update_apply]
  simp only [LawfulEqCmp.compare_eq_iff_eq, lookup, eq_comm (a := a)]

@[simp] theorem lookup_foldl_erase [DecidableEq κ] (t : ExtTreeMap κ β cmp) (ks : List κ) :
    lookup (ks.foldl (fun t k => t.erase k) t) = fun a => if a ∈ ks then none else lookup t a := by
  induction ks generalizing t with
  | nil => simp
  | cons k ks ih =>
    funext a
    rw [List.foldl_cons, ih, lookup_erase]
    by_cases hk : a = k <;> simp [hk]

theorem insert_of_size_eq_one {t : ExtTreeMap κ β cmp} {k : κ} (h : t.contains k = true) (h1 : t.size = 1) (v : β) :
    t.insert k v = (∅ : ExtTreeMap κ β cmp).insert k v := by
  have hempty : t.erase k = ∅ := by
    rw [ExtTreeMap.eq_empty_iff_size_eq_zero, ExtTreeMap.size_erase, if_pos h, h1]
  refine ExtTreeMap.ext_getElem? fun a => ?_
  rw [ExtTreeMap.getElem?_insert, ExtTreeMap.getElem?_insert, ← hempty, ExtTreeMap.getElem?_erase]
  split <;> rfl

end MmkvGo.Lib.OrdMap
