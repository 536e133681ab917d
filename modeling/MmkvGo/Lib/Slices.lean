import Mathlib.Data.List.Basic
import Mathlib.Data.List.TakeDrop

/-!
Slices of a list and writes into one.

* `slice xs lo hi` — the elements at the positions `lo ≤ i < hi`;
* `patch xs off ys` — the elements of `ys` stored one after the other from position `off` on; a store
  past the end is dropped, so the length never changes;
* `resize z xs n` — the list cut, or filled up with `z`, to length `n`.

`patch` is a recursion on the stores and not a single cut-and-paste, so that a series of stores that is
interrupted is again a patch, with a prefix of the values.
-/

namespace MmkvGo.Lib

variable {α : Type*}

/-- The elements at the positions `lo ≤ i < hi`. -/
def slice (xs : List α) (lo hi : ℕ) : List α := (xs.take hi).drop lo

/-- The elements of `ys` stored one after the other from position `off` on. -/
def patch : List α → ℕ → List α → List α
  | xs, _, [] => xs
  | xs, off, y :: ys => patch (xs.set off y) (off + 1) ys

/-- The list cut, or filled up with `z`, to length `n`. -/
def resize (z : α) (xs : List α) (n : ℕ) : List α := xs.take n ++ List.replicate (n - xs.length) z

/-! ### Patches -/

@[simp] lemma patch_nil (xs : List α) (off : ℕ) : patch xs off [] = xs := rfl

@[simp] theorem length_patch (xs : List α) (off : ℕ) (ys : List α) :
    (patch xs off ys).length = xs.length := by
  induction ys generalizing xs off with
  | nil => rfl
  | cons y ys ih => simp [patch, ih]

theorem patch_append (xs : List α) (off : ℕ) (ys zs : List α) :
    patch xs off (ys ++ zs) = patch (patch xs off ys) (off + ys.length) zs := by
  induction ys generalizing xs off with
  | nil => simp
  | cons y ys ih =>
    simp only [List.cons_append, patch, ih, List.length_cons]
    congr 1
    omega

theorem patch_eq {xs : List α} {off : ℕ} {ys : List α} (h : off + ys.length ≤ xs.length) :
    patch xs off ys = xs.take off ++ ys ++ xs.drop (off + ys.length) := by
  induction ys generalizing xs off with
  | nil => simp
  | cons y ys ih =>
    simp only [List.length_cons] at h
    have hoff : off < xs.length := by omega
    rw [patch, ih (by simp; omega), List.set_eq_take_append_cons_drop, if_pos hoff]
    have hlen : (xs.take off).length = off := by simp; omega
    have htake : (xs.take off ++ y :: xs.drop (off + 1)).take (off + 1) = xs.take off ++ [y] := by
      rw [List.take_append, hlen, List.take_of_length_le (by omega), Nat.add_sub_cancel_left]
      rfl
    have hdrop : (xs.take off ++ y :: xs.drop (off + 1)).drop (off + 1 + ys.length) =
        xs.drop (off + (ys.length + 1)) := by
      rw [List.drop_append, hlen, List.drop_eq_nil_of_le (by omega), List.nil_append,
        show off + 1 + ys.length - off = ys.length + 1 by omega, List.drop_succ_cons, List.drop_drop]
      congr 1
      omega
    rw [htake, hdrop]
    simp

lemma patch_append_left {xs ys : List α} {off : ℕ} (zs : List α) (h : off + ys.length ≤ xs.length) :
    patch (xs ++ zs) off ys = patch xs off ys ++ zs := by
  induction ys generalizing xs off with
  | nil => rfl
  | cons y ys ih =>
    rw [List.length_cons] at h
    rw [patch, patch, List.set_append_left _ _ (by omega), ih (by rw [List.length_set]; omega)]

lemma set_patch_of_lt {xs ys : List α} {i off : ℕ} (y : α) (h : i < off) :
    (patch xs off ys).set i y = patch (xs.set i y) off ys := by
  induction ys generalizing xs off with
  | nil => rfl
  | cons z ys ih =>
    rw [patch, patch, ih (by omega), List.set_comm _ _ (by omega)]

/-- **A patch over a patch** of the same place leaves the second. -/
theorem patch_patch_self {xs ys zs : List α} {off : ℕ} (h : ys.length = zs.length) :
    patch (patch xs off ys) off zs = patch xs off zs := by
  induction ys generalizing xs off zs with
  | nil => rw [patch_nil]
  | cons y ys ih =>
    cases zs with
    | nil => cases h
    | cons z zs =>
      rw [patch, patch, patch, set_patch_of_lt z (Nat.lt_succ_self off), List.set_set, ih (by simpa using h)]

/-- **Patches of two places** commute. -/
theorem patch_comm {xs ys zs : List α} {off off' : ℕ} (h : off + ys.length ≤ off') :
    patch (patch xs off ys) off' zs = patch (patch xs off' zs) off ys := by
  induction ys generalizing xs off with
  | nil => rfl
  | cons y ys ih =>
    rw [List.length_cons] at h
    rw [patch, patch, ih (by omega), set_patch_of_lt y (by omega)]

theorem take_patch_of_le {xs : List α} {off n : ℕ} (ys : List α) (h : n ≤ off) :
    (patch xs off ys).take n = xs.take n := by
  induction ys generalizing xs off with
  | nil => rfl
  | cons y ys ih => rw [patch, ih (by omega), List.take_set_of_le h]

theorem drop_patch_of_le {xs : List α} {off n : ℕ} (ys : List α) (h : off + ys.length ≤ n) :
    (patch xs off ys).drop n = xs.drop n := by
  induction ys generalizing xs off with
  | nil => rfl
  | cons y ys ih =>
    simp only [List.length_cons] at h
    rw [patch, ih (by omega), List.drop_set_of_lt (by omega)]

/-! ### Slices -/

theorem length_slice {xs : List α} {lo hi : ℕ} (h : hi ≤ xs.length) : (slice xs lo hi).length = hi - lo := by
  simp [slice, h]

lemma length_slice_le (xs : List α) (lo hi : ℕ) : (slice xs lo hi).length ≤ hi - lo := by
  rw [slice, List.length_drop, List.length_take]
  omega

lemma slice_take {xs : List α} {lo hi n : ℕ} (h : hi ≤ n) : slice (xs.take n) lo hi = slice xs lo hi := by
  simp [slice, List.take_take, h]

lemma slice_take_add {xs : List α} {lo k n : ℕ} (h : k ≤ n) :
    (slice xs lo (lo + n)).take k = slice xs lo (lo + k) := by
  rw [slice, slice, List.drop_take, List.drop_take, List.take_take, Nat.add_sub_cancel_left, Nat.add_sub_cancel_left,
    Nat.min_eq_left h]

lemma slice_slice {xs : List α} {a b c e : ℕ} (h : a + e ≤ b) : slice (slice xs a b) c e = slice xs (a + c) (a + e) := by
  rw [slice, slice, slice, List.take_drop, List.take_take, List.drop_drop, Nat.min_eq_left h]

lemma slice_append_left {xs ys : List α} {lo hi : ℕ} (h : hi ≤ xs.length) :
    slice (xs ++ ys) lo hi = slice xs lo hi := by
  rw [slice, List.take_append_of_le_length h, slice]

theorem slice_patch_of_le {xs : List α} {lo hi off : ℕ} (ys : List α) (h : hi ≤ off) :
    slice (patch xs off ys) lo hi = slice xs lo hi := by
  rw [slice, take_patch_of_le ys h, slice]

theorem slice_patch_of_ge {xs : List α} {lo hi off : ℕ} (ys : List α) (h : off + ys.length ≤ lo) :
    slice (patch xs off ys) lo hi = slice xs lo hi := by
  rw [slice, slice, List.drop_take, List.drop_take, drop_patch_of_le ys h]

theorem slice_patch_self {xs : List α} {off : ℕ} {ys : List α} (h : off + ys.length ≤ xs.length) :
    slice (patch xs off ys) off (off + ys.length) = ys := by
  have hlen : (xs.take off).length = off := by simp; omega
  rw [patch_eq h, slice, List.take_append_of_le_length (by simp [hlen]),
    List.take_of_length_le (by simp [hlen]), List.drop_append_of_le_length (by omega),
    List.drop_of_length_le (by omega), List.nil_append]

theorem slice_patch_end {xs : List α} {lo off : ℕ} {ys : List α} (hlo : lo ≤ off)
    (h : off + ys.length ≤ xs.length) :
    slice (patch xs off ys) lo (off + ys.length) = slice xs lo off ++ ys := by
  have hlen : (xs.take off).length = off := by simp; omega
  rw [patch_eq h, slice, List.take_append_of_le_length (by simp [hlen]),
    List.take_of_length_le (by simp [hlen]), List.drop_append_of_le_length (by omega), slice]

theorem slice_patch_start (xs : List α) (off hi : ℕ) (ys : List α) :
    slice (patch xs off ys) off hi = patch (slice xs off hi) 0 ys := by
  have hshift : ∀ (ys : List α) (xs : List α) (k : ℕ),
      slice (patch xs (off + k) ys) off hi = patch (slice xs off hi) k ys := by
    intro ys
    induction ys with
    | nil => exact fun _ _ => rfl
    | cons y ys ih =>
      intro xs k
      have hset : slice (xs.set (off + k) y) off hi = (slice xs off hi).set k y := by
        rw [slice, slice, List.take_set, List.drop_set, if_neg (by omega), Nat.add_sub_cancel_left]
      rw [patch, patch, Nat.add_assoc, ih, hset]
  exact hshift ys xs 0

lemma slice_patch_zero {xs ys : List α} {lo hi : ℕ} (hhi : hi ≤ ys.length) (h : ys.length ≤ xs.length) :
    slice (patch xs 0 ys) lo hi = slice ys lo hi := by
  rw [patch_eq (by omega), List.take_zero, List.nil_append, slice_append_left hhi]

lemma patch_replicate (z : α) (n off k : ℕ) : patch (List.replicate n z) off (List.replicate k z) = List.replicate n z := by
  induction k generalizing off with
  | zero => rfl
  | succ k ih => rw [List.replicate_succ, patch, List.set_replicate_self, ih]

@[simp] theorem length_resize (z : α) (xs : List α) (n : ℕ) : (resize z xs n).length = n := by
  simp only [resize, List.length_append, List.length_take, List.length_replicate]
  omega

theorem resize_length (z : α) (xs : List α) : resize z xs xs.length = xs := by
  simp [resize]

lemma resize_of_le {z : α} {xs : List α} {n : ℕ} (h : xs.length ≤ n) :
    resize z xs n = xs ++ List.replicate (n - xs.length) z := by
  rw [resize, List.take_of_length_le h]

lemma resize_append_replicate (z : α) (xs : List α) (k n : ℕ) : resize z (xs ++ List.replicate k z) n = resize z xs n := by
  rw [resize, resize, List.take_append, List.take_replicate, List.append_assoc, List.replicate_append_replicate,
    List.length_append, List.length_replicate]
  congr 2
  omega

theorem slice_resize {z : α} {xs : List α} {n lo hi : ℕ} (h : hi ≤ n) (hx : hi ≤ xs.length) :
    slice (resize z xs n) lo hi = slice xs lo hi := by
  rw [resize, slice_append_left (by simp; omega), slice_take h]

end MmkvGo.Lib
