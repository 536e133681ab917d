import MmkvGo.Lib.Leb128
import Mathlib.Algebra.Order.BigOperators.Group.List
import Mathlib.Data.Nat.Digits.Defs

/-!
LEB128 varints as base-128 numbers.  `decode_eq_ofDigits` says that a varint which fits the word is read as the number its
digits make.  Bytes have a weight, mostly their number and then the sum of their digits, and `weight_encode_add_le` says
that of all varints of a number its digits weigh least, and that the low 32 bits of a longer number weigh less than any
varint of it.
-/

namespace MmkvGo.Lib.Leb128

section Weight

variable {ε : Type*} {eof overlong : ε}

/-- The digits of a varint: the low seven bits of its bytes. -/
def digits (bs : List UInt8) : List ℕ := bs.map fun b => b.toNat % 128

/-- What bytes weigh: 1024 each, and their digits. -/
def weight (bs : List UInt8) : ℕ := 1024 * bs.length + (digits bs).sum

@[simp] lemma weight_append (bs cs : List UInt8) : weight (bs ++ cs) = weight bs + weight cs := by
  simp only [weight, digits, List.length_append, List.map_append, List.sum_append]
  ring

@[simp] lemma length_digits (bs : List UInt8) : (digits bs).length = bs.length := List.length_map _

lemma digits_cons (b : UInt8) (bs : List UInt8) : digits (b :: bs) = b.toNat % 128 :: digits bs := rfl

lemma digits_lt {bs : List UInt8} : ∀ n ∈ digits bs, n < 128 := by
  intro n hn
  obtain ⟨b, -, rfl⟩ := List.mem_map.1 hn
  exact Nat.mod_lt _ (by norm_num)

lemma toNat_and_low (b : UInt8) : (b &&& 0x7f).toNat = b.toNat % 128 := by
  have hm : (0x7f : UInt8).toNat = 2 ^ 7 - 1 := rfl
  rw [UInt8.toNat_and, hm, Nat.and_two_pow_sub_one_eq_mod]

/-- **The value of a varint that fits the word** is the number that its digits make. -/
theorem decode_eq_ofDigits {k : ℕ} {x : UInt64} {s : ℕ} {bs : List UInt8} {v : UInt64} (hx : x.toNat < 2 ^ s)
    (hs : s + 7 * bs.length < 64) (h : decode eof overlong k x s bs = .ok (v, [])) :
    v.toNat = x.toNat + 2 ^ s * Nat.ofDigits 128 (digits bs) := by
  induction k generalizing x s bs with
  | zero => simp [decode] at h
  | succ k ih =>
    cases bs with
    | nil => simp [decode] at h
    | cons b bs =>
      rw [List.length_cons] at hs
      have hfit : ∀ d < 128, d * 2 ^ s < 2 ^ 64 := by
        intro d hd
        calc d * 2 ^ s < 2 ^ 7 * 2 ^ s := Nat.mul_lt_mul_of_pos_right hd (Nat.two_pow_pos s)
          _ = 2 ^ (7 + s) := (pow_add ..).symm
          _ ≤ 2 ^ 64 := Nat.pow_le_pow_right (by norm_num) (by omega)
      rw [decode] at h
      split at h
      · -- the last byte is its own digit
        next hb =>
        simp only [Except.ok.injEq, Prod.mk.injEq] at h
        obtain ⟨rfl, rfl⟩ := h
        rw [UInt8.lt_iff_toNat_lt] at hb
        have hlow : b.toNat % 128 = b.toNat := Nat.mod_eq_of_lt hb
        rw [toNat_or_digit rfl hx (by omega) (hfit _ hb), digits, List.map_singleton, Nat.ofDigits_singleton, hlow,
          mul_comm]
      · have hd : b.toNat % 128 < 128 := Nat.mod_lt _ (by norm_num)
        have hor := toNat_or_digit (toNat_and_low b) hx (by omega) (hfit _ hd)
        have hx' : (x ||| ((b &&& 0x7f).toUInt64 <<< UInt64.ofNat s)).toNat < 2 ^ (s + 7) :=
          toNat_or_digit_lt (by rw [toNat_and_low]; exact hd) hx
        rw [ih hx' (by omega) h, hor, digits_cons, Nat.ofDigits_cons, pow_add]
        push_cast
        ring

lemma ofDigits_encode {n : ℕ} (hn : n < 2 ^ 32) : Nat.ofDigits 128 (digits (encode 5 n)) = n := by
  have hread : decode () () 5 0 0 (encode 5 n ++ []) = .ok (UInt64.ofNat n, []) :=
    decode_encode [] (by norm_num) le_rfl (by norm_num; omega) (by omega)
  have hlen := length_encode_le 5 n
  rw [List.append_nil] at hread
  have hvalue := decode_eq_ofDigits (by simp) (by omega) hread
  rw [UInt64.toNat_ofNat_of_lt' (Nat.lt_trans hn (by decide))] at hvalue
  simpa using hvalue.symm

/-- Five digits of a number from `2 ^ 32` on sum up to more than those of its low 32 bits. -/
lemma sum_digits_lt {l l' : List ℕ} (hl : l.length = 5) (hl' : l'.length = 5) (hd : ∀ n ∈ l, n < 128)
    (hd' : ∀ n ∈ l', n < 128) (hge : 2 ^ 32 ≤ Nat.ofDigits 128 l)
    (hmod : Nat.ofDigits 128 l' = Nat.ofDigits 128 l % 2 ^ 32) : l'.sum < l.sum := by
  have hfive : ∀ {l : List ℕ}, l.length = 5 → ∃ a b c d e, l = [a, b, c, d, e] := by
    intro l h
    rcases l with _ | ⟨a, _ | ⟨b, _ | ⟨c, _ | ⟨d, _ | ⟨e, _ | ⟨f, l⟩⟩⟩⟩⟩⟩
    case cons.cons.cons.cons.cons.nil => exact ⟨a, b, c, d, e, rfl⟩
    all_goals simp at h
  obtain ⟨a, b, c, d, e, rfl⟩ := hfive hl
  obtain ⟨a', b', c', d', e', rfl⟩ := hfive hl'
  simp only [List.mem_cons, List.not_mem_nil, or_false, forall_eq_or_imp, forall_eq] at hd hd'
  simp only [Nat.ofDigits_cons, Nat.ofDigits_nil] at hge hmod
  simp only [List.sum_cons, List.sum_nil]
  omega

/-- **The least varint of the low 32 bits weighs least**, and less than any varint of a number that has more bits. -/
theorem weight_encode_add_le {k : ℕ} {bs rest : List UInt8} {v : UInt64}
    (h : decode eof overlong k 0 0 bs = .ok (v, rest)) :
    weight (encode 5 (v.toNat % 2 ^ 32)) + weight rest + (if v.toNat < 2 ^ 32 then 0 else 1) ≤ weight bs := by
  obtain ⟨pre, rfl, hpre⟩ := decode_split h
  have hle := length_encode_add_le (w := 5) hpre (Nat.mod_le v.toNat (2 ^ 32))
  have hfive := length_encode_le 5 (v.toNat % 2 ^ 32)
  rw [List.length_nil, Nat.add_zero] at hle
  have hlow := ofDigits_encode (n := v.toNat % 2 ^ 32) (Nat.mod_lt _ (by norm_num))
  rw [weight_append]
  generalize encode 5 (v.toNat % 2 ^ 32) = enc at hle hfive hlow ⊢
  suffices weight enc + (if v.toNat < 2 ^ 32 then 0 else 1) ≤ weight pre by omega
  rcases Nat.lt_or_eq_of_le hle with hlt | heq
  · -- one byte more weighs more than five digits
    have hsum : (digits enc).sum ≤ enc.length * 127 := by
      have := List.sum_le_card_nsmul (digits enc) 127 fun n hn => Nat.le_of_lt_succ (digits_lt n hn)
      simpa using this
    simp only [weight]
    split <;> omega
  · have hvalue : v.toNat = Nat.ofDigits 128 (digits pre) := by
      simpa using decode_eq_ofDigits (by simp) (by omega) hpre
    simp only [weight]
    split
    · next hsmall =>
      rw [Nat.mod_eq_of_lt hsmall, hvalue] at hlow
      rw [Nat.ofDigits_inj_of_len_eq (by norm_num) (by simp [heq]) digits_lt digits_lt hlow]
      omega
    · next hbig =>
      have hfits := decode_lt (by simp) hpre
      have h5 : pre.length = 5 := by
        by_contra hne
        have : 2 ^ (0 + 7 * (pre.length - ([] : List UInt8).length)) ≤ 2 ^ 28 :=
          Nat.pow_le_pow_right (by norm_num) (by rw [List.length_nil]; omega)
        omega
      have : (digits enc).sum < (digits pre).sum := sum_digits_lt (by simp [h5]) (by simp [heq, h5]) digits_lt digits_lt
        (by omega) (by rw [hlow, hvalue])
      omega

end Weight

end MmkvGo.Lib.Leb128
