import Mathlib.Algebra.Order.Group.Nat
import Mathlib.Data.Nat.Bitwise
import Mathlib.Tactic.Ring
import Mathlib.Tactic.Linarith

/-!
LEB128 varints: seven bits a byte, lowest first, the high bit set on every byte but the last.

* `encode w n` — the digits of `n`, at most `w` of them;
* `decode` — the reader: at most `w` bytes, collected into a 64-bit word by shifts and ors, so that the
  bits of an over-long varint that do not fit the word are lost;
* `decode_encode` — a number below `2 ^ 64` is read back, and the bytes after it are left alone;
* `decode_append` — what a successful read returns does not depend on the bytes after the varint;
* `length_encode_add_le` — a varint that was read is no shorter than the digits of its value.
-/

namespace MmkvGo.Lib.Leb128

/-- The base-128 digits of `n`, lowest first, at most `w` of them. -/
def encode : ℕ → ℕ → List UInt8
  | 0, _ => []
  | w + 1, n => if n < 128 then [UInt8.ofNat n] else (UInt8.ofNat n ||| 0x80) :: encode w (n >>> 7)

section Decode

variable {ε : Type*} (eof overlong : ε)

/-- Read a varint of at most `w` bytes into the word `x`, the next digit at bit `s`. -/
def decode : ℕ → UInt64 → ℕ → List UInt8 → Except ε (UInt64 × List UInt8)
  | 0, _, _, _ => .error overlong
  | _ + 1, _, _, [] => .error eof
  | w + 1, x, s, b :: rest =>
    if b < 0x80 then .ok (x ||| (b.toUInt64 <<< UInt64.ofNat s), rest)
    else decode w (x ||| ((b &&& 0x7f).toUInt64 <<< UInt64.ofNat s)) (s + 7) rest

end Decode

/-! ### The digits -/

lemma toNat_lowByte {n : ℕ} (h : n < 128) : (UInt8.ofNat n).toNat = n := by
  rw [UInt8.toNat_ofNat']
  omega

lemma toNat_contByte (n : ℕ) : (UInt8.ofNat n ||| 0x80).toNat = n % 128 + 128 := by
  have key : ∀ b : UInt8, (b ||| 0x80).toNat = b.toNat % 128 + 128 := by
    intro b
    have : ∀ i : Fin 256, (i : ℕ) ||| 128 = i % 128 + 128 := by decide +kernel
    rw [UInt8.toNat_or]
    exact this ⟨b.toNat, b.toNat_lt⟩
  rw [key, UInt8.toNat_ofNat']
  omega

lemma toNat_contByte_and (n : ℕ) : ((UInt8.ofNat n ||| 0x80) &&& 0x7f).toNat = n % 128 := by
  have hm : (0x7f : UInt8).toNat = 2 ^ 7 - 1 := rfl
  rw [UInt8.toNat_and, toNat_contByte, hm, Nat.and_two_pow_sub_one_eq_mod]
  omega

lemma shiftRight_seven (n : ℕ) : n >>> 7 = n / 128 := Nat.shiftRight_eq_div_pow n 7

lemma encode_lt {w n : ℕ} (h : n < 128) : encode (w + 1) n = [UInt8.ofNat n] := by
  rw [encode, if_pos h]

lemma encode_ge {w n : ℕ} (h : 128 ≤ n) :
    encode (w + 1) n = (UInt8.ofNat n ||| 0x80) :: encode w (n / 128) := by
  rw [encode, if_neg (by omega), shiftRight_seven]

theorem length_encode_pos (w n : ℕ) : 0 < (encode (w + 1) n).length := by
  rw [encode]
  split <;> simp

theorem length_encode_le (w n : ℕ) : (encode w n).length ≤ w := by
  induction w generalizing n with
  | zero => simp [encode]
  | succ w ih =>
    rw [encode]
    split
    · simp
    · simpa using ih _

/-! ### Reading the digits back -/

section RoundTrip

variable {ε : Type*} {eof overlong : ε}

lemma toNat_or_digit {x : UInt64} {b : UInt8} {s d : ℕ} (hb : b.toNat = d) (hx : x.toNat < 2 ^ s)
    (hs : s < 64) (hfit : d * 2 ^ s < 2 ^ 64) :
    (x ||| (b.toUInt64 <<< UInt64.ofNat s)).toNat = x.toNat + d * 2 ^ s := by
  have hs' : (UInt64.ofNat s).toNat % 64 = s := by
    rw [UInt64.toNat_ofNat']
    omega
  rw [UInt64.toNat_or, UInt64.toNat_shiftLeft, hs', UInt8.toNat_toUInt64, hb, Nat.shiftLeft_eq,
    Nat.mod_eq_of_lt hfit, Nat.or_comm, mul_comm d, ← Nat.two_pow_add_eq_or_of_lt hx]
  ring

theorem decode_encode_aux (w : ℕ) : ∀ (k : ℕ) (x : UInt64) (s n : ℕ) (rest : List UInt8),
    0 < w → w ≤ k → n < 128 ^ w → s < 64 → x.toNat < 2 ^ s → x.toNat + n * 2 ^ s < 2 ^ 64 →
    decode eof overlong k x s (encode w n ++ rest) = .ok (UInt64.ofNat (x.toNat + n * 2 ^ s), rest) := by
  induction w with
  | zero => intro k x s n rest h0; omega
  | succ w ih =>
    intro k x s n rest _ hk hn hs hx hfit
    obtain ⟨k, rfl⟩ : ∃ k', k = k' + 1 := ⟨k - 1, by omega⟩
    by_cases h : n < 128
    · -- the last byte
      have hb := toNat_lowByte h
      have hor := toNat_or_digit hb hx hs (by omega)
      rw [encode_lt h, List.singleton_append, decode, if_pos (by
        rw [UInt8.lt_iff_toNat_lt, hb]
        exact h), ← hor, UInt64.ofNat_toNat]
    · -- a byte with the continuation bit; the rest of the number follows seven bits higher
      have hb := toNat_contByte n
      have hd := toNat_contByte_and n
      have hsplit : n % 128 * 2 ^ s + n / 128 * 2 ^ (s + 7) = n * 2 ^ s := by
        conv_rhs => rw [← Nat.mod_add_div n 128]
        rw [pow_add]
        ring
      have hor := toNat_or_digit hd hx hs (by omega)
      have hn' : n / 128 < 128 ^ w := by
        rw [Nat.div_lt_iff_lt_mul (by norm_num)]
        simpa [pow_succ] using hn
      have hw : 0 < w := by
        rcases Nat.eq_zero_or_pos w with rfl | hw
        · exact absurd hn (by simpa using h)
        · exact hw
      have hs7 : s + 7 < 64 := by
        by_contra hge
        have h1 : 2 ^ 64 ≤ 2 ^ (s + 7) := Nat.pow_le_pow_right (by norm_num) (by omega)
        have h2 : 1 * 2 ^ (s + 7) ≤ n / 128 * 2 ^ (s + 7) := Nat.mul_le_mul_right _ (by omega)
        omega
      have hx' : x.toNat + n % 128 * 2 ^ s < 2 ^ (s + 7) := by
        have h1 : n % 128 * 2 ^ s ≤ 127 * 2 ^ s := Nat.mul_le_mul_right _ (by omega)
        have h2 : 2 ^ (s + 7) = 128 * 2 ^ s := by rw [pow_add]; ring
        omega
      rw [encode_ge (by omega), List.cons_append, decode, if_neg (by
        rw [UInt8.lt_iff_toNat_lt, hb]
        show ¬ n % 128 + 128 < 128
        omega), ih k _ (s + 7) (n / 128) rest hw (by omega) hn' hs7 (by rw [hor]; exact hx')
          (by rw [hor]; omega), hor]
      congr 3
      omega

/-- **A number below `2 ^ 64` is read back.** -/
theorem decode_encode {w k n : ℕ} (rest : List UInt8) (h0 : 0 < w) (hk : w ≤ k) (hw : n < 128 ^ w)
    (hn : n < 2 ^ 64) : decode eof overlong k 0 0 (encode w n ++ rest) = .ok (UInt64.ofNat n, rest) := by
  have h := @decode_encode_aux _ eof overlong w k 0 0 n rest h0 hk hw (by norm_num) (by simp)
    (by simpa using hn)
  simpa using h

end RoundTrip

/-! ### What a read depends on -/

section Append

variable {ε : Type*} {eof overlong : ε}

/-- **A successful read does not look past the varint.** -/
theorem decode_append {k : ℕ} {x : UInt64} {s : ℕ} {bs rest : List UInt8} {v : UInt64}
    (h : decode eof overlong k x s bs = .ok (v, rest)) (t : List UInt8) :
    decode eof overlong k x s (bs ++ t) = .ok (v, rest ++ t) := by
  induction k generalizing x s bs with
  | zero => simp [decode] at h
  | succ k ih =>
    cases bs with
    | nil => simp [decode] at h
    | cons b bs =>
      rw [List.cons_append, decode]
      rw [decode] at h
      split at h
      · next hb =>
        rw [if_pos hb]
        simp only [Except.ok.injEq, Prod.mk.injEq] at h
        rw [h.1, h.2]
      · next hb =>
        rw [if_neg hb]
        exact ih h

lemma decode_error {k : ℕ} {x : UInt64} {s : ℕ} {bs : List UInt8} {e : ε}
    (h : decode eof overlong k x s bs = .error e) : e = eof ∨ e = overlong := by
  induction k generalizing x s bs with
  | zero =>
    cases h
    exact .inr rfl
  | succ k ih =>
    cases bs with
    | nil =>
      cases h
      exact .inl rfl
    | cons b bs =>
      rw [decode] at h
      split at h
      · cases h
      · exact ih h

theorem decode_split {k : ℕ} {x : UInt64} {s : ℕ} {bs rest : List UInt8} {v : UInt64}
    (h : decode eof overlong k x s bs = .ok (v, rest)) :
    ∃ pre, bs = pre ++ rest ∧ decode eof overlong k x s pre = .ok (v, []) := by
  induction k generalizing x s bs with
  | zero => simp [decode] at h
  | succ k ih =>
    cases bs with
    | nil => simp [decode] at h
    | cons b bs =>
      rw [decode] at h
      split at h
      · next hb =>
        simp only [Except.ok.injEq, Prod.mk.injEq] at h
        obtain ⟨rfl, rfl⟩ := h
        exact ⟨[b], rfl, by rw [decode, if_pos hb]⟩
      · next hb =>
        obtain ⟨pre, rfl, hpre⟩ := ih h
        exact ⟨b :: pre, rfl, by rw [decode, if_neg hb, hpre]⟩

theorem decode_length_lt {k : ℕ} {x : UInt64} {s : ℕ} {bs rest : List UInt8} {v : UInt64}
    (h : decode eof overlong k x s bs = .ok (v, rest)) : rest.length < bs.length := by
  induction k generalizing x s bs with
  | zero => simp [decode] at h
  | succ k ih =>
    cases bs with
    | nil => simp [decode] at h
    | cons b bs =>
      rw [decode] at h
      split at h
      · simp only [Except.ok.injEq, Prod.mk.injEq] at h
        simp [h.2]
      · have := ih h
        simp only [List.length_cons]
        omega

end Append

/-! ### The digits are the shortest varint -/

section Shortest

variable {ε : Type*} {eof overlong : ε}

theorem length_encode_le_of_lt {w n j : ℕ} (hj : 0 < j) (hn : n < 128 ^ j) : (encode w n).length ≤ j := by
  induction j generalizing w n with
  | zero => omega
  | succ j ih =>
    cases w with
    | zero => simp [encode]
    | succ w =>
      by_cases h : n < 128
      · simp [encode_lt h]
      · have hdiv : n / 128 < 128 ^ j := by
          rw [Nat.div_lt_iff_lt_mul (by norm_num)]
          simpa [pow_succ] using hn
        have hpos : 0 < j := by
          rcases Nat.eq_zero_or_pos j with rfl | hpos
          · exact absurd hn (by simpa using h)
          · exact hpos
        have := ih (w := w) hpos hdiv
        rw [encode_ge (by omega), List.length_cons]
        omega

lemma toNat_or_digit_lt {x : UInt64} {b : UInt8} {s : ℕ} (hb : b.toNat < 128) (hx : x.toNat < 2 ^ s) :
    (x ||| (b.toUInt64 <<< UInt64.ofNat s)).toNat < 2 ^ (s + 7) := by
  have hle : 2 ^ s ≤ 2 ^ (s + 7) := Nat.pow_le_pow_right (by norm_num) (by omega)
  by_cases hs : s < 64
  · have hs' : (UInt64.ofNat s).toNat % 64 = s := by
      rw [UInt64.toNat_ofNat']
      omega
    have hdigit : b.toNat <<< s < 2 ^ (s + 7) := by
      rw [Nat.shiftLeft_eq, pow_add, mul_comm (2 ^ s)]
      exact Nat.mul_lt_mul_of_pos_right hb (Nat.two_pow_pos s)
    rw [UInt64.toNat_or, UInt64.toNat_shiftLeft, hs', UInt8.toNat_toUInt64]
    exact Nat.or_lt_two_pow (by omega) (Nat.lt_of_le_of_lt (Nat.mod_le _ _) hdigit)
  · have hword := (x ||| (b.toUInt64 <<< UInt64.ofNat s)).toNat_lt
    have : 2 ^ 64 ≤ 2 ^ (s + 7) := Nat.pow_le_pow_right (by norm_num) (by omega)
    omega

theorem decode_lt {k : ℕ} {x : UInt64} {s : ℕ} {bs rest : List UInt8} {v : UInt64} (hx : x.toNat < 2 ^ s)
    (h : decode eof overlong k x s bs = .ok (v, rest)) : v.toNat < 2 ^ (s + 7 * (bs.length - rest.length)) := by
  induction k generalizing x s bs with
  | zero => simp [decode] at h
  | succ k ih =>
    cases bs with
    | nil => simp [decode] at h
    | cons b bs =>
      rw [decode] at h
      split at h
      · next hb =>
        simp only [Except.ok.injEq, Prod.mk.injEq] at h
        obtain ⟨rfl, rfl⟩ := h
        rw [UInt8.lt_iff_toNat_lt] at hb
        simpa using toNat_or_digit_lt hb hx
      · have hdigit : (b &&& 0x7f).toNat < 128 := by
          rw [UInt8.toNat_and]
          exact Nat.and_lt_two_pow _ (show 127 < 2 ^ 7 by norm_num)
        have hlt := decode_length_lt h
        have hexp : s + 7 * ((b :: bs).length - rest.length) = s + 7 + 7 * (bs.length - rest.length) := by
          rw [List.length_cons]
          omega
        rw [hexp]
        exact ih (toNat_or_digit_lt hdigit hx) h

/-- **No varint is shorter than the digits of its value.** -/
theorem length_encode_add_le {w k : ℕ} {bs rest : List UInt8} {v : UInt64} {n : ℕ}
    (h : decode eof overlong k 0 0 bs = .ok (v, rest)) (hn : n ≤ v.toNat) :
    (encode w n).length + rest.length ≤ bs.length := by
  have hlt := decode_length_lt h
  have hv := decode_lt (by simp) h
  rw [Nat.zero_add, pow_mul] at hv
  have := length_encode_le_of_lt (w := w) (show 0 < bs.length - rest.length by omega)
    (Nat.lt_of_le_of_lt hn hv)
  omega

end Shortest

end MmkvGo.Lib.Leb128
