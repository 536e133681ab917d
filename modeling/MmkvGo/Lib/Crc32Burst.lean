import Mathlib.Data.List.Basic
import Mathlib.Data.Nat.Bitwise
import MmkvGo.Lib.Crc32

/-!
What CRC-32 detects: two byte strings whose bits differ within 32 consecutive ones have different checksums.

The register takes the bits of the message one after the other, the lowest bit of each byte first (`feed`).  Up to 32
bits can as well be added to the register at once, before the shifts (`feed_eq`), so different bits give different
registers; and what follows them, being the same, keeps registers apart (`feed_injective`).
-/

namespace MmkvGo.Lib.Crc32

/-! ### One bit -/

lemma toNat_and_one (c : UInt32) : (c &&& 1).toNat = c.toNat % 2 := by
  rw [UInt32.toNat_and]
  exact Nat.and_one_is_mod _

lemma and_one_eq_one {c : UInt32} : c &&& 1 = 1 ↔ c.toNat % 2 = 1 := by
  rw [← toNat_and_one, ← UInt32.toNat_inj]
  rfl

lemma toNat_shiftRight_one (c : UInt32) : (c >>> 1).toNat = c.toNat / 2 := by
  rw [UInt32.toNat_shiftRight]
  exact Nat.shiftRight_eq_div_pow _ 1

/-- The polynomial has its highest bit, which no shifted register has. -/
lemma shiftRight_one_xor_ne_poly (c c' : UInt32) : (c >>> 1) ^^^ (c' >>> 1) ≠ poly := by
  intro h
  have hlt : ∀ x : UInt32, (x >>> 1).toNat < 2 ^ 31 := by
    intro x
    have := x.toNat_lt
    rw [toNat_shiftRight_one]
    omega
  have hxor := Nat.xor_lt_two_pow (hlt c) (hlt c')
  rw [← UInt32.toNat_xor, h] at hxor
  exact absurd hxor (by decide)

theorem bitStep_injective : Function.Injective bitStep := by
  intro x y h
  have hparts : x.toNat / 2 = y.toNat / 2 → x.toNat % 2 = y.toNat % 2 → x = y := by
    intro hdiv hmod
    rw [← UInt32.toNat_inj]
    omega
  simp only [bitStep, and_one_eq_one] at h
  split at h
  next hx =>
    split at h
    next hy =>
      have hdiv := congrArg UInt32.toNat ((UInt32.xor_left_inj _).1 h)
      rw [toNat_shiftRight_one, toNat_shiftRight_one] at hdiv
      exact hparts hdiv (hx.trans hy.symm)
    next hy =>
      refine absurd ?_ (shiftRight_one_xor_ne_poly x y)
      rw [← h, ← UInt32.xor_assoc, UInt32.xor_self, UInt32.zero_xor]
  next hx =>
    split at h
    next hy =>
      refine absurd ?_ (shiftRight_one_xor_ne_poly y x)
      rw [h, ← UInt32.xor_assoc, UInt32.xor_self, UInt32.zero_xor]
    next hy =>
      have hdiv := congrArg UInt32.toNat h
      rw [toNat_shiftRight_one, toNat_shiftRight_one] at hdiv
      exact hparts hdiv (by omega)

/-- What stands above the lowest bit only moves down. -/
lemma bitStep_xor_double (c : UInt32) {x : UInt32} (hx : x.toNat < 2 ^ 31) :
    bitStep (c ^^^ (x <<< 1)) = bitStep c ^^^ x := by
  have hdouble : (x <<< 1).toNat = 2 * x.toNat := by
    rw [UInt32.toNat_shiftLeft, show (1 : UInt32).toNat % 32 = 1 from rfl, Nat.shiftLeft_eq]
    omega
  have hlow : (c ^^^ (x <<< 1)).toNat % 2 = c.toNat % 2 := by
    have hxor := Nat.xor_mod_two_pow (a := c.toNat) (b := (x <<< 1).toNat) (n := 1)
    rw [hdouble, Nat.pow_one, Nat.mul_mod_right, Nat.xor_zero] at hxor
    rw [UInt32.toNat_xor, hdouble, hxor]
  have hhigh : (x <<< 1) >>> 1 = x := by
    rw [← UInt32.toNat_inj, toNat_shiftRight_one, hdouble]
    omega
  simp only [bitStep, and_one_eq_one, hlow, UInt32.shiftRight_xor, hhigh]
  split
  · rw [UInt32.xor_assoc, UInt32.xor_comm x poly, ← UInt32.xor_assoc]
  · rfl

/-! ### Many bits -/

/-- A bit of the message enters the register at its low end. -/
def bitIn (c : UInt32) (b : Bool) : UInt32 := bitStep (c ^^^ b.toUInt32)

/-- The register after the bits of a message. -/
def feed (c : UInt32) (bits : List Bool) : UInt32 := bits.foldl bitIn c

/-- The bits as a word, the first one the lowest. -/
def word : List Bool → UInt32
  | [] => 0
  | b :: bits => b.toUInt32 ^^^ (word bits <<< 1)

lemma toNat_word {bits : List Bool} (h : bits.length ≤ 32) :
    (word bits).toNat < 2 ^ bits.length ∧
      ∀ b rest, bits = b :: rest → (word bits).toNat = b.toNat + 2 * (word rest).toNat := by
  induction bits with
  | nil => exact ⟨by decide, nofun⟩
  | cons b rest ih =>
    rw [List.length_cons] at h
    have hlt := (ih (by omega)).1
    have hbound : (word rest).toNat < 2 ^ 31 := Nat.lt_of_lt_of_le hlt (Nat.pow_le_pow_right (by decide) (by omega))
    have hvalue : (word (b :: rest)).toNat = b.toNat + 2 * (word rest).toNat := by
      have hdouble : (word rest <<< 1).toNat = 2 * (word rest).toNat := by
        rw [UInt32.toNat_shiftLeft, show (1 : UInt32).toNat % 32 = 1 from rfl, Nat.shiftLeft_eq]
        omega
      rw [word, UInt32.toNat_xor, hdouble]
      cases b with
      | false => exact (Nat.zero_xor _).trans (Nat.zero_add _).symm
      | true => exact (Nat.xor_comm _ _).trans ((Nat.xor_one_of_even (even_two_mul _)).trans (Nat.add_comm _ _))
    refine ⟨?_, ?_⟩
    · have := Bool.toNat_le b
      rw [hvalue, List.length_cons, Nat.pow_succ]
      omega
    · rintro b' rest' ⟨⟩
      exact hvalue

lemma word_injective {u v : List Bool} (hlen : u.length = v.length) (h : u.length ≤ 32) (hw : word u = word v) :
    u = v := by
  induction u generalizing v with
  | nil => exact (List.length_eq_zero_iff.1 hlen.symm).symm
  | cons b u ih =>
    cases v with
    | nil => cases hlen
    | cons b' v =>
      have hu := (toNat_word h).2 b u rfl
      have hv : (word (b' :: v)).toNat = b'.toNat + 2 * (word v).toNat := (toNat_word (hlen ▸ h)).2 b' v rfl
      have hvalue : b.toNat + 2 * (word u).toNat = b'.toNat + 2 * (word v).toNat := by
        rw [← hu, ← hv, hw]
      have hword : (word u).toNat = (word v).toNat := by
        have := Bool.toNat_le b
        have := Bool.toNat_le b'
        omega
      have hbit : b = b' := by
        cases b <;> cases b' <;> simp at hvalue ⊢ <;> omega
      rw [hbit, ih (Nat.succ.inj hlen) (Nat.le_of_succ_le h) (UInt32.toNat_inj.1 hword)]

/-- **Up to 32 bits enter the register at once**, before the shifts. -/
theorem feed_eq {bits : List Bool} (h : bits.length ≤ 32) (c : UInt32) :
    feed c bits = bitStep^[bits.length] (c ^^^ word bits) := by
  induction bits generalizing c with
  | nil => exact UInt32.xor_zero.symm
  | cons b bits ih =>
    rw [List.length_cons] at h
    have hlt : (word bits).toNat < 2 ^ 31 :=
      Nat.lt_of_lt_of_le (toNat_word (by omega)).1 (Nat.pow_le_pow_right (by decide) (by omega))
    rw [List.length_cons, Function.iterate_succ_apply, word, ← UInt32.xor_assoc, bitStep_xor_double _ hlt]
    exact ih (by omega) _

lemma feed_append (c : UInt32) (u v : List Bool) : feed c (u ++ v) = feed (feed c u) v := List.foldl_append

theorem feed_injective (bits : List Bool) : Function.Injective fun c => feed c bits := by
  induction bits with
  | nil => exact fun _ _ h => h
  | cons b bits ih => exact fun x y h => (UInt32.xor_left_inj _).1 (bitStep_injective (ih h))

/-- Different bits, up to 32 of them, lead to different registers. -/
theorem feed_ne {u v : List Bool} (hlen : u.length = v.length) (h : u.length ≤ 32) (hne : u ≠ v) (c : UInt32) :
    feed c u ≠ feed c v := by
  rw [feed_eq h, feed_eq (hlen ▸ h), ← hlen]
  intro he
  exact hne (word_injective hlen h ((UInt32.xor_right_inj c).1 (bitStep_injective.iterate _ he)))

/-! ### Bytes -/

/-- The bits of a byte, the lowest first. -/
def byteBits (b : UInt8) : List Bool := (List.range 8).map b.toNat.testBit

/-- The bits of a message. -/
def bitsOf (bs : List UInt8) : List Bool := bs.flatMap byteBits

@[simp] lemma length_byteBits (b : UInt8) : (byteBits b).length = 8 := rfl

lemma word_byteBits (b : UInt8) : word (byteBits b) = b.toUInt32 := by
  have h : ∀ i : Fin 256, word (byteBits (UInt8.ofFin i)) = (UInt8.ofFin i).toUInt32 := by decide +kernel
  exact h b.toFin

lemma byteStep_eq_feed (c : UInt32) (b : UInt8) : byteStep c b = feed c (byteBits b) := by
  rw [feed_eq (by rw [length_byteBits]; decide), word_byteBits]
  rfl

lemma foldl_byteStep (c : UInt32) (bs : List UInt8) : bs.foldl byteStep c = feed c (bitsOf bs) := by
  induction bs generalizing c with
  | nil => rfl
  | cons b bs ih => rw [List.foldl_cons, ih, bitsOf, bitsOf, List.flatMap_cons, feed_append, byteStep_eq_feed]

lemma checksum_eq_iff (a b : List UInt8) :
    checksum a = checksum b ↔ feed (~~~0) (bitsOf a) = feed (~~~0) (bitsOf b) := by
  rw [checksum, checksum, update, update, foldl_byteStep, foldl_byteStep, UInt32.not_inj]

/-- The bits of the two messages differ, and only among 32 consecutive ones. -/
def Burst (a b : List UInt8) : Prop :=
  ∃ p u v s, bitsOf a = p ++ u ++ s ∧ bitsOf b = p ++ v ++ s ∧ u.length = v.length ∧ u.length ≤ 32 ∧ u ≠ v

/-- **A burst of up to 32 bits is detected.** -/
theorem Burst.checksum_ne {a b : List UInt8} (h : Burst a b) : checksum a ≠ checksum b := by
  obtain ⟨p, u, v, s, ha, hb, hlen, hle, hne⟩ := h
  rw [Ne, checksum_eq_iff, ha, hb, feed_append, feed_append, feed_append, feed_append]
  exact fun he => feed_ne hlen hle hne _ (feed_injective s he)

lemma Burst.ne_nil {a b : List UInt8} (h : Burst a b) : a ≠ [] := by
  rintro rfl
  obtain ⟨p, u, v, s, ha, -, hlen, -, hne⟩ := h
  obtain ⟨-, rfl, -⟩ : p = [] ∧ u = [] ∧ s = [] := by simpa [bitsOf] using ha.symm
  exact hne (List.length_eq_zero_iff.1 hlen.symm).symm

lemma burst_set {a : List UInt8} {i : ℕ} (hi : i < a.length) {b : UInt8} (hne : a[i] ≠ b) : Burst a (a.set i b) := by
  have hsplit (x : UInt8) : bitsOf (a.take i ++ x :: a.drop (i + 1)) =
      bitsOf (a.take i) ++ byteBits x ++ bitsOf (a.drop (i + 1)) := by
    rw [bitsOf, List.flatMap_append, List.flatMap_cons, List.append_assoc]
    rfl
  refine ⟨bitsOf (a.take i), byteBits a[i], byteBits b, bitsOf (a.drop (i + 1)), ?_, ?_, ?_, ?_, ?_⟩
  · rw [← hsplit, ← List.drop_eq_getElem_cons hi, List.take_append_drop]
  · rw [List.set_eq_take_append_cons_drop, if_pos hi, hsplit]
  · rw [length_byteBits, length_byteBits]
  · rw [length_byteBits]
    decide
  · intro he
    have hword := congrArg word he
    rw [word_byteBits, word_byteBits] at hword
    exact hne (UInt8.toUInt32_inj.1 hword)

lemma length_bitsOf (bs : List UInt8) : (bitsOf bs).length = 8 * bs.length := by
  induction bs with
  | nil => rfl
  | cons b bs ih =>
    rw [bitsOf, List.flatMap_cons, List.length_append, length_byteBits, ← bitsOf, ih, List.length_cons]
    omega

lemma bitsOf_take (n : ℕ) (bs : List UInt8) : bitsOf (bs.take n) = (bitsOf bs).take (8 * n) := by
  induction bs generalizing n with
  | nil => simp [bitsOf]
  | cons b bs ih =>
    cases n with
    | zero => simp [bitsOf]
    | succ n =>
      have hbyte : (byteBits b).length ≤ 8 * (n + 1) := by rw [length_byteBits]; omega
      rw [List.take_succ_cons, bitsOf, List.flatMap_cons, bitsOf, List.flatMap_cons, List.take_append,
        List.take_of_length_le hbyte, length_byteBits, ← bitsOf, ih, Nat.mul_succ, Nat.add_sub_cancel]
      rfl

lemma bitsOf_injective {a b : List UInt8} (h : bitsOf a = bitsOf b) : a = b := by
  induction a generalizing b with
  | nil =>
    have := congrArg List.length h
    rw [length_bitsOf, length_bitsOf] at this
    exact (List.length_eq_zero_iff.1 (by simpa using this.symm)).symm
  | cons x a ih =>
    cases b with
    | nil => cases h
    | cons y b =>
      rw [bitsOf, bitsOf, List.flatMap_cons, List.flatMap_cons] at h
      obtain ⟨hbyte, hrest⟩ := List.append_inj h rfl
      have hword := congrArg word hbyte
      rw [word_byteBits, word_byteBits] at hword
      rw [ih hrest, UInt8.toUInt32_inj.1 hword]

theorem Burst.take {a b : List UInt8} (h : Burst a b) (n : ℕ) : a.take n = b.take n ∨ Burst (a.take n) (b.take n) := by
  obtain ⟨p, u, v, s, ha, hb, hlen, hle, hne⟩ := h
  by_cases hsame : bitsOf (a.take n) = bitsOf (b.take n)
  · exact .inl (bitsOf_injective hsame)
  · refine .inr ⟨p.take (8 * n), u.take (8 * n - p.length), v.take (8 * n - p.length),
      s.take (8 * n - (p ++ u).length), ?_, ?_, ?_, ?_, ?_⟩
    · rw [bitsOf_take, ha, List.take_append, List.take_append]
    · rw [bitsOf_take, hb, List.take_append, List.take_append, List.length_append, List.length_append, hlen]
    · rw [List.length_take, List.length_take, hlen]
    · exact Nat.le_trans (List.length_take_le' _ _) hle
    · intro hu
      refine hsame ?_
      rw [bitsOf_take, bitsOf_take, ha, hb, List.take_append, List.take_append, List.take_append, List.take_append, hu,
        List.length_append, List.length_append, hlen]

end MmkvGo.Lib.Crc32
