import MmkvGo.Crypt.Cfb

/-!
The byte loops of `crypt.go` against CFB-128 as the mode is defined: block by block, each ciphertext block the plaintext
block xor the encryption of the ciphertext block before it, the IV before the first, the last block cut.

A loop that stands at a block boundary runs through one block without touching the keystream
(`encryptLoop_inside`), and leaves the block's ciphertext in the register when it was a whole one
(`encryptLoop_block`); the equality with the definition is an induction over the blocks.
-/

namespace MmkvGo.Crypt

open MmkvGo.Lib MmkvGo.Wire

/-- **CFB-128**, from the ciphertext block before `pt` on; `zipWith` cuts the last keystream block. -/
def cfb128 (E : Cipher) (prev : Block) (pt : Bytes) : Bytes :=
  if pt = [] then []
  else
    let ct := List.zipWith (· ^^^ ·) (pt.take 16) (E prev).toList
    ct ++ cfb128 E (getBlock ct 0) (pt.drop 16)
termination_by pt.length
decreasing_by
  have := List.length_pos_iff.2 ‹¬pt = []›
  simp only [List.length_drop]
  omega

section Loops

variable (E : Cipher) (s : Cfb)

theorem decryptLoop_take (ct : Bytes) (n : ℕ) : decryptLoop E s (ct.take n) = (decryptLoop E s ct).take n := by
  induction ct generalizing s n with
  | nil => simp [decryptLoop]
  | cons c ct ih =>
    cases n with
    | zero => rfl
    | succ n => simp only [List.take_succ_cons, decryptLoop, ih]

/-- **Inside a block**: as long as the position does not wrap, the bytes meet one keystream block and their ciphertext
goes into the register where they stand. -/
theorem encryptLoop_inside (p q : Bytes) (h : s.n.val + p.length ≤ 16) :
    ∃ s' : Cfb,
      s'.n.val = (s.n.val + p.length) % 16 ∧
      s'.reg.toList =
        patch s.reg.toList s.n (List.zipWith (· ^^^ ·) p ((s.refresh E).ks.toList.drop s.n)) ∧
      encryptLoop E s (p ++ q) =
        List.zipWith (· ^^^ ·) p ((s.refresh E).ks.toList.drop s.n) ++ encryptLoop E s' q := by
  induction p generalizing s with
  | nil => exact ⟨s, by simp [Nat.mod_eq_of_lt s.n.isLt], by simp, by simp⟩
  | cons a p ih =>
    have hn : (s.refresh E).n = s.n := by
      rw [Cfb.refresh]
      split <;> rfl
    have hreg : (s.refresh E).reg = s.reg := by
      rw [Cfb.refresh]
      split <;> rfl
    have hkey : (s.refresh E).ks.toList.drop s.n =
        (s.refresh E).key :: (s.refresh E).ks.toList.drop (s.n + 1) := by
      rw [List.drop_eq_getElem_cons (by simp), Cfb.key]
      simp only [Vector.getElem_toList, hn]
      rfl
    set t := (s.refresh E).feed (a ^^^ (s.refresh E).key) with ht
    simp only [List.length_cons] at h
    have htn : t.n.val = (s.n.val + 1) % 16 := by
      rw [ht, show ((s.refresh E).feed _).n = (s.refresh E).n + 1 from rfl, hn, Fin.val_add]
      rfl
    have htreg : t.reg.toList = s.reg.toList.set s.n (a ^^^ (s.refresh E).key) := by
      rw [ht, Cfb.feed]
      simp only [Vector.toList_set, hreg, hn]
    rw [hkey]
    cases p with
    | nil => exact ⟨t, htn, by simpa [patch] using htreg, by simp [encryptLoop, ht]⟩
    | cons b p =>
      -- more of the block follows, so the position has not wrapped and the keystream stays
      simp only [List.length_cons] at h
      have hlt : t.n.val = s.n.val + 1 := by rw [htn, Nat.mod_eq_of_lt (by omega)]
      have hks : (t.refresh E).ks = (s.refresh E).ks := by
        rw [Cfb.refresh, if_neg (fun h0 => by rw [h0] at hlt; simp at hlt), ht, Cfb.feed]
      obtain ⟨s', hn', hr', hl'⟩ := ih t (by simp only [List.length_cons]; omega)
      rw [hks, hlt] at hl' hr'
      refine ⟨s', ?_, ?_, ?_⟩
      · rw [hn', hlt, List.length_cons, List.length_cons, List.length_cons]
        congr 1
        omega
      · rw [hr', htreg, List.zipWith_cons_cons, patch]
      · rw [List.cons_append, encryptLoop, ← ht, hl', List.zipWith_cons_cons, List.cons_append]

lemma getBlock_of_patch {r : Block} {old ct : Bytes} (hr : r.toList = patch old 0 ct) (hold : old.length = 16)
    (hct : ct.length = 16) : r = getBlock ct 0 := by
  rw [patch_eq (by omega), Nat.zero_add, List.take_zero, List.nil_append, List.drop_eq_nil_of_le (by omega),
    List.append_nil] at hr
  refine Vector.ext fun i hi => ?_
  simp [getBlock, ← hr]

/-- **The loop is CFB-128**, from any block boundary. -/
theorem encryptLoop_eq_cfb128 (pt : Bytes) (hs : s.n = 0) : encryptLoop E s pt = cfb128 E s.reg pt := by
  induction hlen : pt.length using Nat.strong_induction_on generalizing pt s with
  | _ len ih =>
    rw [cfb128]
    split
    · next h => rw [h, encryptLoop]
    · next h =>
      have hpos := List.length_pos_iff.2 h
      have hks : (s.refresh E).ks.toList.drop s.n = (E s.reg).toList := by rw [Cfb.refresh, if_pos hs, hs]; rfl
      obtain ⟨s', hn, hr, hl⟩ := encryptLoop_inside E s (pt.take 16) (pt.drop 16) (by simp [hs])
      rw [List.take_append_drop, hks] at hl
      rw [hks] at hr
      rw [hl]
      congr 1
      by_cases hfull : 16 ≤ pt.length
      · have hn0 : s'.n = 0 := by
          refine Fin.ext ?_
          rw [hn, hs, List.length_take, Nat.min_eq_left hfull]
          rfl
        have hreg := getBlock_of_patch (hs ▸ hr) (by simp) (by simp [hfull])
        rw [ih (pt.drop 16).length (by simp; omega) s' (pt.drop 16) hn0 rfl, hreg]
      · rw [List.drop_eq_nil_of_le (by omega), encryptLoop, cfb128, if_pos rfl]

end Loops

section Calls

variable (E : Cipher) {iv : Bytes} (h : 16 ≤ iv.length)

include h

lemma toList_getBlock : (getBlock iv 0).toList = iv.take 16 := by
  refine List.ext_getElem (by simp [h]) fun i h₁ h₂ => ?_
  have hi : i < iv.length := by simp at h₂; omega
  simp [getBlock, hi]

lemma decrypt_eq (ct : Bytes) : decrypt E ct iv = .ok (decryptLoop E (Cfb.start iv) ct) := by
  rw [decrypt, if_neg (by omega)]

lemma encrypt_eq (pt : Bytes) : encrypt E pt iv = .ok (encryptLoop E (Cfb.start iv) pt) := by
  rw [encrypt, if_neg (by omega)]

/-- **AES-CFB.**  The two directions undo each other, encrypting is CFB-128 from the first sixteen bytes of the IV, and
a prefix of a ciphertext decrypts to the same prefix of the plaintext. -/
theorem encrypt_decrypt_cfb128 (bs : Bytes) :
    (encrypt E bs iv >>= fun ct => decrypt E ct iv) = .ok bs ∧
    (decrypt E bs iv >>= fun pt => encrypt E pt iv) = .ok bs ∧
    (getBlock iv 0).toList = iv.take 16 ∧ encrypt E bs iv = .ok (cfb128 E (getBlock iv 0) bs) ∧
    (∀ n, (encrypt E bs iv >>= fun ct => decrypt E (ct.take n) iv) = .ok (bs.take n)) ∧
    ∀ n, decrypt E (bs.take n) iv = (decrypt E bs iv).map (List.take n) := by
  have henc := encrypt_eq E h bs
  have hdec := decrypt_eq E h bs
  refine ⟨?_, ?_, toList_getBlock h, ?_, fun n => ?_, fun n => ?_⟩
  · rw [henc]
    exact (decrypt_eq E h _).trans (congrArg _ (decryptLoop_encryptLoop ..))
  · rw [hdec]
    exact (encrypt_eq E h _).trans (congrArg _ (encryptLoop_decryptLoop ..))
  · rw [henc, encryptLoop_eq_cfb128 E _ bs rfl]
    rfl
  · rw [henc]
    refine (decrypt_eq E h _).trans (congrArg _ ?_)
    rw [decryptLoop_take, decryptLoop_encryptLoop]
  · rw [hdec, decrypt_eq E h, decryptLoop_take]
    rfl

end Calls

/-- A text longer than a block, with a block function that moves every byte. -/
theorem encrypt_decrypt_cfb128_seventeen :
    16 ≤ (List.replicate 20 (7 : UInt8)).length ∧
      (encrypt Vector.reverse (List.replicate 17 1) (List.replicate 20 7) >>= fun ct =>
        decrypt Vector.reverse ct (List.replicate 20 7)) = .ok (List.replicate 17 1) :=
  ⟨by decide, (encrypt_decrypt_cfb128 Vector.reverse (by decide) (List.replicate 17 1)).1⟩

end MmkvGo.Crypt
