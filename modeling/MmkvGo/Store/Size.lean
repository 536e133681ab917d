import MmkvGo.Store.Refine

/-!
The format keeps lengths and sizes in 32 bits, and the code converts to them without a check.  What is lost beyond 4 GiB:
of a value of a multiple of 4 GiB of zero bytes, all but one byte.
-/

namespace MmkvGo.Store

open MmkvGo.Lib MmkvGo.Wire MmkvGo.Crypt Std

section Zeros

/-- `n` zero bytes. -/
def zeros (n : ℕ) : Bytes := List.replicate n 0

lemma zeros_succ (n : ℕ) : zeros (n + 1) = 0 :: zeros n := rfl

@[simp] lemma length_zeros (n : ℕ) : (zeros n).length = n := List.length_replicate

/-- A zero byte in the log is an empty key, which the parser skips. -/
lemma replayAll_zeros (dict : Dict) (n : ℕ) : replayAll dict (zeros n) = .ok dict := by
  induction n with
  | zero => rfl
  | succ n ih =>
    have hread : readBytes (writeData [] ++ zeros n) = .ok ([], zeros n) := readBytes_writeData (by simp) _
    have hone : replayOne dict (zeros (n + 1)) = .ok (dict, zeros n) := by
      rw [zeros_succ, replayOne]
      change readBytes (0 :: zeros n) = _ at hread
      simp [hread]
    rw [replayAll_cons hone, ih]

variable {n : ℕ}

lemma ofNat_of_dvd (hn : 2 ^ 32 ∣ n) : UInt32.ofNat n = 0 := by
  rw [← UInt32.toNat_inj, UInt32.toNat_ofNat', Nat.mod_eq_zero_of_dvd hn]
  rfl

lemma bytesBlob_zeros (hn : 2 ^ 32 ∣ n) : bytesBlob (zeros n) = zeros (n + 1) := by
  rw [bytesBlob, writeData, length_zeros, ofNat_of_dvd hn]
  rfl

lemma writeData_zeros_succ (hn : 2 ^ 32 ∣ n) : writeData (zeros (n + 1)) = writeData [0] ++ zeros n := by
  have hone : UInt32.ofNat (n + 1) = 1 := by
    rw [UInt32.ofNat_add, ofNat_of_dvd hn]
    rfl
  rw [writeData, length_zeros, hone]
  rfl

lemma regionOf_singleton (key blob : Bytes) :
    regionOf ((∅ : Dict).insert key blob) = itemSizeHolderBytes ++ pairBytes key blob := by
  have hperm := OrdMap.toList_insert_perm (∅ : Dict) key blob
  have herase : ((∅ : Dict).erase key).toList = [] := by
    rw [OrdMap.erase_of_getElem?_none (by simp)]
    rfl
  rw [herase, List.perm_singleton] at hperm
  rw [regionOf_eq, hperm]
  simp

/-- **What is read back of 4 GiB of zeros** is one of them. -/
theorem parseDict_regionOf_zeros {key : Bytes} (hk : key ≠ []) (hlen : key.length < 2 ^ 32) (hn : 2 ^ 32 ∣ n) :
    parseDict (regionOf ((∅ : Dict).insert key (zeros (n + 1)))) = .ok ((∅ : Dict).insert key [0]) := by
  have hpair : pairBytes key (zeros (n + 1)) = pairBytes key [0] ++ zeros n := by
    rw [pairBytes, writeData_zeros_succ hn, pairBytes, List.append_assoc]
  rw [regionOf_singleton, hpair, itemSizeHolderBytes, parseDict_of_varint (readVarint64_varint32 itemSizeHolder _),
    replayAll_cons (replayOne_pair ∅ hk hlen (by simp) _), replayAll_zeros]
  rfl

/-- **A first set, of whatever size**, leaves in memory what is read back of its region. -/
theorem exec_first_set_parsed {P : Platform} {cfg : Config} {sys : Sys} (hro : cfg.readOnly = false) (hsys : sys.OK)
    {key : Bytes} {v : Value} {dict : Dict} (hparse : parseDict (regionOf ((∅ : Dict).insert key v.blob)) = .ok dict) :
    let r := (cfg.fresh P).exec P sys (freshDisk P) (.set key v)
    r.err = none ∧ r.m.dict = dict ∧ r.m.enableExpire = false ∧ r.m.needLoad = false ∧
      r.m.multiProcess = cfg.multiProcess ∧ r.m.closed = false := by
  have hdata : (cfg.fresh P).data = ⟨(freshDisk P).data.length, true⟩ := (synced_fresh P hro).data
  have hexp : (cfg.fresh P).enableExpire = false := show blankMeta.expireEnabled = false by decide
  intro r
  have hr : r = _ := exec_first_set hro key _
  rw [MMKV.fullWritebackGrow_eq (m := { cfg.fresh P with dict := (∅ : Dict).insert key v.blob }) hdata hsys] at hr
  simp only [hparse] at hr
  rw [hr]
  exact ⟨rfl, rfl, hexp, rfl, rfl, rfl⟩

/-- **A first set of 4 GiB of zeros** returns nil, and the instance holds one byte of them. -/
theorem exec_first_set_zeros {P : Platform} {cfg : Config} {sys : Sys} (hro : cfg.readOnly = false) (hsys : sys.OK)
    {key : Bytes} (hk : key ≠ []) (hlen : key.length < 2 ^ 32) (hn : 2 ^ 32 ∣ n) :
    let r := (cfg.fresh P).exec P sys (freshDisk P) (.set key (.bytes (zeros n)))
    r.err = none ∧ r.m.dict = (∅ : Dict).insert key [0] ∧ r.m.enableExpire = false ∧ r.m.needLoad = false ∧
      r.m.multiProcess = cfg.multiProcess := by
  have hblob : (Value.bytes (zeros n)).blob = zeros (n + 1) := bytesBlob_zeros hn
  have hparse := parseDict_regionOf_zeros hk hlen hn
  rw [← hblob] at hparse
  obtain ⟨herr, hdict, hexp, hload, hmulti, -⟩ := exec_first_set_parsed (P := P) hro hsys hparse
  exact ⟨herr, hdict, hexp, hload, hmulti⟩

end Zeros

end MmkvGo.Store
