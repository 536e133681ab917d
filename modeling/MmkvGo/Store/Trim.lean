import MmkvGo.Store.Size

/-!
The size `Trim` gives the data file.  It compacts the region through the full write-back and then halves the file as
often as it stays above twice what is needed.  The write-back grows a file that the compacted region fills to its last
byte, and the halving does not take that back: `trim_shrinks_iff` says that this is the only case in which a `Trim` makes
a file longer.
-/

namespace MmkvGo.Store

open MmkvGo.Lib MmkvGo.Wire MmkvGo.Crypt Std

/-! ### The sizes -/

section Sizes

variable {P : Platform}

lemma pageSize_dvd_pageRoundUp (P : Platform) (n : ℕ) : P.pageSize ∣ pageRoundUp P n := by
  rw [pageRoundUp]
  split
  · exact dvd_rfl
  · exact Nat.dvd_mul_left ..

lemma pageRoundUp_of_dvd {n : ℕ} (hle : P.pageSize ≤ n) (hdvd : P.pageSize ∣ n) : pageRoundUp P n = n := by
  have hp := P.four_le_pageSize
  obtain ⟨k, rfl⟩ := hdvd
  have hdiv : (P.pageSize * k + P.pageSize - 1) / P.pageSize = k := by
    rw [Nat.add_sub_assoc (by omega), Nat.mul_add_div (by omega), Nat.div_eq_of_lt (by omega), Nat.add_zero]
  rw [pageRoundUp, hdiv, mul_comm k]
  split
  · omega
  · rfl

lemma pageRoundUp_mono {a b : ℕ} (h : a ≤ b) : pageRoundUp P a ≤ pageRoundUp P b := by
  by_cases ha : a ≤ P.pageSize
  · rw [pageRoundUp, if_pos ha]
    exact pageSize_le_pageRoundUp P b
  · rw [pageRoundUp, if_neg ha, pageRoundUp, if_neg (by omega)]
    exact Nat.mul_le_mul_right _ (Nat.div_le_div_right (by omega))

/-- **The halving loop ends** by its condition: the file size is fuel enough. -/
theorem halveUntil_le {limit fuel n : ℕ} (h : n ≤ limit * 2 ^ fuel) : halveUntil limit fuel n ≤ limit := by
  induction fuel generalizing n with
  | zero => simpa [halveUntil] using h
  | succ fuel ih =>
    rw [halveUntil]
    split
    · rw [pow_succ, ← mul_assoc] at h
      exact ih (by omega)
    · omega

lemma trimTarget_le (P : Platform) (fileSize : ℕ) (actualSize : UInt32) :
    trimTarget P fileSize actualSize ≤ max P.pageSize (2 * (actualSize.toNat + 4)) := by
  have hhalf : halveUntil ((actualSize.toNat + 4) * 2) fileSize fileSize ≤ (actualSize.toNat + 4) * 2 := by
    refine halveUntil_le (Nat.le_trans Nat.lt_two_pow_self.le ?_)
    exact Nat.le_mul_of_pos_left _ (by omega)
  rw [trimTarget, pageRoundUp_zero]
  omega

/-- A `Trim` leaves at most a page, or twice what is needed and the rest of a page. -/
theorem shrunkSize_le_max (P : Platform) (fileSize : ℕ) (actualSize : UInt32) :
    shrunkSize P fileSize actualSize ≤ max P.pageSize (pageRoundUp P (2 * (actualSize.toNat + 4))) := by
  have htarget := trimTarget_le P fileSize actualSize
  have hround := le_pageRoundUp P (2 * (actualSize.toNat + 4))
  rw [shrunkSize]
  split
  · omega
  · refine Nat.le_trans (pageRoundUp_mono htarget) ?_
    by_cases hpage : 2 * (actualSize.toNat + 4) ≤ P.pageSize
    · rw [max_eq_left hpage, pageRoundUp_of_dvd le_rfl dvd_rfl]
      exact Nat.le_max_left ..
    · rw [max_eq_right (show P.pageSize ≤ _ by omega)]
      exact Nat.le_max_right ..

lemma halveUntil_eq_or_le (limit fuel n : ℕ) :
    halveUntil limit fuel n = n ∨ halveUntil limit fuel n ≤ n / 2 := by
  induction fuel generalizing n with
  | zero => exact .inl rfl
  | succ fuel ih =>
    rw [halveUntil]
    split
    · have := ih (n / 2)
      omega
    · exact .inl rfl

theorem shrunkSize_le {fileSize : ℕ} (hpage : P.pageSize ≤ fileSize) (actualSize : UInt32) :
    shrunkSize P fileSize actualSize ≤ fileSize := by
  have hhalf := halveUntil_eq_or_le ((actualSize.toNat + 4) * 2) fileSize fileSize
  rw [shrunkSize]
  split
  · exact le_rfl
  next hcut =>
  rw [trimTarget, pageRoundUp_zero] at hcut ⊢
  generalize halveUntil ((actualSize.toNat + 4) * 2) fileSize fileSize = n at hhalf hcut ⊢
  by_cases hn : n ≤ P.pageSize
  · rw [max_eq_right hn, pageRoundUp_of_dvd le_rfl dvd_rfl]
    exact hpage
  · have hround := pageRoundUp_le P n
    rw [max_eq_left (by omega)] at hcut ⊢
    omega

/-- The growth of a file that is filled to its last byte outlives the halving. -/
theorem lt_shrunkSize_of_exact_fit {actualSize : UInt32} (hpage : P.pageSize ≤ 4 + actualSize.toNat) :
    4 + actualSize.toNat < shrunkSize P (pageRoundUp P ((4 + actualSize.toNat) * 2)) actualSize := by
  have hround := le_pageRoundUp P ((4 + actualSize.toNat) * 2)
  have htarget := le_trimTarget P (show 4 + actualSize.toNat ≤ pageRoundUp P ((4 + actualSize.toNat) * 2) by omega)
  rw [shrunkSize]
  split
  · omega
  next hcut =>
  generalize hF : 4 + actualSize.toNat = F at hpage hround htarget hcut ⊢
  have hle := Nat.le_trans htarget (le_pageRoundUp P (trimTarget P (pageRoundUp P (F * 2)) actualSize))
  refine Nat.lt_of_le_of_ne hle fun heq => hcut ?_
  -- otherwise the file is a number of pages, and twice that is not halved
  have hdvd : P.pageSize ∣ F := by
    rw [heq]
    exact pageSize_dvd_pageRoundUp P _
  have hdouble : pageRoundUp P (F * 2) = F * 2 := pageRoundUp_of_dvd (by omega) (Dvd.dvd.mul_right hdvd 2)
  have hkeep : halveUntil ((actualSize.toNat + 4) * 2) (F * 2) (F * 2) = F * 2 := by
    obtain ⟨n, hn⟩ : ∃ n, F * 2 = n + 1 := ⟨F * 2 - 1, by omega⟩
    rw [hn, halveUntil, if_neg (by omega)]
  rw [hdouble, trimTarget, hkeep]
  exact Nat.le_max_left ..

lemma MMKV.grownSize_of_spare {m : MMKV} {lenNeeded : ℕ} (h : lenNeeded < m.data.size) :
    m.grownSize P lenNeeded true 0 = m.data.size := by
  have hgrowth : growth m.data.size m.dict.size lenNeeded true 0 = none := by
    rw [growth, if_neg]
    simpa using h
  rw [grownSize, hgrowth]

lemma growth_of_exact_fit {lenNeeded : ℕ} (hpos : 0 < lenNeeded) (count : ℕ) :
    growth lenNeeded count lenNeeded true 0 = some (lenNeeded * 2) := by
  obtain ⟨n, hn⟩ : ∃ n, lenNeeded = n + 1 := ⟨lenNeeded - 1, by omega⟩
  have hloop : doubleUntil lenNeeded (lenNeeded + 1) (max lenNeeded 1) = lenNeeded * 2 := by
    rw [max_eq_left hpos, doubleUntil, if_pos le_rfl, hn, doubleUntil, if_neg (by omega)]
  rw [growth, if_pos (.inl le_rfl)]
  simp only [growthTarget, lt_self_iff_false, if_false, hloop]

lemma MMKV.grownSize_of_exact_fit {m : MMKV} {lenNeeded : ℕ} (h : m.data.size = lenNeeded) (hpos : 0 < lenNeeded) :
    m.grownSize P lenNeeded true 0 = pageRoundUp P (lenNeeded * 2) := by
  rw [grownSize, h, growth_of_exact_fit hpos]

end Sizes

/-! ### The region of this library -/

/-- The region is empty, or it starts with the placeholder that this library writes. -/
def Framed (crypt : Option Cipher) (d : Disk) (mi : MetaInfo) : Prop :=
  mi.actualSize = 0 ∨ itemSizeHolderBytes <+: plainOf crypt mi.iv (d.region mi.actualSize)

section Framed

variable {P : Platform} {sys : Sys} {d : Disk} {m : MMKV}

lemma framed_stored {d' : Disk} {mi : MetaInfo} (hiv : mi.iv = m.nextIV sys)
    (hregion : d'.region mi.actualSize = m.stored sys) : Framed m.crypt d' mi := by
  rw [Framed, hregion, hiv, MMKV.stored, plainOf_cipherOf]
  exact .inr (itemSizeHolderBytes_prefix_regionOf m.dict)

lemma MMKV.fullWritebackGrow_framed {needSync : Bool} {incoming : ℕ} (hdata : m.data = ⟨d.data.length, true⟩)
    (hcrc : metaSize ≤ d.crc.length) (hsys : sys.OK) (hlt : 4 + (regionOf m.dict).length < 2 ^ 32) :
    let r := m.fullWritebackGrow P sys d needSync incoming
    Framed r.m.crypt (d.apply r.writes) r.m.info := by
  obtain ⟨-, hregion, -, -⟩ := fullWritebackGrow_sealed (P := P) hdata hcrc hsys hlt needSync incoming
  have hm : (m.fullWritebackGrow P sys d needSync incoming).m.info = m.writtenInfo (m.stored sys) (m.nextIV sys) ∧
      (m.fullWritebackGrow P sys d needSync incoming).m.crypt = m.crypt := by
    rw [fullWritebackGrow_eq hdata hsys]
    split <;> exact ⟨rfl, rfl⟩
  intro r
  rw [hm.1, hm.2]
  exact framed_stored rfl hregion

lemma Framed.append {pair : Bytes} (hf : Framed m.crypt d m.info) (h : Sealed d m.info) (hcrypt : m.crypt = none)
    (hact : m.actualSize = m.info.actualSize) (hcrc : m.crcDigest = m.info.crcDigest) (hpos : 0 < m.info.actualSize)
    (hroom : pair.length + 4 + m.info.actualSize.toNat ≤ d.data.length)
    (hlt : 4 + (m.plainRegion d ++ pair).length < 2 ^ 32) :
    Framed m.crypt (d.apply (m.appendRaw pair).1) (m.appendedInfo pair) := by
  rw [List.length_append, MMKV.plainRegion, length_plainOf, h.length_region] at hlt
  have happ := MMKV.appendRaw_appended h hact hcrc hpos hroom (by omega)
  rcases hf with h0 | hpre
  · rw [h0] at hpos
    exact absurd hpos (by decide)
  · rw [Framed, happ.region]
    rw [hcrypt] at hpre ⊢
    exact .inr (hpre.trans (List.prefix_append ..))

lemma region_shrunk {size n : ℕ} {ct crc : Bytes} {actual : UInt32} (hactual : actual.toNat = ct.length)
    (hroom : 4 + ct.length ≤ size) (hn : 4 + ct.length ≤ n) :
    (⟨resize 0 (MMKV.rewritten d size ct) n, crc⟩ : Disk).region actual = ct := by
  rw [Disk.region, hactual]
  refine (slice_resize hn ?_).trans (MMKV.slice_rewritten hroom)
  rw [MMKV.length_rewritten]
  exact hroom

/-- What a `Trim` of a store that is not empty did: the compacted region stands in a file that was grown for it and then
cut. -/
structure MMKV.Trimmed (P : Platform) (sys : Sys) (d : Disk) (m : MMKV) (r : Result) : Prop where
  err : r.err = none
  crypt : r.m.crypt = m.crypt
  dict : r.m.dict = m.dict
  actualSize : r.m.actualSize = r.m.info.actualSize
  actualSize_eq : r.m.actualSize.toNat = (regionOf m.dict).length
  iv : r.m.info.iv = m.nextIV sys
  readable : Readable (d.apply r.writes) r.m.info
  region : (d.apply r.writes).region r.m.info.actualSize = m.stored sys
  size : (d.apply r.writes).data.length =
    shrunkSize P (m.grownSize P (4 + (regionOf m.dict).length) true 0) r.m.actualSize

/-- **A `Trim` of a store that is not empty, step by step**: the write-back, the cut, and the region read back. -/
theorem MMKV.trim_eq (h : Synced d m) (hsys : sys.OK) (h0 : m.actualSize ≠ 0)
    (hlen : 4 + (regionOf m.dict).length < 2 ^ 32) :
    let mi := m.writtenInfo (m.stored sys) (m.nextIV sys)
    let size := m.grownSize P (4 + (regionOf m.dict).length) true 0
    m.trim P sys d = ⟨regionWrites d.data.length size (m.stored sys) ++ crcWrites 0 mi.marshal ++
      resizeWrites size (shrunkSize P size mi.actualSize), m.written (shrunkSize P size mi.actualSize) mi m.dict, none⟩ := by
  intro mi size
  obtain ⟨herr, hm, hsealed, hdec, -, -⟩ :=
    fullWritebackGrow_decoded (P := P) h.data h.image.metaSize_le h.image.wf hsys hlen true 0
  have hwrites := fullWritebackGrow_writes (P := P) h.data hsys true 0
  rw [← fullWriteback] at herr hm hsealed hdec hwrites
  have hsize : (d.apply (m.fullWriteback P sys d).writes).data.length = size := by
    rw [hwrites, apply_fullWriteback, length_rewritten]
    rfl
  rw [hsize] at hm
  -- the cut leaves the region, which is read back as it was
  have hshrink := shrink_eq (P := P) (m := m.written size mi m.dict) (d := d.apply (m.fullWriteback P sys d).writes)
    (by rw [hsize]; rfl) hsealed.fits hsealed.bounded hdec hsys
  rw [hsize, ← show (m.fullWriteback P sys d).m = m.written size mi m.dict from hm] at hshrink
  rw [trim, if_neg h0]
  simp only [herr, hshrink]
  rw [hwrites, hm]
  rfl

/-- **A `Trim` of a store that is not empty**, in a file of whatever size. -/
theorem MMKV.trim_trimmed (h : Synced d m) (hsys : sys.OK) (h0 : m.actualSize ≠ 0)
    (hlen : 4 + (regionOf m.dict).length < 2 ^ 32) : m.Trimmed P sys d (m.trim P sys d) := by
  have htrim := trim_eq (P := P) h hsys h0 hlen
  dsimp only at htrim
  have hroom := lt_grownSize (P := P) (m := m) (4 + (regionOf m.dict).length) true 0
  have hct := m.length_stored sys
  generalize hgrown : m.grownSize P (4 + (regionOf m.dict).length) true 0 = size at htrim hroom
  generalize hmi : m.writtenInfo (m.stored sys) (m.nextIV sys) = mi at htrim
  have hact : mi.actualSize.toNat = (m.stored sys).length := by
    rw [← hmi]
    exact toNat_ofNat32 (by omega)
  have hn := le_shrunkSize P (show 4 + mi.actualSize.toNat ≤ size by omega)
  generalize hcut : shrunkSize P size mi.actualSize = n at htrim hn
  have hdisk : d.apply (m.trim P sys d).writes =
      ⟨resize 0 (rewritten d size (m.stored sys)) n, patch d.crc 0 mi.marshal⟩ := by
    have hlength := length_rewritten d size (m.stored sys)
    have hresize := Disk.apply_resizeWrites ⟨rewritten d size (m.stored sys), patch d.crc 0 mi.marshal⟩ n
    rw [hlength] at hresize
    rw [htrim, Disk.apply_append, apply_fullWriteback, hresize]
  have hregion : (d.apply (m.trim P sys d).writes).region mi.actualSize = m.stored sys := by
    rw [hdisk]
    exact region_shrunk hact (by omega) (by omega)
  have hlength : (d.apply (m.trim P sys d).writes).data.length = n := by rw [hdisk, length_resize]
  have hcrc : (d.apply (m.trim P sys d).writes).crc = patch d.crc 0 mi.marshal := by rw [hdisk]
  -- the cut is behind the region, so the meta of the write-back still describes the file
  have hreadable : Readable (d.apply (m.trim P sys d).writes) mi := by
    refine ⟨?_, .inl (by rw [← hmi]; rfl), by rw [hlength]; exact hn, by omega, ?_⟩
    · rw [hcrc]
      exact parseMeta_patch_marshal mi h.image.metaSize_le
    · rw [hregion, ← hmi]
      rfl
  have hm : (m.trim P sys d).m = m.written n mi m.dict := by rw [htrim]
  have herr : (m.trim P sys d).err = none := by rw [htrim]
  subst hcut hgrown hmi
  generalize m.trim P sys d = r at hm herr hregion hlength hreadable ⊢
  refine ⟨herr, ?_, ?_, ?_, ?_, ?_, ?_, ?_, ?_⟩ <;> rw [hm]
  · rfl
  · rfl
  · rfl
  · exact hact.trans hct
  · rfl
  · exact hreadable
  · exact hregion
  · exact hlength

lemma MMKV.clearAllLocked_sizes (hdata : m.data = ⟨d.data.length, true⟩) (hsys : sys.OK) :
    (d.apply (m.clearAllLocked P sys).writes).data.length = P.pageSize ∧ (m.clearAllLocked P sys).m.actualSize = 0 := by
  have htrunc := MemoryFile.truncate_ok P d.data.length 0
  simp only [clearAllLocked, hdata, hsys.grow, htrunc, pageRoundUp_zero, and_true]
  rw [Disk.apply_append, Disk.apply_append, Disk.apply_resizeWrites, Disk.apply_dataWrites, Disk.apply_crcWrites,
    length_patch, length_resize]

lemma MMKV.clearAllLocked_framed (hdata : m.data = ⟨d.data.length, true⟩) (hsys : sys.OK) :
    let r := m.clearAllLocked P sys
    Framed r.m.crypt (d.apply r.writes) r.m.info := by
  have htrunc := MemoryFile.truncate_ok P d.data.length 0
  simp only [clearAllLocked, hdata, hsys.grow, htrunc]
  exact .inl rfl

/-- **The compacted region is no longer than the stored one.** -/
theorem Framed.length_le (hf : Framed m.crypt d m.info) (h : Synced d m) (h0 : m.actualSize ≠ 0) :
    (regionOf m.dict).length ≤ m.actualSize.toNat := by
  rw [h.actualSize] at h0 ⊢
  rcases hf with hzero | hpre
  · exact absurd hzero h0
  · have hle := length_regionOf_parseDict_of_prefix hpre h.image.decoded
    rwa [length_plainOf, h.image.length_region] at hle

lemma MMKV.setBlob_framed {key blob : Bytes} (h : Synced d m) (hsys : sys.OK)
    (hlt : 4 + (m.regionAfterSet d key blob).length < 2 ^ 32) (hf : Framed m.crypt d m.info) :
    Framed (m.setBlob P sys d key blob).m.crypt (d.apply (m.setBlob P sys d key blob).writes)
      (m.setBlob P sys d key blob).m.info := by
  rw [regionAfterSet] at hlt
  by_cases hover : m.overrides key (pairBytes key blob) = true
  · rw [if_pos hover] at hlt
    obtain ⟨hcrypt, hver, -, hroom, -⟩ := overrides_of_steady h.steady hover
    rw [setBlob_of_overrides h.steady hover hlt]
    rw [List.length_append] at hlt
    have hnew := overrideRaw_overridden h.image.toSealed hver hroom (by omega)
    have hpre : itemSizeHolderBytes <+: plainOf none m.info.iv (itemSizeHolderBytes ++ pairBytes key blob) :=
      List.prefix_append ..
    rw [← hnew.region, ← hcrypt] at hpre
    exact .inr hpre
  rw [if_neg hover] at hlt
  rw [Bool.not_eq_true] at hover
  by_cases happend : m.appends (pairBytes key blob) = true
  · rw [if_pos happend] at hlt
    obtain ⟨hcrypt, hpos, -, hroom⟩ := appends_of_steady h.steady happend
    rw [setBlob_of_appends h.data hover happend]
    rw [h.actualSize] at hroom
    exact hf.append h.image.toSealed hcrypt h.actualSize h.crcDigest hpos (by omega) hlt
  · rw [if_neg happend] at hlt
    rw [Bool.not_eq_true] at happend
    rw [setBlob_of_neither hover happend]
    exact fullWritebackGrow_framed (m := { m with dict := m.dict.insert key blob }) h.data h.image.metaSize_le hsys hlt

lemma MMKV.removeValueForKey_framed {key : Bytes} (h : Synced d m) (hsys : sys.OK)
    (hgood : (Op.removeValueForKey key).Good m)
    (hlt : 4 + ((Op.removeValueForKey key).regionAfter sys d m).length < 2 ^ 32)
    (hf : Framed m.crypt d m.info) :
    Framed (m.removeValueForKey P sys d key).m.crypt (d.apply (m.removeValueForKey P sys d key).writes)
      (m.removeValueForKey P sys d key).m.info := by
  rw [Op.regionAfter] at hlt
  rw [removeValueForKey]
  split
  · exact hf
  next hc =>
  rw [if_neg hc] at hlt
  dsimp only
  split
  · next htomb =>
    have hcrypt : m.crypt = none := tombstoneOK.crypt_eq_none hgood (by simpa using hc) htomb
    obtain ⟨hfit, hpos⟩ := of_appendsTombstone htomb
    simp only [fitsTail, decide_eq_true_eq, h.data, h.actualSize] at hfit hpos
    rw [if_pos htomb] at hlt
    exact hf.append h.image.toSealed hcrypt h.actualSize h.crcDigest hpos hfit hlt
  · next htomb =>
    rw [if_neg htomb] at hlt
    exact fullWritebackGrow_framed (m := { m with dict := m.dict.erase key }) h.data h.image.metaSize_le hsys hlt

lemma MMKV.trim_framed (h : Synced d m) (hsys : sys.OK) (hf : Framed m.crypt d m.info) :
    Framed (m.trim P sys d).m.crypt (d.apply (m.trim P sys d).writes) (m.trim P sys d).m.info := by
  by_cases h0 : m.actualSize = 0
  · rw [trim, if_pos h0]
    exact clearAllLocked_framed h.data hsys
  · have hle := hf.length_le h h0
    have hbounded := h.image.bounded
    rw [h.actualSize] at hle
    have htrim := trim_trimmed (P := P) h hsys h0 (by omega)
    rw [htrim.crypt]
    exact framed_stored htrim.iv htrim.region

/-- **Every call keeps the region framed.** -/
theorem exec_framed {op : Op} (h : Synced d m) (hsys : sys.OK) (hgood : op.Good m)
    (hlt : 4 + (op.regionAfter sys d m).length < 2 ^ 32) (hcache : op ≠ .clearMemoryCache) (hf : Framed m.crypt d m.info) :
    Framed (m.exec P sys d op).m.crypt (d.apply (m.exec P sys d op).writes) (m.exec P sys d op).m.info := by
  have hcrc := h.image.metaSize_le
  cases op with
  | set key v =>
    rw [Op.regionAfter, MMKV.regionAfterPut] at hlt
    rw [MMKV.exec, MMKV.mutate_of_synced h, MMKV.setValueLocked]
    split
    · exact hf
    next hskip =>
    rw [if_neg hskip] at hlt
    exact MMKV.setBlob_framed h hsys hlt hf
  | removeValueForKey key =>
    rw [MMKV.exec, MMKV.mutate_of_synced h]
    exact MMKV.removeValueForKey_framed h hsys hgood hlt hf
  | removeValuesForKeys keys =>
    rw [Op.regionAfter] at hlt
    rw [MMKV.exec, MMKV.mutate_of_synced h, MMKV.removeValuesForKeys]
    split
    · exact hf
    next hall =>
    rw [if_neg hall] at hlt
    exact MMKV.fullWritebackGrow_framed (m := { m with dict := keys.foldl (fun dict k => dict.erase k) m.dict })
      h.data hcrc hsys hlt
  | clearAll =>
    rw [MMKV.exec, MMKV.mutate_of_synced h]
    exact MMKV.clearAllLocked_framed h.data hsys
  | trim =>
    rw [MMKV.exec, MMKV.mutate_of_synced h]
    exact MMKV.trim_framed h hsys hf
  | sync =>
    simp only [MMKV.exec, MMKV.syncFlush, h.closed, h.readOnly, Bool.false_eq_true, if_false]
    exact hf
  | clearMemoryCache => exact absurd rfl hcache
  | enableAutoKeyExpire seconds =>
    rw [MMKV.exec, MMKV.mutate_of_synced h]
    exact MMKV.fullWritebackGrow_framed (m := m.withExpire seconds) h.data hcrc hsys hlt
  | disableAutoKeyExpire =>
    rw [Op.regionAfter] at hlt
    rw [MMKV.exec, MMKV.mutate_of_synced h, MMKV.disableAutoKeyExpire]
    split
    · exact hf
    next he =>
    rw [if_neg he] at hlt
    exact MMKV.fullWritebackGrow_framed (m := m.withoutExpire sys) h.data hcrc hsys hlt
  | enableCompareBeforeSet =>
    rw [MMKV.exec, MMKV.enableCompareBeforeSet]
    split <;> exact hf
  | disableCompareBeforeSet => exact hf
  | reKey newKey =>
    rw [MMKV.exec, MMKV.mutate_of_synced h]
    have herr := (reKey_effect (P := P) h hsys hlt).err
    simp only [MMKV.reKey] at herr ⊢
    generalize (if newKey = [] then none else some (newAESCFB P.aes newKey)) = crypt at herr ⊢
    -- the old key comes back only where the write-back fails
    cases hback : (({ m with crypt := crypt } : MMKV).fullWriteback P sys d).err with
    | some e => simp [hback] at herr
    | none =>
      exact MMKV.fullWritebackGrow_framed (m := { m with crypt := crypt }) h.data hcrc hsys hlt

end Framed

/-! ### Whole runs -/

/-- What a `Trim` of a store with the map `dict` may do to its file: not make it longer, leave room for the region, leave
no more than a page or twice what is needed, and cut nothing of the region, which still holds the map. -/
structure TrimOK (P : Platform) (d : Disk) (dict : Dict) (r : Result) : Prop where
  not_longer : (d.apply r.writes).data.length ≤ d.data.length
  room : 4 + r.m.actualSize.toNat ≤ (d.apply r.writes).data.length
  bounded : (d.apply r.writes).data.length ≤ max P.pageSize (pageRoundUp P (2 * (r.m.actualSize.toNat + 4)))
  served : r.m.dict = dict
  readable : Readable (d.apply r.writes) r.m.info
  live : parseDict (plainOf r.m.crypt r.m.info.iv ((d.apply r.writes).region r.m.actualSize)) = .ok dict

/-- The files have a page at least, and their region is framed. -/
structure Tidy (P : Platform) (w : World) (m : MMKV) : Prop where
  floor : P.pageSize ≤ w.disk.data.length
  framed : Framed m.crypt w.disk m.info

section Runs

variable {P : Platform} {sys : Sys} {d : Disk} {m : MMKV} {w : World} {s : Model}

theorem tidy_start {cfg : Config} {mi : MetaInfo} {dict : Dict} (sys : Sys) (h : Stored (cfg.crypt P) d mi dict)
    (hf : Framed (cfg.crypt P) d mi) (hro : cfg.readOnly = false) :
    ∃ m, Tracks (World.start P cfg sys d) ⟨⟨OrdMap.lookup dict, mi.expireEnabled⟩, cfg.crypt P, 0⟩ m ∧
      Tidy P (World.start P cfg sys d) m := by
  obtain ⟨m, htracks, hinfo⟩ := tracks_start sys h hro
  have hdisk : (World.start P cfg sys d).disk = d.apply (openWrites P d) := by rw [World.start, openMMKV_of_stored h hro]
  refine ⟨m, htracks, ?_, ?_⟩
  · rw [hdisk, length_openWrites]
    exact Nat.le_max_right ..
  · rw [hdisk, htracks.crypt, hinfo]
    refine hf.imp_right fun hpre => ?_
    rcases h with h | ⟨-, rfl, -⟩
    · rw [Disk.region_append (congrArg Disk.data (apply_openWrites P d)) h.fits]
      exact hpre
    · exact absurd hpre.length_le (by
        rw [length_plainOf, Disk.region]
        simp [blankMeta, slice, length_itemSizeHolderBytes])

lemma Tidy.congr {m' : MMKV} (ht : Tidy P w m) (h : Synced w.disk m) (h' : Synced w.disk m') (hcrypt : m'.crypt = m.crypt) :
    Tidy P w m' := by
  have hinfo : m'.info = m.info := Except.ok.inj (h'.image.parse.symm.trans h.image.parse)
  exact ⟨ht.floor, by rw [hcrypt, hinfo]; exact ht.framed⟩

theorem step_tidy {a : Act} (h : Tracks w s m) (ht : Tidy P w m) (hok : a.OK P w) :
    ∃ m', Tracks (w.step P a) (s.step P a) m' ∧ Tidy P (w.step P a) m' := by
  obtain ⟨m', h'⟩ := step_tracks h hok
  refine ⟨m', h', ?_⟩
  obtain ⟨m₀, hinst, hdrop⟩ := h.inst_eq
  cases a with
  | reopen cfg sys =>
    have hcrypt : cfg.crypt P = m.crypt := (hok.2 m₀ hinst).trans hdrop.crypt
    have himage := h.synced.image
    have hframed := ht.framed
    rw [← hcrypt] at himage hframed
    obtain ⟨m₁, h₁, ht₁⟩ := tidy_start sys (.inl himage) hframed hok.1
    exact ht₁.congr h₁.synced h'.synced (h'.crypt.trans h₁.crypt.symm)
  | call op sys =>
    obtain ⟨hsys, hcall⟩ := hok
    obtain ⟨hgood, hlt⟩ := hcall m₀ hinst
    rw [h.checkLoadData hinst hsys.remap] at hgood hlt
    have hwrites := (h.exec (P := P) hinst hsys.remap op).1
    have hdisk : (w.step P (.call op sys)).disk = w.disk.apply (m.exec P sys w.disk op).writes := by
      simp only [World.step, hinst, hwrites]
    have hsynced' := h'.synced
    by_cases hcache : op = .clearMemoryCache
    · -- the files are as they were
      subst hcache
      have hsame : (w.step P (.call .clearMemoryCache sys)).disk = w.disk := hdisk
      rw [hsame] at hsynced'
      obtain ⟨hfloor, hframed⟩ := ht.congr h.synced hsynced' (h'.crypt.trans h.crypt.symm)
      exact ⟨by rw [hsame]; exact hfloor, by rw [hsame]; exact hframed⟩
    · have heffect := exec_effect (P := P) h.synced hsys hgood hlt hcache
      have hcrypt : m'.crypt = (m.exec P sys w.disk op).m.crypt := by
        rw [h'.crypt, heffect.crypt, h.crypt]
        rfl
      have hsynced := heffect.synced
      rw [← hdisk] at hsynced
      refine Tidy.congr ⟨?_, ?_⟩ hsynced hsynced' hcrypt <;> rw [hdisk]
      · exact heffect.floor ht.floor
      · exact exec_framed h.synced hsys hgood hlt hcache ht.framed

lemma trimOK_of_empty (h : Synced w.disk m) (ht : Tidy P w m) (hsys : sys.OK) (h0 : m.actualSize = 0) :
    TrimOK P w.disk m.dict (m.trim P sys w.disk) := by
  have hempty : m.dict = ∅ := h.dict_eq_empty h0
  obtain ⟨mi, hr⟩ := MMKV.clearAllLocked_spec (P := P) h.data h.image.metaSize_le hsys
  obtain ⟨hlength, hzero⟩ := MMKV.clearAllLocked_sizes (P := P) h.data hsys
  have htrim : m.trim P sys w.disk = m.clearAllLocked P sys := by rw [MMKV.trim, if_pos h0]
  rw [htrim]
  refine ⟨?_, ?_, ?_, ?_, ?_, ?_⟩
  · rw [hlength]
    exact ht.floor
  · rw [hlength, hzero]
    exact P.four_le_pageSize
  · rw [hlength]
    exact Nat.le_max_left ..
  all_goals rw [hr.instance_eq]
  · exact hempty.symm
  · exact hr.image.readable
  · rw [hempty]
    exact hr.image.decoded

lemma not_trimOK_of_exact_fit {r : Result} (h : Synced w.disk m) (ht : Tidy P w m) (htrim : m.Trimmed P sys w.disk r)
    (hfit : 4 + (regionOf m.dict).length = w.disk.data.length) : ¬ TrimOK P w.disk m.dict r := by
  intro hok
  have hmapped : m.data.size = w.disk.data.length := by rw [h.data]
  have hp := P.four_le_pageSize
  have hlonger := hok.not_longer
  rw [htrim.size, MMKV.grownSize_of_exact_fit (by omega) (by omega), ← htrim.actualSize_eq] at hlonger
  have hpage : P.pageSize ≤ 4 + r.m.actualSize.toNat := by
    rw [htrim.actualSize_eq, hfit]
    exact ht.floor
  have hlt := lt_shrunkSize_of_exact_fit hpage
  rw [htrim.actualSize_eq] at hlt hlonger
  omega

lemma trimOK_of_spare {r : Result} (h : Synced w.disk m) (ht : Tidy P w m) (htrim : m.Trimmed P sys w.disk r)
    (hlt : 4 + (regionOf m.dict).length < w.disk.data.length) : TrimOK P w.disk m.dict r := by
  have hactual := htrim.actualSize_eq
  have hbounded := htrim.readable.bounded
  rw [← htrim.actualSize] at hbounded
  have hmapped : m.data.size = w.disk.data.length := by rw [h.data]
  have hsize := htrim.size
  rw [MMKV.grownSize_of_spare (by omega), hmapped] at hsize
  refine ⟨?_, ?_, ?_, htrim.dict, htrim.readable, ?_⟩
  · rw [hsize]
    exact shrunkSize_le ht.floor _
  · rw [htrim.actualSize]
    exact htrim.readable.fits
  · rw [hsize]
    exact shrunkSize_le_max ..
  · rw [htrim.actualSize, htrim.region, htrim.crypt, htrim.iv, ← parseDict_regionOf h.image.wf (by omega)]
    exact congrArg parseDict (plainOf_cipherOf ..)

/-- **A `Trim` shrinks exactly when it does not meet an exact fit**, where its stores succeed. -/
theorem trimOK_iff (h : Synced w.disk m) (ht : Tidy P w m) (hsys : sys.OK) :
    TrimOK P w.disk m.dict (m.trim P sys w.disk) ↔
      (m.actualSize ≠ 0 → 4 + (regionOf m.dict).length ≠ w.disk.data.length) := by
  by_cases h0 : m.actualSize = 0
  · exact iff_of_true (trimOK_of_empty h ht hsys h0) fun hne => absurd h0 hne
  · have hle := ht.framed.length_le h h0
    have hroom := h.image.fits
    have hbounded := h.image.bounded
    rw [← h.actualSize] at hroom hbounded
    have htrim := MMKV.trim_trimmed (P := P) h hsys h0 (by omega)
    refine ⟨fun hok _ hfit => not_trimOK_of_exact_fit h ht htrim hfit hok, fun hfit => ?_⟩
    have hne := hfit h0
    exact trimOK_of_spare h ht htrim (by omega)

/-- **`Trim` only shrinks, but for the exact fit.**  In every state of a run over files whose region this library wrote,
with or without a key, a `Trim` that returns nil leaves a file that is not longer, has room for the region and at most a
page or twice the room, and still holds the map, unless the map's region fills the file to its last byte. -/
theorem trim_shrinks_iff {cfg : Config} {sys₀ : Sys} {mi : MetaInfo} {dict : Dict} {acts : List Act}
    (hstored : Stored (cfg.crypt P) d mi dict) (hframed : Framed (cfg.crypt P) d mi) (hro : cfg.readOnly = false)
    (hacts : Along (Act.OK P) (World.step P) (World.start P cfg sys₀ d) acts) :
    let w := run (World.step P) (World.start P cfg sys₀ d) acts
    ∃ m, w.inst = .ok m ∧ ∀ sys, sys.remap = none → (m.exec P sys w.disk .trim).err = none →
      (TrimOK P w.disk (m.checkLoadData w.disk sys).dict (m.exec P sys w.disk .trim) ↔
        ((m.checkLoadData w.disk sys).actualSize ≠ 0 →
          4 + (regionOf (m.checkLoadData w.disk sys).dict).length ≠ w.disk.data.length)) := by
  obtain ⟨m₁, h₁, ht₁⟩ := tidy_start sys₀ hstored hframed hro
  have hstep : ∀ w s a, (∃ m, Tracks w s m ∧ Tidy P w m) → Act.OK P w a →
      ∃ m, Tracks (w.step P a) (s.step P a) m ∧ Tidy P (w.step P a) m := by
    rintro w s a ⟨m, h, ht⟩ hok
    exact step_tidy h ht hok
  obtain ⟨m, h, ht⟩ := hacts.simulation hstep ⟨m₁, h₁, ht₁⟩
  intro w
  obtain ⟨m₀, hinst, -⟩ := h.inst_eq
  refine ⟨m₀, hinst, fun sys hremap herr => ?_⟩
  rw [MMKV.exec, h.mutate hinst hremap] at herr ⊢
  rw [h.checkLoadData hinst hremap, MMKV.trim_mended herr]
  exact trimOK_iff h.synced ht sys.mended_ok

end Runs

/-! ### A file with room to spare, and one that is full -/

/-- The store of one short value is cut to what it is. -/
theorem trim_shrinks_one :
    let w := run (World.step linux) (World.start linux defaults calm ⟨[], []⟩) [.call (.set [97] (.bool true)) calm]
    ∃ m, w.inst = .ok m ∧ TrimOK linux w.disk ((∅ : Dict).insert [97] [1]) (m.exec linux calm w.disk .trim) := by
  obtain ⟨hrun, hacts⟩ := run_first_set (P := linux) (show defaults.readOnly = false from rfl) calm_ok [97] (.bool true)
    (by simp) (by decide)
  obtain ⟨-, -, hsynced⟩ := first_set (P := linux) (show defaults.readOnly = false from rfl) calm_ok [97] (.bool true)
    (by simp) (by decide)
  obtain ⟨m, hinst, hiff⟩ := trim_shrinks_iff (.inr ⟨blank_absent, rfl, rfl⟩) (.inl rfl) rfl hacts
  rw [hrun] at hinst hiff ⊢
  cases hinst
  refine ⟨_, rfl, ?_⟩
  have htrim := MMKV.trim_trimmed (P := linux) hsynced calm_ok (by decide +kernel) (by decide +kernel)
  have hcall := hiff calm rfl (by rw [MMKV.exec, MMKV.mutate_of_synced hsynced]; exact htrim.err)
  have hprobe : MMKV.checkLoadData _ _ calm = _ := MMKV.checkLoadData_of_synced hsynced
  have hlength : (defaults.firstDisk linux calm [97] (.bool true)).data.length = 4096 := MMKV.length_rewritten ..
  rw [hprobe, hlength] at hcall
  exact hcall.2 fun _ => by decide +kernel

/-- A value that fills the file of one page to its last byte. -/
def filling : Value := .bytes (zeros 4082)

lemma length_regionOf_filling : (regionOf ((∅ : Dict).insert [97] filling.blob)).length = 4092 := by
  rw [regionOf_singleton]
  decide +kernel

lemma synced_filling :
    let acts : List Act := [.call (.set [97] (.bool true)) calm, .call (.set [97] filling) calm]
    ∃ d m, run (World.step linux) (World.start linux defaults calm ⟨[], []⟩) acts = ⟨d, .ok m⟩ ∧
      Along (Act.OK linux) (World.step linux) (World.start linux defaults calm ⟨[], []⟩) acts ∧ Synced d m ∧
      d.data.length = 4096 ∧ m.crypt = none ∧ m.dict = (∅ : Dict).insert [97] filling.blob := by
  intro acts
  obtain ⟨hrun, hfirst, -⟩ := run_first_set (P := linux) (show defaults.readOnly = false from rfl) calm_ok [97] (.bool true)
    (by simp) (by decide)
  obtain ⟨-, -, hsynced⟩ := first_set (P := linux) (show defaults.readOnly = false from rfl) calm_ok [97] (.bool true)
    (by simp) (by decide)
  obtain ⟨hstep, hok, hsynced', hlength, hm⟩ := override_set (P := linux) (v := filling) hsynced calm_ok
    (show ([97] : Bytes) ≠ [] by simp) rfl (by decide +kernel) (by decide +kernel) (by decide +kernel)
  rw [run_cons, run_nil] at hrun
  refine ⟨_, _, ?_, ⟨hfirst, by rw [hrun]; exact hok, trivial⟩, hsynced', hlength.trans (MMKV.length_rewritten ..), ?_, ?_⟩
  · rw [run_cons, run_cons, run_nil, hrun, hstep]
  · rw [hm]
    rfl
  · rw [hm]
    exact OrdMap.insert_of_size_eq_one (by decide +kernel) (by decide +kernel) _

/-- A `Trim` of that store doubles its file. -/
theorem exact_fit_grows :
    let acts : List Act := [.call (.set [97] (.bool true)) calm, .call (.set [97] filling) calm]
    let w := run (World.step linux) (World.start linux defaults calm ⟨[], []⟩) acts
    ∃ m, w.inst = .ok m ∧ w.disk.data.length = 4096 ∧ (m.exec linux calm w.disk .trim).err = none ∧
      (w.disk.apply (m.exec linux calm w.disk .trim).writes).data.length = 8192 := by
  intro acts w
  obtain ⟨d, m, hw, -, hsynced, hlength, -, hdict⟩ := synced_filling
  have hregion := length_regionOf_filling
  rw [← hdict] at hregion
  have hmapped : m.data.size = 4096 := by rw [hsynced.data, ← hlength]
  have h0 : m.actualSize ≠ 0 := by
    intro h0
    have hempty := hsynced.dict_eq_empty h0
    rw [hempty] at hregion
    exact absurd hregion (by decide)
  have htrim := MMKV.trim_trimmed (P := linux) hsynced calm_ok h0 (by omega)
  rw [show w = _ from hw]
  refine ⟨m, rfl, hlength, ?_⟩
  rw [MMKV.exec, MMKV.mutate_of_synced hsynced]
  refine ⟨htrim.err, ?_⟩
  have hround : pageRoundUp linux (4096 * 2) = 8192 := by decide
  have hactual := htrim.actualSize_eq
  rw [htrim.size, hregion, MMKV.grownSize_of_exact_fit (by omega) (by decide), hround, shrunkSize, if_pos]
  rw [trimTarget, hactual, hregion, show halveUntil ((4092 + 4) * 2) 8192 8192 = 8192 by rw [halveUntil, if_neg (by decide)]]
  exact Nat.le_max_left ..

end MmkvGo.Store
