import MmkvGo.Store.Run

/-!
What a set puts on disk when nothing bounds its lengths (`Leaves`).  The region that `Op.regionAfter` reads off the
instance before the call is there in full, whichever path the set takes; the 32 bits of the meta have its length cut.
-/

namespace MmkvGo.Store

open MmkvGo.Lib MmkvGo.Wire MmkvGo.Crypt Std

/-! ### What the write paths leave on disk -/

section Leaves

variable {P : Platform} {sys : Sys} {d : Disk} {m : MMKV}

lemma Synced.leaves (h : Synced d m) (hpos : 0 < m.info.actualSize) : Leaves m.crypt d m.info (m.plainRegion d) := by
  have hlen := h.steady.length_plainRegion
  have hcipher : cipherOf m.crypt m.info.iv (m.plainRegion d) = d.region m.info.actualSize := cipherOf_plainOf ..
  refine ⟨h.image.parse, h.image.version_eq hpos, ?_, ?_, ?_, fun _ => ?_⟩
  · rw [hlen, UInt32.ofNat_toNat]
  · rw [hlen]
    exact h.image.fits
  · rw [hlen, hcipher, Disk.region]
  · rw [hcipher, h.image.crc]

/-- **A full write-back**, of whatever map. -/
theorem MMKV.leaves_fullWritebackGrow (hdata : m.data = ⟨d.data.length, true⟩) (hcrc : metaSize ≤ d.crc.length)
    (hsys : sys.OK) (needSync : Bool) (incoming : ℕ) :
    Leaves m.crypt (d.apply (m.fullWritebackGrow P sys d needSync incoming).writes)
      (m.writtenInfo (m.stored sys) (m.nextIV sys)) (regionOf m.dict) := by
  have hwrites := fullWritebackGrow_writes (P := P) hdata hsys needSync incoming
  have hroom := lt_grownSize (P := P) (m := m) (4 + (regionOf m.dict).length + incoming) needSync incoming
  generalize m.grownSize P (4 + (regionOf m.dict).length + incoming) needSync incoming = size at hwrites hroom
  have hd : d.apply (m.fullWritebackGrow P sys d needSync incoming).writes =
      ⟨rewritten d size (m.stored sys), patch d.crc 0 (m.writtenInfo (m.stored sys) (m.nextIV sys)).marshal⟩ := by
    rw [hwrites, apply_fullWriteback]
  exact leaves_of_stored hd hcrc rfl (by omega) rfl rfl rfl

/-- **An append** to a plaintext region, of whatever pair. -/
theorem MMKV.leaves_appendRaw {pair : Bytes} (h : Synced d m) (hcrypt : m.crypt = none) (hpos : 0 < m.info.actualSize)
    (hroom : 4 + m.actualSize.toNat + pair.length ≤ d.data.length) :
    Leaves m.crypt (d.apply (m.appendRaw pair).1) (m.appendedInfo pair) (m.plainRegion d ++ pair) := by
  have hplain : m.plainRegion d = d.region m.info.actualSize := by
    rw [plainRegion, hcrypt]
    rfl
  have hlen : (m.plainRegion d ++ pair).length = m.actualSize.toNat + pair.length := by
    rw [List.length_append, h.steady.length_plainRegion, h.actualSize]
  have hcipher : ∀ iv, cipherOf m.crypt iv (m.plainRegion d ++ pair) = d.region m.info.actualSize ++ pair := by
    intro iv
    rw [hcrypt, hplain]
    rfl
  rw [apply_appendRaw]
  refine ⟨parseMeta_putUint32_crc_size h.image.parse _ _, h.image.version_eq hpos, ?_, ?_, ?_, fun _ => ?_⟩
  · rw [hlen, UInt32.ofNat_add, UInt32.ofNat_toNat]
    rfl
  · rw [length_patch, hlen]
    omega
  · rw [hlen, hcipher, ← Nat.add_assoc, slice_patch_end (by omega) hroom, h.actualSize, Disk.region]
  · rw [hcipher, ← Crc32.update_checksum, h.image.crc, ← h.crcDigest]
    rfl

/-- **An override**, with whatever pair. -/
theorem MMKV.leaves_override {pair : Bytes} (hparse : parseMeta d.crc = .ok m.info) (hcrypt : m.crypt = none)
    (hver : m.info.version = versionFlag) (hroom : 4 + itemSizeHolderBytes.length + pair.length ≤ d.data.length) :
    Leaves m.crypt (d.apply (dataWrites 4 (itemSizeHolderBytes ++ pair) ++
        metaWords (m.overridingInfo pair).crcDigest (m.overridingInfo pair).actualSize)) (m.overridingInfo pair)
      (itemSizeHolderBytes ++ pair) := by
  have hlen : (itemSizeHolderBytes ++ pair).length = itemSizeHolderBytes.length + pair.length := List.length_append
  have hcipher : ∀ iv, cipherOf m.crypt iv (itemSizeHolderBytes ++ pair) = itemSizeHolderBytes ++ pair := by
    intro iv
    rw [hcrypt]
    rfl
  rw [Disk.apply_append, Disk.apply_dataWrites, apply_metaWords]
  refine ⟨parseMeta_putUint32_crc_size hparse _ _, hver, ?_, ?_, ?_, fun hlt => ?_⟩
  · rw [hlen]
    rfl
  · rw [length_patch, hlen]
    omega
  · rw [hcipher]
    exact slice_patch_self (by omega)
  · rw [hcipher, overridingInfo_eq (by omega)]
    rfl

lemma Synced.parse_append {key blob : Bytes} (h : Synced d m) (hpos : 0 < m.info.actualSize) (hk : key ≠ [])
    (hlt : (m.plainRegion d ++ pairBytes key blob).length < 2 ^ 32) :
    parseDict (m.plainRegion d ++ pairBytes key blob) = .ok (applyPair m.dict key blob) := by
  have hne : m.plainRegion d ≠ [] := by
    rw [UInt32.lt_iff_toNat_lt, ← h.steady.length_plainRegion] at hpos
    exact List.length_pos_iff.1 hpos
  have hle := le_pairSize key blob
  rw [← length_pairBytes] at hle
  rw [List.length_append] at hlt
  exact parseDict_append_pair hne h.image.decoded hk (by omega) (by omega)

/-! ### Setting a slot -/

/-- **A set that returns nil**, whatever the lengths: the region it leaves on disk. -/
theorem setBlob_leaves {key slot : Bytes} (h : Synced d m) (herr : (m.setBlob P sys d key slot).err = none) :
    ∃ mi, Leaves m.crypt (d.apply (m.setBlob P sys d key slot).writes) mi (m.regionAfterSet d key slot) := by
  rw [MMKV.regionAfterSet]
  by_cases hover : m.overrides key (pairBytes key slot) = true
  · obtain ⟨hcrypt, hver, -, hroom, -⟩ := MMKV.overrides_of_steady h.steady hover
    rw [if_pos hover, MMKV.setBlob_overriding h.data hroom hover]
    exact ⟨_, MMKV.leaves_override h.image.parse hcrypt hver hroom⟩
  rw [if_neg hover]
  rw [Bool.not_eq_true] at hover
  by_cases happend : m.appends (pairBytes key slot) = true
  · obtain ⟨hcrypt, hpos, -, hroom⟩ := MMKV.appends_of_steady h.steady happend
    rw [if_pos happend, MMKV.setBlob_of_appends h.data hover happend]
    exact ⟨_, MMKV.leaves_appendRaw h hcrypt hpos hroom⟩
  · rw [if_neg happend]
    rw [Bool.not_eq_true] at happend
    rw [MMKV.setBlob_of_neither hover happend] at herr ⊢
    rw [MMKV.fullWritebackGrow_mended herr]
    exact ⟨_, MMKV.leaves_fullWritebackGrow (m := { m with dict := m.dict.insert key slot }) h.data
      h.image.metaSize_le sys.mended_ok _ _⟩

/-- **The region after a set parses to the map with the key bound.** -/
theorem Synced.parse_regionAfterSet {key slot : Bytes} (h : Synced d m) (hk : key ≠ []) (hne : slot ≠ [])
    (hlt : (m.regionAfterSet d key slot).length < 2 ^ 32) :
    parseDict (m.regionAfterSet d key slot) = .ok (m.dict.insert key slot) := by
  have hle := le_pairSize key slot
  rw [← length_pairBytes] at hle
  rw [MMKV.regionAfterSet] at hlt ⊢
  by_cases hover : m.overrides key (pairBytes key slot) = true
  · rw [if_pos hover] at hlt ⊢
    rw [List.length_append] at hlt
    rw [h.steady.insert_of_overrides hne hover]
    exact parseDict_append_pair (by decide) parseDict_itemSizeHolderBytes hk (by omega) (by omega)
  rw [if_neg hover] at hlt ⊢
  by_cases happend : m.appends (pairBytes key slot) = true
  · rw [if_pos happend] at hlt ⊢
    obtain ⟨-, hpos, -, -⟩ := MMKV.appends_of_steady h.steady happend
    rw [h.parse_append hpos hk hlt, applyPair, if_neg hne]
  · rw [if_neg happend] at hlt ⊢
    exact parseDict_regionOf (h.image.wf.insert hk hne) hlt

end Leaves

end MmkvGo.Store
