import MmkvGo.Store.Image

/-!
The write paths of an instance that maps its whole data file: the tail append, the override from the region's start, the
full write-back, the clear and the shrink of `Trim`.  For each path, what it stores and the map the files hold
afterwards.  A path is specified once, over an instance whose dict may already differ from its files; the
operations are compositions of these.
-/

namespace MmkvGo.Store

open MmkvGo.Lib MmkvGo.Wire MmkvGo.Crypt Std

/-! ### The loops on the file size -/

theorem lt_doubleUntil {target : ℕ} (fuel n : ℕ) (h : target < n * 2 ^ fuel) :
    target < doubleUntil target fuel n := by
  induction fuel generalizing n with
  | zero => simpa [doubleUntil] using h
  | succ fuel ih =>
    rw [doubleUntil]
    split
    · exact ih _ (by rw [mul_assoc, ← pow_succ']; exact h)
    · omega

lemma le_doubleUntil (target fuel n : ℕ) : n ≤ doubleUntil target fuel n := by
  induction fuel generalizing n with
  | zero => exact le_rfl
  | succ fuel ih =>
    rw [doubleUntil]
    split
    · exact Nat.le_trans (by omega) (ih (n * 2))
    · exact le_rfl

theorem le_halveUntil (half fuel n : ℕ) (h : half ≤ n) : half ≤ halveUntil (half * 2) fuel n := by
  induction fuel generalizing n with
  | zero => simpa [halveUntil] using h
  | succ fuel ih =>
    rw [halveUntil]
    split
    · exact ih _ (by omega)
    · exact h

lemma le_growthTarget (count lenNeeded incoming : ℕ) : lenNeeded ≤ growthTarget count lenNeeded incoming := by
  rw [growthTarget]
  split
  · exact Nat.le_add_right ..
  · exact le_rfl

theorem lt_of_growth_none {fileSize count lenNeeded incoming : ℕ} {needSync : Bool}
    (h : growth fileSize count lenNeeded needSync incoming = none) : lenNeeded < fileSize := by
  by_contra hle
  rw [growth, if_pos (.inl (by omega))] at h
  cases h

theorem growthTarget_lt_of_growth_some {fileSize count lenNeeded incoming newSize : ℕ} {needSync : Bool}
    (h : growth fileSize count lenNeeded needSync incoming = some newSize) :
    growthTarget count lenNeeded incoming < newSize := by
  rw [growth] at h
  split at h
  · -- the loop ends above its target
    obtain rfl := Option.some.inj h
    refine lt_doubleUntil _ _ ?_
    generalize growthTarget count lenNeeded incoming = target
    calc target < 2 ^ target := Nat.lt_two_pow_self
      _ ≤ 2 ^ (target + 1) := Nat.pow_le_pow_right (by decide) (by omega)
      _ ≤ max fileSize 1 * 2 ^ (target + 1) := Nat.le_mul_of_pos_left _ (by omega)
  · cases h

theorem lt_of_growth_some {fileSize count lenNeeded incoming newSize : ℕ} {needSync : Bool}
    (h : growth fileSize count lenNeeded needSync incoming = some newSize) : lenNeeded < newSize :=
  Nat.lt_of_le_of_lt (le_growthTarget count lenNeeded incoming) (growthTarget_lt_of_growth_some h)

theorem le_trimTarget (P : Platform) {fileSize : ℕ} {actualSize : UInt32} (h : 4 + actualSize.toNat ≤ fileSize) :
    4 + actualSize.toNat ≤ trimTarget P fileSize actualSize := by
  have := le_halveUntil (actualSize.toNat + 4) fileSize fileSize (by omega)
  rw [trimTarget]
  omega

/-- The size of the data file after a `Trim` that finds it with `fileSize` bytes: it is never made longer. -/
def shrunkSize (P : Platform) (fileSize : ℕ) (actualSize : UInt32) : ℕ :=
  if fileSize ≤ trimTarget P fileSize actualSize then fileSize else pageRoundUp P (trimTarget P fileSize actualSize)

theorem le_shrunkSize (P : Platform) {fileSize : ℕ} {actualSize : UInt32} (h : 4 + actualSize.toNat ≤ fileSize) :
    4 + actualSize.toNat ≤ shrunkSize P fileSize actualSize := by
  rw [shrunkSize]
  split
  · exact h
  · exact Nat.le_trans (le_trimTarget P h) (le_pageRoundUp P _)

lemma pageSize_le_shrunkSize {P : Platform} {fileSize : ℕ} (h : P.pageSize ≤ fileSize) (actualSize : UInt32) :
    P.pageSize ≤ shrunkSize P fileSize actualSize := by
  rw [shrunkSize]
  split
  · exact h
  · exact pageSize_le_pageRoundUp P _

/-! ### The full write-back -/

namespace MMKV

variable {P : Platform} {sys : Sys} {d : Disk} {m : MMKV}

/-- The size of the data file after a full write-back that needs `lenNeeded` bytes. -/
def grownSize (P : Platform) (m : MMKV) (lenNeeded : ℕ) (needSync : Bool) (incoming : ℕ) : ℕ :=
  match growth m.data.size m.dict.size lenNeeded needSync incoming with
  | none => m.data.size
  | some newSize => pageRoundUp P newSize

theorem lt_grownSize (lenNeeded : ℕ) (needSync : Bool) (incoming : ℕ) :
    lenNeeded < m.grownSize P lenNeeded needSync incoming := by
  rw [grownSize]
  split
  · next h => exact lt_of_growth_none h
  · next newSize h => exact Nat.lt_of_lt_of_le (lt_of_growth_some h) (le_pageRoundUp P newSize)

lemma le_grownSize (lenNeeded : ℕ) (needSync : Bool) (incoming : ℕ) :
    m.data.size ≤ m.grownSize P lenNeeded needSync incoming := by
  rw [grownSize]
  split
  · exact le_rfl
  · next newSize h =>
    rw [growth] at h
    split at h
    · obtain rfl := Option.some.inj h
      have hle := le_doubleUntil (growthTarget m.dict.size lenNeeded incoming)
        (growthTarget m.dict.size lenNeeded incoming + 1) (max m.data.size 1)
      exact Nat.le_trans (by omega) (le_pageRoundUp P _)
    · cases h

lemma grownSize_of_lt {lenNeeded incoming : ℕ} (h : lenNeeded < m.data.size) :
    m.grownSize P lenNeeded false incoming = m.data.size := by
  have hgrowth : growth m.data.size m.dict.size lenNeeded false incoming = none := by
    rw [growth, if_neg]
    simpa using h
  rw [grownSize, hgrowth]

lemma grow_ok (hdata : m.data = ⟨d.data.length, true⟩) (hsys : sys.OK) (lenNeeded : ℕ) (needSync : Bool)
    (incoming : ℕ) :
    m.grow P sys lenNeeded needSync incoming =
      (resizeWrites d.data.length (m.grownSize P lenNeeded needSync incoming),
        ⟨m.grownSize P lenNeeded needSync incoming, true⟩, none) := by
  simp only [grow, grownSize, hdata, hsys.grow]
  cases growth d.data.length m.dict.size lenNeeded needSync incoming with
  | none => simp [resizeWrites]
  | some newSize => exact MemoryFile.truncate_ok P _ newSize

/-- The IV of the next full write-back: a fresh one when there is a key. -/
def nextIV (m : MMKV) (sys : Sys) : Block := if m.crypt.isSome then sys.iv.getD m.info.iv else m.info.iv

/-- What a full write-back of the instance's map puts on disk. -/
def stored (m : MMKV) (sys : Sys) : Bytes := cipherOf m.crypt (m.nextIV sys) (regionOf m.dict)

@[simp] lemma length_stored (m : MMKV) (sys : Sys) : (m.stored sys).length = (regionOf m.dict).length :=
  length_cipherOf ..

lemma payload_ok (m : MMKV) (hsys : sys.OK) :
    m.payload sys (regionOf m.dict) = .ok (m.stored sys, m.nextIV sys) := by
  obtain ⟨iv, hiv⟩ := Option.isSome_iff_exists.1 hsys.iv
  unfold payload stored nextIV
  cases m.crypt with
  | none => rfl
  | some E => simp [hiv, encrypt_block, cipherOf]

/-- The meta a full write-back stores. -/
def writtenInfo (m : MMKV) (ct : Bytes) (iv : Block) : MetaInfo :=
  { m.info with
    iv := iv
    sequence := m.info.sequence + 1
    version := versionFlag
    actualSize := UInt32.ofNat ct.length
    crcDigest := Crc32.checksum ct
    lastActualSize := UInt32.ofNat ct.length
    lastCRCDigest := Crc32.checksum ct }

/-- The instance after it rewrote its files with the map `dict`, under the meta `mi` and in `size` bytes. -/
def written (m : MMKV) (size : ℕ) (mi : MetaInfo) (dict : Dict) : MMKV :=
  { m with
    data := ⟨size, true⟩
    info := mi
    actualSize := mi.actualSize
    crcDigest := mi.crcDigest
    dict := dict
    needFullWriteback := false }

/-- The stores to the data file of a full write-back from the size `old` to the size `new`. -/
def regionWrites (old new : ℕ) (ct : Bytes) : List Write :=
  resizeWrites old new ++ dataWrites 0 (List.replicate 4 0) ++ dataWrites 4 ct

/-- The data file after those stores. -/
def rewritten (d : Disk) (new : ℕ) (ct : Bytes) : Bytes :=
  patch (patch (resize 0 d.data new) 0 (List.replicate 4 0)) 4 ct

lemma apply_regionWrites (d : Disk) (new : ℕ) (ct : Bytes) :
    d.apply (regionWrites d.data.length new ct) = { d with data := rewritten d new ct } := by
  rw [regionWrites, Disk.apply_append, Disk.apply_append, Disk.apply_resizeWrites, Disk.apply_dataWrites,
    Disk.apply_dataWrites]
  rfl

@[simp] lemma length_rewritten (d : Disk) (new : ℕ) (ct : Bytes) : (rewritten d new ct).length = new := by
  simp [rewritten]

lemma slice_rewritten {new : ℕ} {ct : Bytes} (h : 4 + ct.length ≤ new) :
    slice (rewritten d new ct) 4 (4 + ct.length) = ct :=
  slice_patch_self (by simpa using h)

/-- **A full write-back, step by step**: its stores, and what it does with the dict it reads back. -/
theorem fullWritebackGrow_eq (hdata : m.data = ⟨d.data.length, true⟩) (hsys : sys.OK) (needSync : Bool)
    (incoming : ℕ) :
    let size := m.grownSize P (4 + (regionOf m.dict).length + incoming) needSync incoming
    let mi := m.writtenInfo (m.stored sys) (m.nextIV sys)
    let writes := regionWrites d.data.length size (m.stored sys) ++ crcWrites 0 mi.marshal
    m.fullWritebackGrow P sys d needSync incoming =
      match parseDict (regionOf m.dict) with
      | .error e => ⟨writes, { m.written size mi m.dict with needFullWriteback := m.needFullWriteback }, some e⟩
      | .ok dict => ⟨writes, m.written size mi dict, none⟩ := by
  have hpay := payload_ok m hsys
  have hlen := m.length_stored sys
  have hplain := plainOf_cipherOf m.crypt (m.nextIV sys) (regionOf m.dict)
  rw [← stored] at hplain
  rw [← hlen]
  generalize m.stored sys = ct at hpay hlen hplain ⊢
  generalize m.nextIV sys = iv at hpay hplain ⊢
  have hroom := lt_grownSize (P := P) (m := m) (4 + ct.length + incoming) needSync incoming
  have hgrow : ({ m with info := { m.info with iv := iv } } : MMKV).grow P sys (4 + ct.length + incoming) needSync
      incoming = (resizeWrites d.data.length (m.grownSize P (4 + ct.length + incoming) needSync incoming),
        ⟨m.grownSize P (4 + ct.length + incoming) needSync incoming, true⟩, none) := grow_ok hdata hsys _ _ _
  generalize m.grownSize P (4 + ct.length + incoming) needSync incoming = size at hgrow hroom ⊢
  -- the bytes the code reads back through the mapping are those it just stored
  have hmem : slice ((⟨size, true⟩ : MemoryFile).memory (d.apply (regionWrites d.data.length size ct))) 4
      (4 + ct.length) = ct := by
    rw [apply_regionWrites, MemoryFile.memory, if_pos rfl, slice_take (show 4 + ct.length ≤ size by omega)]
    exact slice_rewritten (by omega)
  simp only [regionWrites] at hmem ⊢
  -- without a key the payload is the region
  have hsrc : (if m.crypt.isNone then ct else regionOf m.dict) = regionOf m.dict := by
    cases hc : m.crypt with
    | none =>
      rw [hc] at hplain
      exact hplain
    | some E => rfl
  have hflush : flush sys = none := by simp [flush, msync, hsys.syncData, hsys.syncMeta]
  simp only [fullWritebackGrow, hpay, hgrow, ← hlen, hmem, hsrc, hflush]
  cases parseDict (regionOf m.dict) with
  | error e => rfl
  | ok dict => cases needSync <;> rfl

/-- What a completed rewrite of the files did: they hold `dict` under a meta with the next sequence number, and the
last-confirmed snapshot is the current one. -/
structure Rewritten (P : Platform) (d : Disk) (m : MMKV) (mi : MetaInfo) (dict : Dict) (r : Result) : Prop where
  err : r.err = none
  image : Image m.crypt (d.apply r.writes) mi dict
  instance_eq : r.m = m.written (d.apply r.writes).data.length mi dict
  version : mi.version = versionFlag
  sequence : mi.sequence = m.info.sequence + 1
  flags : mi.flags = m.info.flags
  lastActualSize : mi.lastActualSize = mi.actualSize
  lastCRCDigest : mi.lastCRCDigest = mi.crcDigest
  floor : P.pageSize ≤ d.data.length → P.pageSize ≤ (d.apply r.writes).data.length
  crcLength : (d.apply r.writes).crc.length = d.crc.length

lemma expireEnabled_congr {a b : MetaInfo} (h : a.flags = b.flags) : a.expireEnabled = b.expireEnabled := by
  rw [MetaInfo.expireEnabled, h, MetaInfo.expireEnabled]

theorem Rewritten.synced {mi : MetaInfo} {dict : Dict} {r : Result} (h : Rewritten P d m mi dict r)
    (hexp : m.enableExpire = m.info.expireEnabled) (hload : m.needLoad = false) (hclosed : m.closed = false)
    (hro : m.readOnly = false) : Synced (d.apply r.writes) r.m := by
  rw [h.instance_eq]
  exact ⟨h.image, rfl, rfl, rfl, hexp.trans (expireEnabled_congr h.flags).symm, hload, rfl, hclosed, hro⟩

lemma apply_fullWriteback (d : Disk) (size : ℕ) (ct : Bytes) (mi : MetaInfo) :
    d.apply (regionWrites d.data.length size ct ++ crcWrites 0 mi.marshal) =
      ⟨rewritten d size ct, patch d.crc 0 mi.marshal⟩ := by
  rw [Disk.apply_append, apply_regionWrites, Disk.apply_crcWrites]

lemma leaves_of_stored {crypt : Option Cipher} {d d' : Disk} {size : ℕ} {ct plain : Bytes} {mi : MetaInfo}
    (hd : d' = ⟨rewritten d size ct, patch d.crc 0 mi.marshal⟩) (hcrc : metaSize ≤ d.crc.length)
    (hct : ct = cipherOf crypt mi.iv plain) (hroom : 4 + plain.length ≤ size) (hver : mi.version = versionFlag)
    (hact : mi.actualSize = UInt32.ofNat ct.length) (hsum : mi.crcDigest = Crc32.checksum ct) :
    Leaves crypt d' mi plain := by
  have hlen : ct.length = plain.length := by rw [hct, length_cipherOf]
  have hdata : d'.data = rewritten d size ct := by rw [hd]
  have hmeta : d'.crc = patch d.crc 0 mi.marshal := by rw [hd]
  refine ⟨?_, hver, by rw [hact, hlen], ?_, ?_, fun _ => by rw [hsum, hct]⟩
  · rw [hmeta]
    exact parseMeta_patch_marshal mi hcrc
  · rw [hdata, length_rewritten]
    exact hroom
  · rw [← hct, ← hlen, hdata]
    exact slice_rewritten (by omega)

lemma sealed_of_stored {d d' : Disk} {size : ℕ} {ct : Bytes} {mi : MetaInfo}
    (hd : d' = ⟨rewritten d size ct, patch d.crc 0 mi.marshal⟩)
    (hcrc : metaSize ≤ d.crc.length) (hroom : 4 + ct.length ≤ size) (hbounded : 4 + ct.length < 2 ^ 32)
    (hver : mi.version = versionFlag) (hact : mi.actualSize = UInt32.ofNat ct.length)
    (hsum : mi.crcDigest = Crc32.checksum ct) : Sealed d' mi ∧ d'.region mi.actualSize = ct := by
  have hleaves : Leaves none d' mi ct := leaves_of_stored hd hcrc rfl hroom hver hact hsum
  obtain ⟨h, hregion⟩ := hleaves.readable hbounded
  exact ⟨⟨h.parse, .inl hver, h.fits, h.bounded, h.crc⟩, hregion⟩

lemma image_of_stored (crypt : Option Cipher) {d d' : Disk} {size : ℕ} {ct : Bytes} {mi : MetaInfo} {dict : Dict}
    (hd : d' = ⟨rewritten d size ct, patch d.crc 0 mi.marshal⟩)
    (hcrc : metaSize ≤ d.crc.length) (hroom : 4 + ct.length ≤ size) (hbounded : 4 + ct.length < 2 ^ 32)
    (hver : mi.version = versionFlag) (hact : mi.actualSize = UInt32.ofNat ct.length)
    (hsum : mi.crcDigest = Crc32.checksum ct) (hdict : parseDict (plainOf crypt mi.iv ct) = .ok dict)
    (hst : Stamped mi dict) : Image crypt d' mi dict := by
  obtain ⟨hsealed, hregion⟩ := sealed_of_stored hd hcrc hroom hbounded hver hact hsum
  exact ⟨hsealed, by rw [hregion, hdict], hst⟩

lemma fullWritebackGrow_writes (hdata : m.data = ⟨d.data.length, true⟩) (hsys : sys.OK) (needSync : Bool)
    (incoming : ℕ) :
    (m.fullWritebackGrow P sys d needSync incoming).writes =
      regionWrites d.data.length (m.grownSize P (4 + (regionOf m.dict).length + incoming) needSync incoming)
        (m.stored sys) ++ crcWrites 0 (m.writtenInfo (m.stored sys) (m.nextIV sys)).marshal := by
  rw [fullWritebackGrow_eq hdata hsys]
  split <;> rfl

/-- **After a full write-back the meta describes the region**, whatever the map is, as long as 32 bits address it. -/
theorem fullWritebackGrow_sealed (hdata : m.data = ⟨d.data.length, true⟩) (hcrc : metaSize ≤ d.crc.length)
    (hsys : sys.OK) (hlt : 4 + (regionOf m.dict).length < 2 ^ 32) (needSync : Bool) (incoming : ℕ) :
    let d' := d.apply (m.fullWritebackGrow P sys d needSync incoming).writes
    let mi := m.writtenInfo (m.stored sys) (m.nextIV sys)
    Sealed d' mi ∧ d'.region mi.actualSize = m.stored sys ∧
      d'.data.length = m.grownSize P (4 + (regionOf m.dict).length + incoming) needSync incoming ∧
      d'.crc.length = d.crc.length := by
  have hwrites := fullWritebackGrow_writes (P := P) hdata hsys needSync incoming
  have hroom := lt_grownSize (P := P) (m := m) (4 + (regionOf m.dict).length + incoming) needSync incoming
  have hlen := m.length_stored sys
  intro d' mi
  generalize m.grownSize P (4 + (regionOf m.dict).length + incoming) needSync incoming = size at hwrites hroom ⊢
  have hd : d' = ⟨rewritten d size (m.stored sys), patch d.crc 0 mi.marshal⟩ := by
    rw [← apply_fullWriteback, ← hwrites]
  obtain ⟨hsealed, hregion⟩ := sealed_of_stored hd hcrc (by omega) (by omega) rfl rfl rfl
  refine ⟨hsealed, hregion, ?_, ?_⟩
  · rw [hd, length_rewritten]
  · rw [hd, length_patch]

lemma pageSize_le_grownSize (hpage : P.pageSize ≤ m.data.size) (lenNeeded : ℕ) (needSync : Bool) (incoming : ℕ) :
    P.pageSize ≤ m.grownSize P lenNeeded needSync incoming := by
  rw [grownSize]
  split
  · exact hpage
  · exact pageSize_le_pageRoundUp P _

/-- **A full write-back stores the instance's map**, with or without timestamps in its slots. -/
theorem fullWritebackGrow_decoded (hdata : m.data = ⟨d.data.length, true⟩) (hcrc : metaSize ≤ d.crc.length)
    (hwf : WF m.dict) (hsys : sys.OK) (hlt : 4 + (regionOf m.dict).length < 2 ^ 32) (needSync : Bool) (incoming : ℕ) :
    let r := m.fullWritebackGrow P sys d needSync incoming
    let mi := m.writtenInfo (m.stored sys) (m.nextIV sys)
    r.err = none ∧ r.m = m.written (d.apply r.writes).data.length mi m.dict ∧ Sealed (d.apply r.writes) mi ∧
      parseDict (plainOf m.crypt mi.iv ((d.apply r.writes).region mi.actualSize)) = .ok m.dict ∧
      (P.pageSize ≤ d.data.length → P.pageSize ≤ (d.apply r.writes).data.length) ∧
      (d.apply r.writes).crc.length = d.crc.length := by
  obtain ⟨hsealed, hregion, hsize, hmeta⟩ := fullWritebackGrow_sealed hdata hcrc hsys hlt needSync incoming
  have heq := fullWritebackGrow_eq (P := P) hdata hsys needSync incoming
  have hparse : parseDict (regionOf m.dict) = .ok m.dict := parseDict_regionOf hwf (by omega)
  rw [hparse] at heq
  have hdec := plainOf_cipherOf m.crypt (m.nextIV sys) (regionOf m.dict)
  refine ⟨by rw [heq], ?_, hsealed, ?_, fun hpage => ?_, hmeta⟩
  · rw [hsize, heq]
  · rw [hregion, ← hparse]
    exact congrArg parseDict hdec
  · rw [hsize]
    exact pageSize_le_grownSize (by rw [hdata]; exact hpage) ..

/-- **A full write-back makes the files hold the instance's map.** -/
theorem fullWritebackGrow_spec (hdata : m.data = ⟨d.data.length, true⟩) (hcrc : metaSize ≤ d.crc.length)
    (hwf : WF m.dict) (hst : Stamped m.info m.dict) (hsys : sys.OK) (hlt : 4 + (regionOf m.dict).length < 2 ^ 32)
    (needSync : Bool) (incoming : ℕ) :
    ∃ mi, Rewritten P d m mi m.dict (m.fullWritebackGrow P sys d needSync incoming) := by
  obtain ⟨herr, hm, hsealed, hdec, hfloor, hmeta⟩ := fullWritebackGrow_decoded (P := P) hdata hcrc hwf hsys hlt needSync
    incoming
  exact ⟨_, herr, ⟨hsealed, hdec, hst⟩, hm, rfl, rfl, rfl, rfl, rfl, hfloor, hmeta⟩

lemma fullWritebackGrow_data {needSync : Bool} {incoming : ℕ} (hdata : m.data = ⟨d.data.length, true⟩)
    (hsys : sys.OK) : (m.fullWritebackGrow P sys d needSync incoming).m.data =
      ⟨(d.apply (m.fullWritebackGrow P sys d needSync incoming).writes).data.length, true⟩ := by
  rw [fullWritebackGrow_writes hdata hsys, apply_fullWriteback, length_rewritten, fullWritebackGrow_eq hdata hsys]
  split <;> rfl

/-! ### The clear -/

/-- **A clear makes the files hold the empty map.** -/
theorem clearAllLocked_spec (hdata : m.data = ⟨d.data.length, true⟩) (hcrc : metaSize ≤ d.crc.length)
    (hsys : sys.OK) : ∃ mi, Rewritten P d m mi ∅ (m.clearAllLocked P sys) := by
  have hp := P.four_le_pageSize
  have hflush : flush sys = none := by simp [flush, msync, hsys.syncData, hsys.syncMeta]
  have htrunc := MemoryFile.truncate_ok P d.data.length 0
  let mi : MetaInfo :=
    { m.info with
      sequence := m.info.sequence + 1
      version := versionFlag
      actualSize := 0
      crcDigest := 0
      lastActualSize := 0
      lastCRCDigest := 0 }
  have heq : m.clearAllLocked P sys =
      ⟨resizeWrites d.data.length P.pageSize ++ dataWrites 0 (List.replicate 4 0) ++ crcWrites 0 mi.marshal,
        m.written P.pageSize mi ∅, none⟩ := by
    simp only [clearAllLocked, hdata, hsys.grow, htrunc, hflush, pageRoundUp_zero]
    rfl
  have hd : d.apply (m.clearAllLocked P sys).writes =
      ⟨rewritten d P.pageSize [], patch d.crc 0 mi.marshal⟩ := by
    rw [heq, ← apply_fullWriteback, regionWrites]
    simp [dataWrites]
  -- an empty region parses to the empty map under every key
  have himage := image_of_stored m.crypt hd hcrc (by simpa using hp) (by decide) rfl rfl rfl
    (show parseDict (plainOf m.crypt mi.iv []) = .ok ∅ by cases m.crypt <;> rfl)
    (fun _ k v h => by simp at h)
  refine ⟨mi, by rw [heq], himage, ?_, rfl, rfl, rfl, rfl, rfl, ?_, ?_⟩
  · rw [hd, length_rewritten, heq]
  · intro _
    rw [hd, length_rewritten]
  · rw [hd, length_patch]

/-! ### The shrink of `Trim` -/

/-- The instance with `n` bytes of its data file mapped. -/
def remapped (m : MMKV) (n : ℕ) : MMKV := { m with data := ⟨n, true⟩ }

lemma remapped_self {n : ℕ} (h : m.data = ⟨n, true⟩) : m.remapped n = m := by
  cases m
  cases h
  rfl

lemma shrink_writes (hdata : m.data = ⟨d.data.length, true⟩) (hsys : sys.OK) :
    (m.shrink P sys d).writes = resizeWrites d.data.length (shrunkSize P d.data.length m.actualSize) := by
  have hsize : m.data.size = d.data.length := by rw [hdata]
  rw [shrink, hsize, shrunkSize]
  split
  · rw [resizeWrites, if_pos rfl]
  · simp only [hdata, hsys.shrink, MemoryFile.truncate_ok]
    split <;> rfl

/-- **The shrink, step by step**, on a file of whatever size: the region is read back as it was. -/
theorem shrink_eq (hdata : m.data = ⟨d.data.length, true⟩) (hfits : 4 + m.actualSize.toNat ≤ d.data.length)
    (hbounded : 4 + m.actualSize.toNat < 2 ^ 32)
    (hdec : parseDict (plainOf m.crypt m.info.iv (d.region m.actualSize)) = .ok m.dict) (hsys : sys.OK) :
    m.shrink P sys d = ⟨resizeWrites d.data.length (shrunkSize P d.data.length m.actualSize),
      m.remapped (shrunkSize P d.data.length m.actualSize), none⟩ := by
  have hsize : m.data.size = d.data.length := by rw [hdata]
  have hroom := le_shrunkSize P hfits
  rw [shrink, hsize]
  rw [shrunkSize] at hroom ⊢
  by_cases hle : d.data.length ≤ trimTarget P d.data.length m.actualSize
  · simp only [if_pos hle]
    rw [remapped_self hdata, resizeWrites, if_pos rfl]
  · simp only [if_neg hle] at hroom ⊢
    -- the region lies below the cut, so it is read back as it was
    have hregion : ∀ n, 4 + m.actualSize.toNat ≤ n →
        (m.remapped n).decodeRegion (d.apply (resizeWrites d.data.length n)) m.actualSize m.crcDigest =
          (m.remapped n, none) := by
      intro n hn
      have hsame : (d.apply (resizeWrites d.data.length n)).region m.actualSize = d.region m.actualSize := by
        rw [Disk.apply_resizeWrites]
        exact slice_resize hn hfits
      have hreg := region_eq (d := d.apply (resizeWrites d.data.length n)) (m := m.remapped n) rfl hn hbounded
      rw [decodeRegion_ok _ hreg (by rw [hsame]; exact hdec)]
      rfl
    have hread := hregion _ hroom
    have hsync : msync sys.syncTrim = none := by simp [msync, hsys.syncTrim]
    simp only [remapped] at hread ⊢
    simp only [hdata, hsys.shrink, MemoryFile.truncate_ok, hread, hsync]

/-- **The shrink keeps what the instance holds.** -/
theorem shrink_spec (h : Synced d m) (hsys : sys.OK) :
    ∃ n, m.shrink P sys d = ⟨resizeWrites d.data.length n, m.remapped n, none⟩ ∧
      4 + m.info.actualSize.toNat ≤ n ∧ (P.pageSize ≤ d.data.length → P.pageSize ≤ n) := by
  have hact := h.actualSize
  have hroom := le_shrunkSize P h.image.fits
  rw [← hact] at hroom
  have heq := shrink_eq (P := P) h.data (by rw [hact]; exact h.image.fits) (by rw [hact]; exact h.image.bounded)
    (by rw [hact]; exact h.image.decoded) hsys
  rw [← hact]
  exact ⟨_, heq, hroom, fun hpage => pageSize_le_shrunkSize hpage _⟩

/-- **`Trim` keeps the map**, compacted and in a file that may be smaller. -/
theorem trim_spec (h : Synced d m) (hsys : sys.OK)
    (hlt : m.actualSize ≠ 0 → 4 + (regionOf m.dict).length < 2 ^ 32) :
    ∃ mi, Rewritten P d m mi m.dict (m.trim P sys d) := by
  by_cases h0 : m.actualSize = 0
  · -- an empty region is the empty map
    rw [trim, if_pos h0, h.dict_eq_empty h0]
    exact clearAllLocked_spec h.data h.image.metaSize_le hsys
  · obtain ⟨mi, hr⟩ := fullWritebackGrow_spec (P := P) h.data h.image.metaSize_le h.image.wf h.image.stamped hsys (hlt h0)
      true 0
    change Rewritten P d m mi m.dict (m.fullWriteback P sys d) at hr
    rw [trim, if_neg h0]
    generalize m.fullWriteback P sys d = r at hr ⊢
    simp only [hr.err]
    have hsynced := hr.synced h.enableExpire h.needLoad h.closed h.readOnly
    have hinfo : r.m.info = mi := by rw [hr.instance_eq]; rfl
    obtain ⟨n, heq, hroom, hfloor⟩ := shrink_spec (P := P) hsynced hsys
    rw [hinfo] at hroom
    have hd : d.apply (r.writes ++ (r.m.shrink P sys (d.apply r.writes)).writes) =
        { d.apply r.writes with data := resize 0 (d.apply r.writes).data n } := by
      rw [heq, Disk.apply_append, Disk.apply_resizeWrites]
    refine ⟨mi, by rw [heq], ?_, ?_, hr.version, hr.sequence, hr.flags, hr.lastActualSize, hr.lastCRCDigest, ?_, ?_⟩
    · simp only [hd]
      exact hr.image.resize hr.version hroom
    · simp only [hd, length_resize]
      rw [heq, hr.instance_eq]
      rfl
    · intro hp
      simp only [hd, length_resize]
      exact hfloor (hr.floor hp)
    · simp only [hd]
      exact hr.crcLength

/-! ### The append -/

/-- The meta after a pair was appended. -/
def appendedInfo (m : MMKV) (pair : Bytes) : MetaInfo :=
  { m.info with
    actualSize := m.actualSize + UInt32.ofNat pair.length
    crcDigest := Crc32.update m.crcDigest pair }

lemma apply_metaWords (d : Disk) (crc size : UInt32) :
    d.apply (metaWords crc size) = { d with crc := putUint32 (putUint32 d.crc offCRC crc) offActualSize size } := rfl

lemma apply_appendRaw (d : Disk) (m : MMKV) (pair : Bytes) :
    d.apply (m.appendRaw pair).1 =
      ⟨patch d.data (4 + m.actualSize.toNat) pair,
        putUint32 (putUint32 d.crc offCRC (m.appendedInfo pair).crcDigest) offActualSize
          (m.appendedInfo pair).actualSize⟩ := by
  simp only [appendRaw, Disk.apply_append, Disk.apply_dataWrites, apply_metaWords]
  rfl

/-- What a completed append did: the pair stands after the old region, in a file of the same size. -/
structure Appended (d : Disk) (m : MMKV) (pair : Bytes) (d' : Disk) (mi : MetaInfo) : Prop extends Sealed d' mi where
  region : d'.region mi.actualSize = d.region m.info.actualSize ++ pair
  data : d'.data = patch d.data (4 + m.info.actualSize.toNat) pair
  room : 4 + m.info.actualSize.toNat + pair.length ≤ d.data.length
  info_eq : mi = { m.info with actualSize := mi.actualSize, crcDigest := mi.crcDigest }
  actualSize_eq : mi.actualSize.toNat = m.info.actualSize.toNat + pair.length
  crcLength : d'.crc.length = d.crc.length

/-- **An append extends the region and its CRC**, whatever the pair is. -/
theorem appendRaw_appended {pair : Bytes} (h : Sealed d m.info) (hact : m.actualSize = m.info.actualSize)
    (hcrc : m.crcDigest = m.info.crcDigest) (hpos : 0 < m.info.actualSize)
    (hroom : pair.length + 4 + m.info.actualSize.toNat ≤ d.data.length)
    (hlt : 4 + m.info.actualSize.toNat + pair.length < 2 ^ 32) :
    Appended d m pair (d.apply (m.appendRaw pair).1) (m.appendedInfo pair) := by
  have hsize : (m.appendedInfo pair).actualSize.toNat = m.info.actualSize.toNat + pair.length := by
    rw [appendedInfo, hact, UInt32.toNat_add, toNat_ofNat32 (by omega), Nat.mod_eq_of_lt (by omega)]
  have hd := apply_appendRaw d m pair
  rw [hact] at hd
  have hdata : (d.apply (m.appendRaw pair).1).data = patch d.data (4 + m.info.actualSize.toNat) pair := by rw [hd]
  have hmeta := congrArg Disk.crc hd
  have hregion : (d.apply (m.appendRaw pair).1).region (m.appendedInfo pair).actualSize =
      d.region m.info.actualSize ++ pair := by
    rw [Disk.region, hdata, hsize, ← Nat.add_assoc, slice_patch_end (by omega) (by omega), Disk.region]
  refine ⟨⟨?_, .inl (h.version_eq hpos), ?_, ?_, ?_⟩, hregion, hdata, by omega, rfl, hsize, ?_⟩
  · rw [hmeta]
    exact parseMeta_putUint32_crc_size h.parse _ _
  · rw [hdata, length_patch, hsize]
    omega
  · rw [hsize]
    omega
  · rw [hregion, ← Crc32.update_checksum, h.crc, ← hcrc]
    rfl
  · rw [hmeta, length_putUint32, length_putUint32]

theorem Appended.decoded {dict : Dict} {key blob : Bytes} {d' : Disk} {mi : MetaInfo}
    (h : Appended d m (pairBytes key blob) d' mi) (hold : Sealed d m.info)
    (hdec : parseDict (d.region m.info.actualSize) = .ok dict) (hpos : 0 < m.info.actualSize) (hk : key ≠ []) :
    parseDict (d'.region mi.actualSize) = .ok (applyPair dict key blob) := by
  have hbounded := h.bounded
  rw [h.actualSize_eq] at hbounded
  have hle := le_pairSize key blob
  rw [← length_pairBytes] at hle
  have hne : d.region m.info.actualSize ≠ [] := by
    rw [UInt32.lt_iff_toNat_lt] at hpos
    exact List.length_pos_iff.1 (by rw [hold.length_region]; exact hpos)
  rw [h.region]
  exact parseDict_append_pair hne hdec hk (by omega) (by omega)

/-! ### The override -/

/-- The meta after the region was overridden with one pair. -/
def overriddenInfo (m : MMKV) (pair : Bytes) : MetaInfo :=
  { m.info with
    actualSize := UInt32.ofNat (itemSizeHolderBytes.length + pair.length)
    crcDigest := Crc32.checksum (itemSizeHolderBytes ++ pair) }

/-- The instance after it stored in place: the meta words are `mi`'s and the map is `dict`. -/
def inPlace (m : MMKV) (mi : MetaInfo) (dict : Dict) : MMKV :=
  { m with info := mi, actualSize := mi.actualSize, crcDigest := mi.crcDigest, dict := dict }

lemma slice_patch_pair {xs key blob : Bytes} {off : ℕ} (h : off + (pairBytes key blob).length ≤ xs.length) :
    slice (patch xs off (pairBytes key blob)) (off + ((pairBytes key blob).length - blob.length))
      (off + ((pairBytes key blob).length - blob.length) + blob.length) = blob := by
  obtain ⟨hd, hpair⟩ : ∃ hd, pairBytes key blob = hd ++ blob :=
    ⟨writeData key ++ writeRawVarint32 (UInt32.ofNat blob.length), by simp [pairBytes, writeData]⟩
  rw [hpair, List.length_append] at h ⊢
  rw [patch_append, Nat.add_sub_cancel]
  exact slice_patch_self (by simpa [Nat.add_assoc] using h)

/-- The meta an override stores, whatever the pair's length: the CRC is over as many bytes as the 32-bit size says. -/
def overridingInfo (m : MMKV) (pair : Bytes) : MetaInfo :=
  let size := UInt32.ofNat (itemSizeHolderBytes.length + pair.length)
  { m.info with
    actualSize := size
    crcDigest := Crc32.checksum ((itemSizeHolderBytes ++ pair).take size.toNat) }

lemma overridingInfo_eq {pair : Bytes} (h : itemSizeHolderBytes.length + pair.length < 2 ^ 32) :
    m.overridingInfo pair = m.overriddenInfo pair := by
  have hall : (itemSizeHolderBytes ++ pair).take (UInt32.ofNat (itemSizeHolderBytes.length + pair.length)).toNat =
      itemSizeHolderBytes ++ pair := by
    rw [toNat_ofNat32 h, ← List.length_append]
    exact List.take_length
  simp only [overridingInfo, overriddenInfo, hall]

/-- **An override, step by step**, in a file of whatever size: its stores, and the instance afterwards. -/
theorem overrideRaw_of_room {key blob : Bytes} (hdata : m.data = ⟨d.data.length, true⟩)
    (hroom : 4 + itemSizeHolderBytes.length + (pairBytes key blob).length ≤ d.data.length) :
    m.overrideRaw d key (pairBytes key blob) blob.length =
      (dataWrites 4 (itemSizeHolderBytes ++ pairBytes key blob) ++
          metaWords (m.overridingInfo (pairBytes key blob)).crcDigest
            (m.overridingInfo (pairBytes key blob)).actualSize,
        m.inPlace (m.overridingInfo (pairBytes key blob)) (m.dict.insert key blob)) := by
  generalize hpair : pairBytes key blob = pair at hroom ⊢
  have hlen : (itemSizeHolderBytes ++ pair).length = itemSizeHolderBytes.length + pair.length := List.length_append
  have hle : (UInt32.ofNat (itemSizeHolderBytes.length + pair.length)).toNat ≤ (itemSizeHolderBytes ++ pair).length := by
    rw [hlen, UInt32.toNat_ofNat']
    exact Nat.mod_le _ _
  have hregion : slice (patch d.data 4 (itemSizeHolderBytes ++ pair)) 4
      (4 + (UInt32.ofNat (itemSizeHolderBytes.length + pair.length)).toNat) =
        (itemSizeHolderBytes ++ pair).take (UInt32.ofNat (itemSizeHolderBytes.length + pair.length)).toNat := by
    rw [← slice_take_add hle, slice_patch_self (by omega)]
  -- the bytes the code reads back through the mapping are those it just stored
  have hmem : m.data.memory (d.apply (dataWrites 4 itemSizeHolderBytes ++
      dataWrites (4 + itemSizeHolderBytes.length) pair)) = patch d.data 4 (itemSizeHolderBytes ++ pair) := by
    rw [← dataWrites_append, Disk.apply_dataWrites, hdata, MemoryFile.memory, if_pos rfl]
    exact List.take_of_length_le (by simp)
  have hblob : slice (patch d.data 4 (itemSizeHolderBytes ++ pair))
      (4 + itemSizeHolderBytes.length + (pair.length - blob.length))
      (4 + itemSizeHolderBytes.length + (pair.length - blob.length) + blob.length) = blob := by
    rw [patch_append, ← hpair]
    exact slice_patch_pair (by rw [length_patch, hpair]; exact hroom)
  simp only [overrideRaw, hmem, hregion, hblob, dataWrites_append]
  rfl

/-- What a completed override did: the region is the holder and the pair, in a file of the same size. -/
structure Overridden (d : Disk) (m : MMKV) (pair : Bytes) (d' : Disk) (mi : MetaInfo) : Prop extends Sealed d' mi where
  region : d'.region mi.actualSize = itemSizeHolderBytes ++ pair
  length_eq : d'.data.length = d.data.length
  info_eq : mi = { m.info with actualSize := mi.actualSize, crcDigest := mi.crcDigest }

/-- **An override makes the meta describe the one pair**, whatever the pair is. -/
theorem overrideRaw_overridden {pair : Bytes} (h : Sealed d m.info) (hver : m.info.version = versionFlag)
    (hroom : 4 + itemSizeHolderBytes.length + pair.length ≤ d.data.length)
    (hlt : 4 + itemSizeHolderBytes.length + pair.length < 2 ^ 32) :
    Overridden d m pair
      (d.apply (dataWrites 4 (itemSizeHolderBytes ++ pair) ++
        metaWords (m.overriddenInfo pair).crcDigest (m.overriddenInfo pair).actualSize)) (m.overriddenInfo pair) := by
  have hlen : (itemSizeHolderBytes ++ pair).length = itemSizeHolderBytes.length + pair.length := List.length_append
  have hact : (m.overriddenInfo pair).actualSize.toNat = (itemSizeHolderBytes ++ pair).length := by
    rw [hlen]
    exact toNat_ofNat32 (by omega)
  rw [Disk.apply_append, Disk.apply_dataWrites, apply_metaWords]
  have hregion : slice (patch d.data 4 (itemSizeHolderBytes ++ pair)) 4 (4 + (itemSizeHolderBytes ++ pair).length) =
      itemSizeHolderBytes ++ pair := slice_patch_self (by omega)
  refine ⟨⟨parseMeta_putUint32_crc_size h.parse _ _, .inl hver, ?_, ?_, ?_⟩, ?_, ?_, rfl⟩
  · rw [length_patch, hact]
    omega
  · rw [hact]
    omega
  · rw [Disk.region, hact, hregion]
    rfl
  · rw [Disk.region, hact, hregion]
  · rw [length_patch]

theorem Overridden.decoded {key blob : Bytes} {d' : Disk} {mi : MetaInfo}
    (h : Overridden d m (pairBytes key blob) d' mi) (hk : key ≠ []) :
    parseDict (d'.region mi.actualSize) = .ok (applyPair ∅ key blob) := by
  have hlen := h.length_region
  have hbounded := h.bounded
  have hle := le_pairSize key blob
  rw [h.region, List.length_append] at hlen
  rw [← length_pairBytes] at hle
  rw [h.region]
  exact parseDict_append_pair (by decide) parseDict_itemSizeHolderBytes hk (by omega) (by omega)

end MMKV

/-! ### Success

A path that returns nil met no failure: it did what it does in a system in which no call fails. -/

/-- The system with its failures taken away. -/
def Sys.mended (sys : Sys) : Sys :=
  ⟨sys.now, some (sys.iv.getD (Vector.replicate 16 0)), none, none, none, false, false, false⟩

lemma Sys.mended_ok (sys : Sys) : sys.mended.OK := ⟨rfl, rfl, rfl, rfl, rfl, rfl, rfl⟩

lemma MemoryFile.truncate_mended {P : Platform} {fails : Option Syscall} {mf : MemoryFile} {newSize : ℕ}
    (h : (mf.truncate P fails newSize).2.2 = none) : mf.truncate P fails newSize = mf.truncate P none newSize := by
  by_cases hsize : pageRoundUp P newSize = mf.size
  · simp [truncate, hsize]
  · simp only [truncate, hsize, if_false] at h ⊢
    split at h
    · cases h
    · split at h
      · cases h
      · next hmapped => simp [hmapped]
    · cases h
    · rfl

namespace MMKV

variable {P : Platform} {sys : Sys} {d : Disk} {m : MMKV}

lemma flush_mended (sys : Sys) : flush sys.mended = none := rfl

lemma payload_mended {region : Bytes} {p : Bytes × Block} (h : m.payload sys region = .ok p) :
    m.payload sys.mended region = .ok p := by
  rw [payload] at h ⊢
  cases hc : m.crypt with
  | none =>
    rw [hc] at h
    exact h
  | some E =>
    rw [hc] at h
    cases hiv : sys.iv with
    | none => simp [hiv] at h
    | some iv => simpa [hiv, Sys.mended] using h

lemma grow_mended {lenNeeded incoming : ℕ} {needSync : Bool} (h : (m.grow P sys lenNeeded needSync incoming).2.2 = none) :
    m.grow P sys lenNeeded needSync incoming = m.grow P sys.mended lenNeeded needSync incoming := by
  rw [grow] at h ⊢
  rw [grow]
  cases hg : growth m.data.size m.dict.size lenNeeded needSync incoming with
  | none => rfl
  | some newSize =>
    rw [hg] at h
    exact MemoryFile.truncate_mended h

theorem fullWritebackGrow_mended {needSync : Bool} {incoming : ℕ}
    (h : (m.fullWritebackGrow P sys d needSync incoming).err = none) :
    m.fullWritebackGrow P sys d needSync incoming = m.fullWritebackGrow P sys.mended d needSync incoming := by
  cases hpay : m.payload sys (regionOf m.dict) with
  | error e => simp [fullWritebackGrow, hpay] at h
  | ok p =>
    obtain ⟨ct, iv⟩ := p
    have hpay' := payload_mended hpay
    obtain ⟨grown, data, err, hgrow⟩ : ∃ grown data err,
        ({ m with info := { m.info with iv := iv } } : MMKV).grow P sys (4 + ct.length + incoming) needSync incoming =
          (grown, data, err) := ⟨_, _, _, rfl⟩
    cases err with
    | some e => simp [fullWritebackGrow, hpay, hgrow] at h
    | none =>
      have hgrow' := grow_mended (congrArg (fun t => t.2.2) hgrow)
      rw [hgrow] at hgrow'
      simp only [fullWritebackGrow, hpay, hpay', hgrow, ← hgrow'] at h ⊢
      split at h
      · cases h
      · cases needSync with
        | false => rfl
        | true =>
          have hflush : flush sys = none := h
          simp [hflush, flush_mended]

theorem clearAllLocked_mended (h : (m.clearAllLocked P sys).err = none) :
    m.clearAllLocked P sys = m.clearAllLocked P sys.mended := by
  obtain ⟨resized, data, err, htrunc⟩ : ∃ resized data err, m.data.truncate P sys.grow 0 = (resized, data, err) :=
    ⟨_, _, _, rfl⟩
  cases err with
  | some e => simp [clearAllLocked, htrunc] at h
  | none =>
    have htrunc' := MemoryFile.truncate_mended (P := P) (by rw [htrunc])
    rw [htrunc] at htrunc'
    have hmended : m.data.truncate P sys.mended.grow 0 = (resized, data, none) := htrunc'.symm
    simp only [clearAllLocked, htrunc, hmended] at h ⊢
    rw [h, flush_mended]

theorem shrink_mended (h : (m.shrink P sys d).err = none) : m.shrink P sys d = m.shrink P sys.mended d := by
  rw [shrink] at h ⊢
  rw [shrink]
  split
  · rfl
  next hle =>
  obtain ⟨shrunk, data, err, htrunc⟩ : ∃ shrunk data err,
      m.data.truncate P sys.shrink (trimTarget P m.data.size m.actualSize) = (shrunk, data, err) := ⟨_, _, _, rfl⟩
  simp only [hle, if_false, htrunc] at h ⊢
  cases err with
  | some e => cases h
  | none =>
    have htrunc' := MemoryFile.truncate_mended (P := P) (by rw [htrunc])
    rw [htrunc] at htrunc'
    have hmended : m.data.truncate P sys.mended.shrink (trimTarget P m.data.size m.actualSize) = (shrunk, data, none) :=
      htrunc'.symm
    simp only [hmended] at h ⊢
    split at h
    · cases h
    · rw [show msync sys.syncTrim = none from h]
      rfl

theorem trim_mended (h : (m.trim P sys d).err = none) : m.trim P sys d = m.trim P sys.mended d := by
  rw [trim] at h ⊢
  rw [trim]
  split
  · next h0 =>
    rw [if_pos h0] at h
    exact clearAllLocked_mended h
  next h0 =>
  simp only [h0, if_false] at h
  cases herr : (m.fullWriteback P sys d).err with
  | some e => simp [herr] at h
  | none =>
    have hback : m.fullWriteback P sys.mended d = m.fullWriteback P sys d := (fullWritebackGrow_mended herr).symm
    simp only [herr, hback] at h ⊢
    rw [shrink_mended h]

end MMKV

end MmkvGo.Store
