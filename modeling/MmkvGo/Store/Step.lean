import MmkvGo.Store.Content
import MmkvGo.Store.Paths

/-!
One call on an instance that agrees with its files.  `Effect` says what a successful call leaves behind: the instance
agrees with its files again, the map is the one `Content.after` gives, and the files evolved in one of four
ways (`Evolves`).  Every operation has its effect lemma, assembled from the write paths; `exec_effect` is all of
them together.
-/

namespace MmkvGo.Store

open MmkvGo.Lib MmkvGo.Wire MmkvGo.Crypt Std

/-- How one call changes the files: not at all, by a pair after the region, by a region of one pair in place of the old
one (which multi-process mode excludes), or by a rewrite, which bumps the sequence number. -/
inductive Evolves (multi : Bool) (d : Disk) (mi : MetaInfo) (d' : Disk) (mi' : MetaInfo) : Prop where
  | unchanged (hd : d' = d) (hmi : mi' = mi)
  | appended (pair : Bytes) (hpair : pair ≠ [])
      (hdata : d'.data = patch d.data (4 + mi.actualSize.toNat) pair)
      (hroom : 4 + mi.actualSize.toNat + pair.length ≤ d.data.length)
      (hsize : mi'.actualSize.toNat = mi.actualSize.toNat + pair.length)
      (hmi : mi' = { mi with actualSize := mi'.actualSize, crcDigest := mi'.crcDigest })
  | overridden (hsingle : multi = false) (hlen : d'.data.length = d.data.length)
      (hmi : mi' = { mi with actualSize := mi'.actualSize, crcDigest := mi'.crcDigest })
  | rewritten (hseq : mi'.sequence = mi.sequence + 1) (hsize : mi'.lastActualSize = mi'.actualSize)
      (hcrc : mi'.lastCRCDigest = mi'.crcDigest)

/-- A step that keeps the last-confirmed snapshot of the meta. -/
def KeepsLast (mi mi' : MetaInfo) : Prop := mi' = { mi with actualSize := mi'.actualSize, crcDigest := mi'.crcDigest }

/-- A step that makes the current snapshot the last-confirmed one. -/
structure Confirms (mi mi' : MetaInfo) : Prop where
  sequence : mi'.sequence = mi.sequence + 1
  lastActualSize : mi'.lastActualSize = mi'.actualSize
  lastCRCDigest : mi'.lastCRCDigest = mi'.crcDigest

/-- However the files evolve, the last-confirmed snapshot stays, in a file of the same size, or becomes the current one. -/
lemma Evolves.last {multi : Bool} {d d' : Disk} {mi mi' : MetaInfo} (h : Evolves multi d mi d' mi') :
    KeepsLast mi mi' ∧ d'.data.length = d.data.length ∨ Confirms mi mi' := by
  cases h with
  | unchanged hd hmi => exact .inl ⟨by rw [KeepsLast, hmi], by rw [hd]⟩
  | appended _ _ hdata _ _ hmi => exact .inl ⟨hmi, by rw [hdata, length_patch]⟩
  | overridden _ hlen hmi => exact .inl ⟨hmi, hlen⟩
  | rewritten hseq hsize hcrc => exact .inr ⟨hseq, hsize, hcrc⟩

/-! ### The region a call leaves -/

/-- The plaintext of the region that the instance has on disk. -/
def MMKV.plainRegion (m : MMKV) (d : Disk) : Bytes := plainOf m.crypt m.info.iv (d.region m.info.actualSize)

lemma Steady.length_plainRegion {d : Disk} {m : MMKV} (h : Steady d m) :
    (m.plainRegion d).length = m.info.actualSize.toNat := by
  rw [MMKV.plainRegion, length_plainOf, h.length_region]

lemma Steady.plainRegion_lt {d : Disk} {m : MMKV} (h : Steady d m) : 4 + (m.plainRegion d).length < 2 ^ 32 := by
  rw [h.length_plainRegion]
  exact h.bounded

/-- The plaintext region after a slot is set, on whichever of the three paths. -/
def MMKV.regionAfterSet (m : MMKV) (d : Disk) (key slot : Bytes) : Bytes :=
  if m.overrides key (pairBytes key slot) then itemSizeHolderBytes ++ pairBytes key slot
  else if m.appends (pairBytes key slot) then m.plainRegion d ++ pairBytes key slot
  else regionOf (m.dict.insert key slot)

/-- The plaintext region after the set of a blob, which is skipped if it is there already. -/
def MMKV.regionAfterPut (sys : Sys) (d : Disk) (m : MMKV) (key blob : Bytes) : Bytes :=
  if m.compareBeforeSet && !m.enableExpire && m.dict[key]? == some blob then m.plainRegion d
  else m.regionAfterSet d key (m.content.slot sys m.expiredSeconds blob)

/-- The plaintext region after a call, with its bytes counted without a bound. -/
def Op.regionAfter (sys : Sys) (d : Disk) (m : MMKV) : Op → Bytes
  | .set key v => m.regionAfterPut sys d key v.blob
  | .removeValueForKey key =>
    if !m.dict.contains key then m.plainRegion d
    else if ({ m with dict := m.dict.erase key } : MMKV).appendsTombstone (pairBytes key []) then
      m.plainRegion d ++ pairBytes key []
    else regionOf (m.dict.erase key)
  | .removeValuesForKeys keys =>
    if keys.all fun k => !m.dict.contains k then m.plainRegion d
    else regionOf (keys.foldl (fun dict k => dict.erase k) m.dict)
  | .clearAll => []
  | .trim => if m.actualSize = 0 then [] else regionOf m.dict
  | .enableAutoKeyExpire seconds => regionOf (m.withExpire seconds).dict
  | .disableAutoKeyExpire => if !m.enableExpire then m.plainRegion d else regionOf (m.withoutExpire sys).dict
  | .reKey _ => regionOf m.dict
  | .sync | .clearMemoryCache | .enableCompareBeforeSet | .disableCompareBeforeSet => m.plainRegion d

lemma Op.regionAfter_congr {sys : Sys} {d d' : Disk} {m : MMKV} (h : d'.data = d.data) (op : Op) :
    op.regionAfter sys d' m = op.regionAfter sys d m := by
  have hplain : m.plainRegion d' = m.plainRegion d := by rw [MMKV.plainRegion, MMKV.plainRegion, Disk.region, Disk.region, h]
  cases op <;> simp only [Op.regionAfter, MMKV.regionAfterPut, MMKV.regionAfterSet, hplain]

/-- What a successful call leaves behind: the map `c`, the key `crypt` and the default duration `seconds`. -/
structure Effect (P : Platform) (d : Disk) (m : MMKV) (c : Content) (crypt : Option Cipher) (seconds : UInt32)
    (r : Result) : Prop where
  err : r.err = none
  synced : Synced (d.apply r.writes) r.m
  content : r.m.content = c
  crypt : r.m.crypt = crypt
  seconds : r.m.expiredSeconds = seconds
  multiProcess : r.m.multiProcess = m.multiProcess
  evolves : Evolves m.multiProcess d m.info (d.apply r.writes) r.m.info
  rekeyed : r.m.crypt ≠ m.crypt → Confirms m.info r.m.info
  floor : P.pageSize ≤ d.data.length → P.pageSize ≤ (d.apply r.writes).data.length

/-- What the call `op` has to leave behind. -/
def Op.Effect (P : Platform) (sys : Sys) (op : Op) (d : Disk) (m : MMKV) (r : Result) : Prop :=
  Store.Effect P d m (m.content.after sys m.expiredSeconds op) (op.cryptAfter P m.crypt)
    (op.secondsAfter m.enableExpire m.expiredSeconds) r

section Effects

variable {P : Platform} {sys : Sys} {d : Disk} {m : MMKV}

/-! ### From the paths to the effects -/

theorem effect_unchanged (h : Synced d m) : Effect P d m m.content m.crypt m.expiredSeconds ⟨[], m, none⟩ :=
  ⟨rfl, h, rfl, rfl, rfl, rfl, .unchanged rfl rfl, fun hne => absurd rfl hne, id⟩

theorem MMKV.Rewritten.effect {m₁ : MMKV} {mi : MetaInfo} {dict : Dict} {r : Result}
    (hr : m₁.Rewritten P d mi dict r) (hexp : m₁.enableExpire = m₁.info.expireEnabled)
    (hload : m₁.needLoad = false) (hclosed : m₁.closed = false) (hro : m₁.readOnly = false)
    (hmulti : m₁.multiProcess = m.multiProcess) (hseq : m₁.info.sequence = m.info.sequence) :
    Effect P d m ⟨OrdMap.lookup dict, m₁.enableExpire⟩ m₁.crypt m₁.expiredSeconds r := by
  have hconfirms : Confirms m.info r.m.info := by
    rw [hr.instance_eq]
    exact ⟨hr.sequence.trans (by rw [hseq]), hr.lastActualSize, hr.lastCRCDigest⟩
  refine ⟨hr.err, hr.synced hexp hload hclosed hro, ?_, ?_, ?_, ?_,
    .rewritten hconfirms.sequence hconfirms.lastActualSize hconfirms.lastCRCDigest, fun _ => hconfirms, hr.floor⟩
  all_goals rw [hr.instance_eq]
  · rfl
  · rfl
  · rfl
  · exact hmulti

/-- What a successful set or removal leaves behind, with or without timestamps in the slots: the map `dict`, and all else
as it was. -/
structure Outcome (P : Platform) (d : Disk) (m : MMKV) (dict : Dict) (r : Result) : Prop where
  err : r.err = none
  steady : Steady (d.apply r.writes) r.m
  dict : r.m.dict = dict
  enableExpire : r.m.enableExpire = m.enableExpire
  crypt : r.m.crypt = m.crypt
  seconds : r.m.expiredSeconds = m.expiredSeconds
  multiProcess : r.m.multiProcess = m.multiProcess
  evolves : Evolves m.multiProcess d m.info (d.apply r.writes) r.m.info
  floor : P.pageSize ≤ d.data.length → P.pageSize ≤ (d.apply r.writes).data.length

theorem Outcome.effect {dict : Dict} {r : Result} (h : Outcome P d m dict r)
    (hexp : m.enableExpire = m.info.expireEnabled) (hst : Stamped m.info dict) :
    Effect P d m ⟨OrdMap.lookup dict, m.enableExpire⟩ m.crypt m.expiredSeconds r := by
  have hflag : r.m.info.expireEnabled = m.info.expireEnabled := by
    rw [← h.steady.enableExpire, h.enableExpire, hexp]
  refine ⟨h.err, h.steady.synced fun he => ?_, ?_, h.crypt, h.seconds, h.multiProcess, h.evolves,
    fun hne => absurd h.crypt hne, h.floor⟩
  · rw [h.dict]
    exact hst (hflag ▸ he)
  · rw [MMKV.content, h.dict, h.enableExpire]

theorem outcome_unchanged (h : Steady d m) : Outcome P d m m.dict ⟨[], m, none⟩ :=
  ⟨rfl, h, rfl, rfl, rfl, rfl, rfl, .unchanged rfl rfl, id⟩

theorem MMKV.fullWritebackGrow_outcome {dict : Dict} {needSync : Bool} {incoming : ℕ} (h : Steady d m) (hwf : WF dict)
    (hsys : sys.OK) (hlt : 4 + (regionOf dict).length < 2 ^ 32) :
    Outcome P d m dict (({ m with dict := dict } : MMKV).fullWritebackGrow P sys d needSync incoming) := by
  obtain ⟨herr, hm, hsealed, hdec, hfloor, -⟩ :=
    fullWritebackGrow_decoded (m := { m with dict := dict }) h.data h.metaSize_le hwf hsys hlt _ _
  refine ⟨herr, ?_, ?_, ?_, ?_, ?_, ?_, ?_, hfloor⟩
  all_goals rw [hm]
  · exact ⟨hsealed, hdec, rfl, rfl, rfl, h.enableExpire, h.needLoad, rfl, h.closed, h.readOnly⟩
  all_goals first
    | rfl
    | exact .rewritten rfl rfl rfl

/-! ### Setting a slot -/

lemma MMKV.fastOK_iff (hver : Versioned d m.info) (hfull : m.needFullWriteback = false) :
    m.fastOK = true ↔ m.crypt = none ∧ m.info.version = versionFlag := by
  have hle : versionFlag ≤ m.info.version ↔ m.info.version = versionFlag := by
    rcases hver with hv | ⟨⟨hv, -⟩, -⟩
    · simp [hv]
    · rw [hv]
      decide
  simp [fastOK, hfull, hle]

lemma MMKV.setBlob_of_neither {key blob : Bytes} (hover : m.overrides key (pairBytes key blob) = false)
    (happend : m.appends (pairBytes key blob) = false) :
    m.setBlob P sys d key blob = ({ m with dict := m.dict.insert key blob } : MMKV).fullWritebackGrow P sys d
      (!m.dict.isEmpty) (pairBytes key blob).length := by
  simp only [setBlob, hover, happend, Bool.false_eq_true, if_false]

lemma MMKV.setBlob_of_not_fastOK {key blob : Bytes} (h : m.fastOK = false) :
    m.setBlob P sys d key blob = ({ m with dict := m.dict.insert key blob } : MMKV).fullWritebackGrow P sys d
      (!m.dict.isEmpty) (pairBytes key blob).length :=
  setBlob_of_neither (by simp [overrides, h]) (by simp [appends, h])

lemma MMKV.setValueLocked_eq {key blob : Bytes} (hcmp : m.compareBeforeSet = false)
    (hexp : m.enableExpire = false) : m.setValueLocked P sys d key blob = m.setBlob P sys d key blob := by
  simp [setValueLocked, hcmp, hexp]

lemma Stamped.insert {mi : MetaInfo} {dict : Dict} {key blob : Bytes} (h : Stamped mi dict)
    (hb : mi.expireEnabled = true → 5 ≤ blob.length) : Stamped mi (dict.insert key blob) := by
  intro he k v hkv
  rw [ExtTreeMap.getElem?_insert] at hkv
  split at hkv
  · cases hkv
    exact hb he
  · exact h he k v hkv

lemma Stamped.erase {mi : MetaInfo} {dict : Dict} (h : Stamped mi dict) (key : Bytes) :
    Stamped mi (dict.erase key) := by
  intro he k v hkv
  rw [ExtTreeMap.getElem?_erase] at hkv
  split at hkv
  · cases hkv
  · exact h he k v hkv

lemma Stamped.foldl_erase {mi : MetaInfo} {dict : Dict} (h : Stamped mi dict) (keys : List Bytes) :
    Stamped mi (keys.foldl (fun dict k => dict.erase k) dict) := by
  induction keys generalizing dict with
  | nil => exact h
  | cons k keys ih => exact ih (h.erase k)

/-- **An append on an instance that agrees with its files**, but for the one change `dict` of its map. -/
theorem appendRaw_outcome {dict : Dict} {key blob : Bytes} (h : Steady d m) (hcrypt : m.crypt = none)
    (hpos : 0 < m.info.actualSize) (hfit : m.fitsTail (pairBytes key blob) = true) (hk : key ≠ [])
    (hdict : dict = applyPair m.dict key blob) (hlt : 4 + (m.plainRegion d ++ pairBytes key blob).length < 2 ^ 32) :
    Outcome P d m dict ⟨(m.appendRaw (pairBytes key blob)).1,
      m.inPlace (m.appendedInfo (pairBytes key blob)) dict, none⟩ := by
  have hsize : m.data.size = d.data.length := by rw [h.data]
  have hroom : (pairBytes key blob).length + 4 + m.info.actualSize.toNat ≤ d.data.length := by
    simpa [MMKV.fitsTail, hsize, h.actualSize] using hfit
  rw [List.length_append, h.length_plainRegion] at hlt
  have happ := MMKV.appendRaw_appended h.toSealed h.actualSize h.crcDigest hpos hroom (by omega)
  have hlen : (d.apply (m.appendRaw (pairBytes key blob)).1).data.length = d.data.length := by
    rw [happ.data, length_patch]
  have hpair : pairBytes key blob ≠ [] := by
    have := le_pairSize key blob
    rw [← length_pairBytes] at this
    exact List.length_pos_iff.1 (by omega)
  have hdec : parseDict (d.region m.info.actualSize) = .ok m.dict := by
    have := h.decoded
    rw [hcrypt] at this
    exact this
  subst hdict
  refine ⟨rfl, ⟨happ.toSealed, ?_, ?_, rfl, rfl, ?_, h.needLoad, h.needFullWriteback, h.closed, h.readOnly⟩, rfl, rfl, rfl,
    rfl, rfl, .appended (pairBytes key blob) hpair happ.data happ.room happ.actualSize_eq happ.info_eq, ?_⟩
  · show parseDict (plainOf m.crypt _ _) = _
    rw [hcrypt]
    exact happ.decoded h.toSealed hdec hpos hk
  · rw [hlen]
    exact h.data
  · exact h.enableExpire.trans (MMKV.expireEnabled_congr rfl)
  · rw [hlen]
    exact id

lemma MMKV.of_overrides {key pair : Bytes} (hver : Versioned d m.info) (hdata : m.data = ⟨d.data.length, true⟩)
    (hfull : m.needFullWriteback = false) (hover : m.overrides key pair = true) :
    m.crypt = none ∧ m.info.version = versionFlag ∧ m.multiProcess = false ∧
      4 + itemSizeHolderBytes.length + pair.length ≤ d.data.length ∧
      (m.dict.contains key = true ∧ m.dict.size = 1 ∨ m.dict.isEmpty = true ∧ 0 < m.actualSize) := by
  have hsize : m.data.size = d.data.length := by rw [hdata]
  simp only [overrides, Bool.and_eq_true, Bool.or_eq_true, fastOK_iff hver hfull, Bool.not_eq_true', hsize,
    decide_eq_true_eq, beq_iff_eq] at hover
  obtain ⟨⟨⟨⟨hcrypt, hver⟩, hsingle⟩, hroom⟩, honly⟩ := hover
  exact ⟨hcrypt, hver, hsingle, hroom, honly⟩

lemma MMKV.overrides_of_steady {key pair : Bytes} (h : Steady d m) (hover : m.overrides key pair = true) :
    m.crypt = none ∧ m.info.version = versionFlag ∧ m.multiProcess = false ∧
      4 + itemSizeHolderBytes.length + pair.length ≤ d.data.length ∧
      (m.dict.contains key = true ∧ m.dict.size = 1 ∨ m.dict.isEmpty = true ∧ 0 < m.actualSize) :=
  of_overrides h.versioned h.data h.needFullWriteback hover

lemma MMKV.setBlob_overriding {key blob : Bytes} (hdata : m.data = ⟨d.data.length, true⟩)
    (hroom : 4 + itemSizeHolderBytes.length + (pairBytes key blob).length ≤ d.data.length)
    (hover : m.overrides key (pairBytes key blob) = true) :
    m.setBlob P sys d key blob = ⟨dataWrites 4 (itemSizeHolderBytes ++ pairBytes key blob) ++
      metaWords (m.overridingInfo (pairBytes key blob)).crcDigest (m.overridingInfo (pairBytes key blob)).actualSize,
      m.inPlace (m.overridingInfo (pairBytes key blob)) (m.dict.insert key blob), none⟩ := by
  simp only [setBlob, hover, if_true, overrideRaw_of_room hdata hroom]

lemma MMKV.setBlob_of_overrides {key blob : Bytes} (h : Steady d m)
    (hover : m.overrides key (pairBytes key blob) = true)
    (hlt : 4 + (itemSizeHolderBytes ++ pairBytes key blob).length < 2 ^ 32) :
    m.setBlob P sys d key blob = ⟨dataWrites 4 (itemSizeHolderBytes ++ pairBytes key blob) ++
      metaWords (m.overriddenInfo (pairBytes key blob)).crcDigest (m.overriddenInfo (pairBytes key blob)).actualSize,
      m.inPlace (m.overriddenInfo (pairBytes key blob)) (m.dict.insert key blob), none⟩ := by
  obtain ⟨-, -, -, hroom, -⟩ := overrides_of_steady h hover
  rw [List.length_append] at hlt
  rw [setBlob_overriding h.data hroom hover, overridingInfo_eq (by omega)]

lemma Steady.insert_of_overrides {key slot : Bytes} (h : Steady d m) (hne : slot ≠ [])
    (hover : m.overrides key (pairBytes key slot) = true) : m.dict.insert key slot = applyPair ∅ key slot := by
  obtain ⟨-, -, -, -, honly⟩ := MMKV.overrides_of_steady h hover
  rw [applyPair, if_neg hne]
  rcases honly with ⟨hc, h1⟩ | ⟨he, -⟩
  · exact OrdMap.insert_of_size_eq_one hc h1 slot
  · rw [ExtTreeMap.isEmpty_iff.1 he]

/-- **An override on an instance that agrees with its files**: the one pair is the whole map. -/
theorem override_outcome {key blob : Bytes} (h : Steady d m) (hk : key ≠ []) (hne : blob ≠ [])
    (hover : m.overrides key (pairBytes key blob) = true)
    (hlt : 4 + (itemSizeHolderBytes ++ pairBytes key blob).length < 2 ^ 32) :
    Outcome P d m (m.dict.insert key blob) (m.setBlob P sys d key blob) := by
  rw [MMKV.setBlob_of_overrides h hover hlt]
  rw [List.length_append] at hlt
  obtain ⟨hcrypt, hver, hsingle, hroom, -⟩ := MMKV.overrides_of_steady h hover
  have hnew := MMKV.overrideRaw_overridden h.toSealed hver hroom (by omega)
  have hlen := hnew.length_eq
  have hdec := hnew.decoded hk
  rw [← h.insert_of_overrides hne hover] at hdec
  refine ⟨rfl, ⟨hnew.toSealed, ?_, ?_, rfl, rfl, ?_, h.needLoad, h.needFullWriteback, h.closed, h.readOnly⟩, rfl, rfl, rfl,
    rfl, rfl, .overridden hsingle hlen rfl, ?_⟩
  · show parseDict (plainOf m.crypt _ _) = _
    rw [hcrypt]
    exact hdec
  · rw [hlen]
    exact h.data
  · exact h.enableExpire.trans (MMKV.expireEnabled_congr rfl)
  · rw [hlen]
    exact id

lemma MMKV.room_of_fitsTail {pair : Bytes} (hdata : m.data = ⟨d.data.length, true⟩) (hfit : m.fitsTail pair = true) :
    4 + m.actualSize.toNat + pair.length ≤ d.data.length := by
  have hsize : m.data.size = d.data.length := by rw [hdata]
  rw [fitsTail, decide_eq_true_eq] at hfit
  omega

lemma MMKV.room_of_appends {pair : Bytes} (hdata : m.data = ⟨d.data.length, true⟩) (happend : m.appends pair = true) :
    4 + m.actualSize.toNat + pair.length ≤ d.data.length := by
  simp only [appends, Bool.and_eq_true] at happend
  exact room_of_fitsTail hdata happend.1.2

lemma MMKV.of_appends {pair : Bytes} (h : Readable d m.info)
    (hdec : parseDict (plainOf m.crypt m.info.iv (d.region m.info.actualSize)) = .ok m.dict)
    (hfull : m.needFullWriteback = false) (happend : m.appends pair = true) :
    m.crypt = none ∧ 0 < m.info.actualSize ∧ m.fitsTail pair = true := by
  simp only [appends, Bool.and_eq_true, fastOK_iff h.current hfull, Bool.not_eq_true'] at happend
  obtain ⟨⟨⟨hcrypt, -⟩, hfit⟩, hdict⟩ := happend
  refine ⟨hcrypt, h.actualSize_pos hdec fun he => ?_, hfit⟩
  rw [he] at hdict
  simp at hdict

lemma MMKV.appends_of_steady {pair : Bytes} (h : Steady d m) (happend : m.appends pair = true) :
    m.crypt = none ∧ 0 < m.info.actualSize ∧ m.fitsTail pair = true ∧
      4 + m.actualSize.toNat + pair.length ≤ d.data.length := by
  obtain ⟨hcrypt, hpos, hfit⟩ := of_appends h.readable h.decoded h.needFullWriteback happend
  exact ⟨hcrypt, hpos, hfit, room_of_appends h.data happend⟩

lemma MMKV.setBlob_of_appends {key blob : Bytes} (hdata : m.data = ⟨d.data.length, true⟩)
    (hover : m.overrides key (pairBytes key blob) = false) (happend : m.appends (pairBytes key blob) = true) :
    m.setBlob P sys d key blob = ⟨(m.appendRaw (pairBytes key blob)).1,
      m.inPlace (m.appendedInfo (pairBytes key blob)) (m.dict.insert key blob), none⟩ := by
  have hroom := room_of_appends hdata happend
  -- the view into the mapping shows the blob that was just stored
  have hview : slice ((m.appendRaw (pairBytes key blob)).2.data.memory
      (d.apply (m.appendRaw (pairBytes key blob)).1))
      (4 + m.actualSize.toNat + ((pairBytes key blob).length - blob.length))
      (4 + m.actualSize.toNat + ((pairBytes key blob).length - blob.length) + blob.length) = blob := by
    have hmem : (m.appendRaw (pairBytes key blob)).2.data.memory (d.apply (m.appendRaw (pairBytes key blob)).1) =
        patch d.data (4 + m.actualSize.toNat) (pairBytes key blob) := by
      rw [apply_appendRaw]
      show m.data.memory _ = _
      rw [hdata, MemoryFile.memory, if_pos rfl]
      exact List.take_of_length_le (by simp)
    rw [hmem]
    exact slice_patch_pair hroom
  rw [setBlob]
  simp only [hover, happend, if_true, Bool.false_eq_true, if_false, hview]
  rfl

/-- **A slot is set** on whichever of the three paths. -/
theorem setBlob_outcome {key blob : Bytes} (h : Steady d m) (hsys : sys.OK) (hk : key ≠ []) (hne : blob ≠ [])
    (hlt : 4 + (m.regionAfterSet d key blob).length < 2 ^ 32) :
    Outcome P d m (m.dict.insert key blob) (m.setBlob P sys d key blob) := by
  have hinsert : m.dict.insert key blob = applyPair m.dict key blob := by rw [applyPair, if_neg hne]
  rw [MMKV.regionAfterSet] at hlt
  by_cases hover : m.overrides key (pairBytes key blob) = true
  · rw [if_pos hover] at hlt
    exact override_outcome h hk hne hover hlt
  rw [if_neg hover] at hlt
  rw [Bool.not_eq_true] at hover
  by_cases happend : m.appends (pairBytes key blob) = true
  · rw [if_pos happend] at hlt
    obtain ⟨hcrypt, hpos, hfit, -⟩ := MMKV.appends_of_steady h happend
    rw [MMKV.setBlob_of_appends h.data hover happend]
    exact appendRaw_outcome h hcrypt hpos hfit hk hinsert hlt
  · rw [if_neg happend] at hlt
    rw [Bool.not_eq_true] at happend
    rw [MMKV.setBlob_of_neither hover happend]
    exact MMKV.fullWritebackGrow_outcome h ((parseDict_wf h.decoded).insert hk hne) hsys hlt

lemma length_appendExpire (blob : Bytes) (seconds : UInt32) :
    (MMKV.appendExpire sys blob seconds).length = blob.length + 4 := by
  simp [MMKV.appendExpire]

lemma Content.length_slot (c : Content) (seconds : UInt32) {blob : Bytes} (hne : blob ≠ []) :
    0 < (c.slot sys seconds blob).length ∧ (c.expire = true → 5 ≤ (c.slot sys seconds blob).length) := by
  have hpos : 0 < blob.length := List.length_pos_iff.2 hne
  rw [Content.slot]
  cases c.expire with
  | false => simpa using hpos
  | true =>
    rw [if_pos rfl, length_appendExpire]
    omega

lemma MMKV.insert_of_skip {key blob : Bytes}
    (h : (m.compareBeforeSet && !m.enableExpire && m.dict[key]? == some blob) = true) :
    m.dict.insert key (m.content.slot sys m.expiredSeconds blob) = m.dict := by
  simp only [Bool.and_eq_true, Bool.not_eq_true', beq_iff_eq] at h
  have hslot : m.content.slot sys m.expiredSeconds blob = blob := by
    simp [Content.slot, MMKV.content, h.1.2]
  rw [hslot]
  refine OrdMap.lookup_inj ?_
  rw [OrdMap.lookup_insert]
  exact (Function.update_eq_self_iff).2 h.2.symm

theorem set_outcome {key blob : Bytes} (h : Steady d m) (hsys : sys.OK) (hk : key ≠ []) (hne : blob ≠ [])
    (hlt : 4 + (m.regionAfterPut sys d key blob).length < 2 ^ 32) :
    Outcome P d m (m.dict.insert key (m.content.slot sys m.expiredSeconds blob))
      (m.setValueLocked P sys d key blob) := by
  rw [MMKV.regionAfterPut] at hlt
  rw [MMKV.setValueLocked]
  split
  · next hskip =>
    rw [MMKV.insert_of_skip hskip]
    exact outcome_unchanged h
  · next hskip =>
    rw [if_neg hskip] at hlt
    exact setBlob_outcome h hsys hk (List.length_pos_iff.1 (m.content.length_slot m.expiredSeconds hne).1) hlt

theorem put_effect {key blob : Bytes} (h : Synced d m) (hsys : sys.OK) (hk : key ≠ []) (hne : blob ≠ [])
    (hlt : 4 + (m.regionAfterPut sys d key blob).length < 2 ^ 32) :
    Effect P d m (m.content.put sys m.expiredSeconds key blob) m.crypt m.expiredSeconds
      (m.setValueLocked P sys d key blob) := by
  have heffect := (set_outcome (P := P) h.steady hsys hk hne hlt).effect h.enableExpire (h.image.stamped.insert fun he =>
    (m.content.length_slot m.expiredSeconds hne).2 (h.enableExpire.trans he))
  rw [OrdMap.lookup_insert] at heffect
  exact heffect

theorem set_effect {key : Bytes} {v : Value} (h : Synced d m) (hsys : sys.OK) (hk : key ≠ [])
    (hlt : 4 + ((Op.set key v).regionAfter sys d m).length < 2 ^ 32) :
    (Op.set key v).Effect P sys d m (m.setValueLocked P sys d key v.blob) :=
  put_effect h hsys hk v.blob_ne_nil hlt

/-! ### Removing -/

/-- The one removal that is not sound: a tombstone appended to ciphertext. -/
def MMKV.tombstoneOK (m : MMKV) (key : Bytes) : Prop :=
  m.crypt = none ∨ m.dict.contains key = false ∨
    ({ m with dict := m.dict.erase key } : MMKV).appendsTombstone (pairBytes key []) = false

lemma MMKV.of_appendsTombstone {key tomb : Bytes}
    (h : ({ m with dict := m.dict.erase key } : MMKV).appendsTombstone tomb = true) :
    m.fitsTail tomb = true ∧ 0 < m.actualSize := by
  simp only [appendsTombstone, Bool.and_eq_true, decide_eq_true_eq] at h
  exact ⟨h.1.1.1, h.1.2⟩

lemma MMKV.tombstoneOK.crypt_eq_none {key : Bytes} (hok : m.tombstoneOK key) (hc : m.dict.contains key = true)
    (htomb : ({ m with dict := m.dict.erase key } : MMKV).appendsTombstone (pairBytes key []) = true) :
    m.crypt = none := by
  rcases hok with hcrypt | hnot | hnot
  · exact hcrypt
  · rw [hc] at hnot
    cases hnot
  · rw [htomb] at hnot
    cases hnot

theorem remove_outcome {key : Bytes} (h : Steady d m) (hsys : sys.OK) (hok : m.tombstoneOK key)
    (hlt : 4 + ((Op.removeValueForKey key).regionAfter sys d m).length < 2 ^ 32) :
    Outcome P d m (m.dict.erase key) (m.removeValueForKey P sys d key) := by
  have hwf := parseDict_wf h.decoded
  rw [Op.regionAfter] at hlt
  rw [MMKV.removeValueForKey]
  cases hc : m.dict.contains key with
  | false =>
    rw [OrdMap.erase_of_getElem?_none (ExtTreeMap.getElem?_eq_none_of_contains_eq_false hc)]
    exact outcome_unchanged h
  | true =>
    simp only [hc, Bool.not_true, Bool.false_eq_true, if_false] at hlt ⊢
    split
    · next htomb =>
      rw [if_pos htomb] at hlt
      obtain ⟨hfit, hpos⟩ := MMKV.of_appendsTombstone htomb
      rw [h.actualSize] at hpos
      exact appendRaw_outcome h (hok.crypt_eq_none hc htomb) hpos hfit (hwf.ne_nil_of_contains hc)
        (show m.dict.erase key = applyPair m.dict key [] by simp [applyPair]) hlt
    · next htomb =>
      rw [if_neg htomb] at hlt
      exact MMKV.fullWritebackGrow_outcome h (hwf.erase key) hsys hlt

theorem remove_effect {key : Bytes} (h : Synced d m) (hsys : sys.OK) (hok : m.tombstoneOK key)
    (hlt : 4 + ((Op.removeValueForKey key).regionAfter sys d m).length < 2 ^ 32) :
    (Op.removeValueForKey key).Effect P sys d m (m.removeValueForKey P sys d key) := by
  have heffect := (remove_outcome (P := P) h.steady hsys hok hlt).effect h.enableExpire (h.image.stamped.erase key)
  rw [OrdMap.lookup_erase] at heffect
  exact heffect

lemma foldl_erase_of_absent {dict : Dict} {keys : List Bytes} (h : (keys.all fun k => !dict.contains k) = true) :
    keys.foldl (fun dict k => dict.erase k) dict = dict := by
  refine OrdMap.lookup_inj (funext fun k => ?_)
  simp only [OrdMap.lookup_foldl_erase]
  split
  · next hk =>
    have := List.all_eq_true.1 h k hk
    exact (ExtTreeMap.getElem?_eq_none_of_contains_eq_false (by simpa using this)).symm
  · rfl

lemma MMKV.content_removeMany (m : MMKV) (sys : Sys) (keys : List Bytes) :
    m.content.after sys m.expiredSeconds (.removeValuesForKeys keys) =
      ⟨OrdMap.lookup (keys.foldl (fun dict k => dict.erase k) m.dict), m.enableExpire⟩ := by
  refine Content.ext (funext fun k => ?_) rfl
  simp [Content.after, MMKV.content]

theorem removeMany_outcome {keys : List Bytes} (h : Steady d m) (hsys : sys.OK)
    (hlt : 4 + ((Op.removeValuesForKeys keys).regionAfter sys d m).length < 2 ^ 32) :
    Outcome P d m (keys.foldl (fun dict k => dict.erase k) m.dict) (m.removeValuesForKeys P sys d keys) := by
  rw [Op.regionAfter] at hlt
  rw [MMKV.removeValuesForKeys]
  split
  · next hall =>
    rw [foldl_erase_of_absent hall]
    exact outcome_unchanged h
  · next hall =>
    rw [if_neg hall] at hlt
    exact MMKV.fullWritebackGrow_outcome h ((parseDict_wf h.decoded).foldl_erase keys) hsys hlt

theorem removeMany_effect {keys : List Bytes} (h : Synced d m) (hsys : sys.OK)
    (hlt : 4 + ((Op.removeValuesForKeys keys).regionAfter sys d m).length < 2 ^ 32) :
    (Op.removeValuesForKeys keys).Effect P sys d m (m.removeValuesForKeys P sys d keys) := by
  rw [Op.Effect, m.content_removeMany]
  exact (removeMany_outcome h.steady hsys hlt).effect h.enableExpire (h.image.stamped.foldl_erase keys)

theorem clearAll_effect (h : Synced d m) (hsys : sys.OK) : Op.clearAll.Effect P sys d m (m.clearAllLocked P sys) := by
  obtain ⟨mi, hr⟩ := MMKV.clearAllLocked_spec (P := P) h.data h.image.metaSize_le hsys
  have heffect := hr.effect (m := m) h.enableExpire h.needLoad h.closed h.readOnly rfl rfl
  rw [OrdMap.lookup_empty] at heffect
  exact heffect

theorem trim_effect (h : Synced d m) (hsys : sys.OK) (hlt : 4 + (Op.trim.regionAfter sys d m).length < 2 ^ 32) :
    Op.trim.Effect P sys d m (m.trim P sys d) := by
  obtain ⟨mi, hr⟩ := MMKV.trim_spec (P := P) h hsys fun h0 => by rwa [Op.regionAfter, if_neg h0] at hlt
  exact hr.effect h.enableExpire h.needLoad h.closed h.readOnly rfl rfl

/-! ### Changing the key and the expiration -/

theorem reKey_effect {newKey : Bytes} (h : Synced d m) (hsys : sys.OK)
    (hlt : 4 + ((Op.reKey newKey).regionAfter sys d m).length < 2 ^ 32) :
    (Op.reKey newKey).Effect P sys d m (m.reKey P sys d newKey) := by
  rw [Op.Effect]
  simp only [MMKV.reKey]
  generalize hcrypt : (if newKey = [] then none else some (newAESCFB P.aes newKey)) = crypt
  obtain ⟨mi, hr⟩ := MMKV.fullWritebackGrow_spec (P := P) (m := { m with crypt := crypt }) h.data h.image.metaSize_le
    h.image.wf h.image.stamped hsys hlt true 0
  have heffect := hr.effect (m := m) h.enableExpire h.needLoad h.closed h.readOnly rfl rfl
  have herr : (({ m with crypt := crypt } : MMKV).fullWriteback P sys d).err = none := hr.err
  simp only [herr, Op.cryptAfter, hcrypt]
  exact heffect

lemma expireEnabled_or (mi : MetaInfo) :
    ({ mi with flags := mi.flags ||| flagEnableExpire } : MetaInfo).expireEnabled = true := by
  have h : (mi.flags ||| flagEnableExpire) &&& flagEnableExpire = 1 := by
    apply UInt64.eq_of_toBitVec_eq
    ext i hi
    simp [flagEnableExpire]
    grind
  simp [MetaInfo.expireEnabled, h]

lemma expireEnabled_andNot (mi : MetaInfo) :
    ({ mi with flags := mi.flags &&& ~~~flagEnableExpire } : MetaInfo).expireEnabled = false := by
  have h : (mi.flags &&& ~~~flagEnableExpire) &&& flagEnableExpire = 0 := by
    rw [UInt64.and_assoc]
    simp [flagEnableExpire]
  simp [MetaInfo.expireEnabled, h]

section Expire

variable (hwf : WF m.dict) (hst : Stamped m.info m.dict) (hexp : m.enableExpire = m.info.expireEnabled)
include hwf hst hexp

/-- Once expiration is on, every slot is a value and its timestamp, whether or not it was one before. -/
lemma MMKV.slot_withExpire {seconds : UInt32} {k v : Bytes} (hkv : (m.withExpire seconds).dict[k]? = some v) :
    k ≠ [] ∧ 5 ≤ v.length := by
  simp only [MMKV.withExpire] at hkv
  split at hkv
  · next he =>
    exact ⟨(hwf k v hkv).1, hst (hexp.symm.trans he) k v hkv⟩
  · rw [ExtTreeMap.getElem?_map, Option.map_eq_some_iff] at hkv
    obtain ⟨u, hu, rfl⟩ := hkv
    have hpos := List.length_pos_iff.2 (hwf k u hu).2
    refine ⟨(hwf k u hu).1, ?_⟩
    rw [List.length_append, List.length_replicate]
    omega

lemma MMKV.wf_withExpire (seconds : UInt32) : WF (m.withExpire seconds).dict := by
  intro k v hkv
  have hslot := MMKV.slot_withExpire hwf hst hexp hkv
  exact ⟨hslot.1, List.length_pos_iff.1 (by have := hslot.2; omega)⟩

lemma MMKV.stamped_withExpire (seconds : UInt32) : Stamped (m.withExpire seconds).info (m.withExpire seconds).dict :=
  fun _ _ _ hkv => (MMKV.slot_withExpire hwf hst hexp hkv).2

lemma MMKV.wf_withoutExpire (he : m.enableExpire = true) : WF (m.withoutExpire sys).dict := by
  intro k v hkv
  rw [MMKV.withoutExpire, ExtTreeMap.getElem?_filterMap', Option.bind_eq_some_iff] at hkv
  obtain ⟨u, hu, huv⟩ := hkv
  have h5 := hst (hexp.symm.trans he) k u hu
  refine ⟨(hwf k u hu).1, ?_⟩
  simp only [slotValue, Bool.true_and, decide_eq_true_eq, show 4 ≤ u.length by omega, if_true] at huv
  split at huv
  · cases huv
  · cases huv
    exact List.length_pos_iff.1 (by rw [List.length_take]; omega)

end Expire

lemma MMKV.content_withExpire (m : MMKV) (sys : Sys) (seconds : UInt32) :
    m.content.after sys m.expiredSeconds (.enableAutoKeyExpire seconds) =
      ⟨OrdMap.lookup (m.withExpire seconds).dict, true⟩ := by
  refine Content.ext (funext fun k => ?_) rfl
  cases he : m.enableExpire <;> simp [Content.after, MMKV.content, MMKV.withExpire, OrdMap.lookup, he]

lemma MMKV.content_withoutExpire (he : m.enableExpire = true) :
    m.content.after sys m.expiredSeconds .disableAutoKeyExpire =
      ⟨OrdMap.lookup (m.withoutExpire sys).dict, false⟩ := by
  simp only [Content.after, MMKV.content, he, if_true]
  refine Content.ext (funext fun k => ?_) rfl
  simp [OrdMap.lookup, MMKV.withoutExpire]

lemma MMKV.stamped_withoutExpire (m : MMKV) (sys : Sys) :
    Stamped (m.withoutExpire sys).info (m.withoutExpire sys).dict :=
  fun hf => absurd ((expireEnabled_andNot m.info).symm.trans hf) (by decide)

theorem enableAutoKeyExpire_effect {seconds : UInt32} (h : Synced d m) (hsys : sys.OK)
    (hlt : 4 + ((Op.enableAutoKeyExpire seconds).regionAfter sys d m).length < 2 ^ 32) :
    (Op.enableAutoKeyExpire seconds).Effect P sys d m (m.enableAutoKeyExpire P sys d seconds) := by
  obtain ⟨mi, hr⟩ := MMKV.fullWritebackGrow_spec (m := m.withExpire seconds) h.data h.image.metaSize_le
    (MMKV.wf_withExpire h.image.wf h.image.stamped h.enableExpire seconds)
    (MMKV.stamped_withExpire h.image.wf h.image.stamped h.enableExpire seconds) hsys hlt _ _
  rw [Op.Effect, m.content_withExpire]
  exact hr.effect (expireEnabled_or m.info).symm h.needLoad h.closed h.readOnly rfl rfl

theorem disableAutoKeyExpire_effect (h : Synced d m) (hsys : sys.OK)
    (hlt : 4 + (Op.disableAutoKeyExpire.regionAfter sys d m).length < 2 ^ 32) :
    Op.disableAutoKeyExpire.Effect P sys d m (m.disableAutoKeyExpire P sys d) := by
  rw [Op.Effect]
  rw [Op.regionAfter] at hlt
  rw [MMKV.disableAutoKeyExpire]
  cases he : m.enableExpire with
  | false =>
    have := effect_unchanged (P := P) h
    simpa [Content.after, MMKV.content, Op.secondsAfter, Op.cryptAfter, he] using this
  | true =>
    simp only [he, Bool.not_true, Bool.false_eq_true, if_false] at hlt ⊢
    obtain ⟨mi, hr⟩ := MMKV.fullWritebackGrow_spec (m := m.withoutExpire sys) h.data h.image.metaSize_le
      (MMKV.wf_withoutExpire h.image.wf h.image.stamped h.enableExpire he) (m.stamped_withoutExpire sys) hsys hlt _ _
    rw [MMKV.content_withoutExpire he]
    exact hr.effect (expireEnabled_andNot m.info).symm h.needLoad h.closed h.readOnly rfl rfl

/-! ### All calls -/

/-- What a call is required to be, on the instance as it is after the freshness probe: no empty key is set, and no
tombstone is appended to ciphertext. -/
def Op.Good (m : MMKV) : Op → Prop
  | .set key _ => key ≠ []
  | .removeValueForKey key => m.tombstoneOK key
  | _ => True

lemma Op.good_of_plaintext {op : Op} (hset : ∀ v, op ≠ .set [] v) (hcrypt : m.crypt = none) : op.Good m := by
  cases op with
  | set key v =>
    rintro rfl
    exact hset v rfl
  | removeValueForKey key => exact .inl hcrypt
  | _ => trivial

lemma MMKV.mutate_of_steady (h : Steady d m) (body : MMKV → Result) : m.mutate sys d body = body m := by
  simp [mutate, h.closed, h.readOnly, checkLoadData_of_steady h]

lemma MMKV.mutate_of_synced (h : Synced d m) (body : MMKV → Result) : m.mutate sys d body = body m :=
  mutate_of_steady h.steady body

lemma MMKV.exec_set_of_overrides {key : Bytes} {v : Value} (h : Synced d m) (hcmp : m.compareBeforeSet = false)
    (hexp : m.enableExpire = false) (hover : m.overrides key (pairBytes key v.blob) = true)
    (hlt : 4 + (itemSizeHolderBytes ++ pairBytes key v.blob).length < 2 ^ 32) :
    m.exec P sys d (.set key v) = ⟨dataWrites 4 (itemSizeHolderBytes ++ pairBytes key v.blob) ++
      metaWords (m.overriddenInfo (pairBytes key v.blob)).crcDigest (m.overriddenInfo (pairBytes key v.blob)).actualSize,
      m.inPlace (m.overriddenInfo (pairBytes key v.blob)) (m.dict.insert key v.blob), none⟩ := by
  rw [exec, mutate_of_synced h, setValueLocked_eq hcmp hexp]
  exact setBlob_of_overrides h.steady hover hlt

lemma MMKV.exec_set_of_appends {key : Bytes} {v : Value} (h : Synced d m) (hcmp : m.compareBeforeSet = false)
    (hexp : m.enableExpire = false) (hover : m.overrides key (pairBytes key v.blob) = false)
    (happend : m.appends (pairBytes key v.blob) = true) :
    m.exec P sys d (.set key v) = ⟨(m.appendRaw (pairBytes key v.blob)).1,
      m.inPlace (m.appendedInfo (pairBytes key v.blob)) (m.dict.insert key v.blob), none⟩ := by
  rw [exec, mutate_of_synced h, setValueLocked_eq hcmp hexp]
  exact setBlob_of_appends h.data hover happend

lemma effect_setting {m' : MMKV} (h : Synced d m) (hsynced : Synced d m') (hcontent : m'.content = m.content)
    (hcrypt : m'.crypt = m.crypt) (hsec : m'.expiredSeconds = m.expiredSeconds)
    (hmulti : m'.multiProcess = m.multiProcess) :
    Effect P d m m.content m.crypt m.expiredSeconds ⟨[], m', none⟩ :=
  ⟨rfl, hsynced, hcontent, hcrypt, hsec, hmulti,
    .unchanged rfl (hcrypt ▸ hsynced.image |>.unique h.image).1.symm, fun hne => absurd hcrypt hne, id⟩

/-- **Every call on an instance that agrees with its files** has the effect that `Content.after` says, as long as 32 bits
address the region it leaves. -/
theorem exec_effect (h : Synced d m) (hsys : sys.OK) {op : Op} (hgood : op.Good m)
    (hlt : 4 + (op.regionAfter sys d m).length < 2 ^ 32) (hcache : op ≠ .clearMemoryCache) :
    op.Effect P sys d m (m.exec P sys d op) := by
  cases op with
  | set key v =>
    rw [MMKV.exec, MMKV.mutate_of_synced h]
    exact set_effect h hsys hgood hlt
  | removeValueForKey key =>
    rw [MMKV.exec, MMKV.mutate_of_synced h]
    exact remove_effect h hsys hgood hlt
  | removeValuesForKeys keys =>
    rw [MMKV.exec, MMKV.mutate_of_synced h]
    exact removeMany_effect h hsys hlt
  | clearAll =>
    rw [MMKV.exec, MMKV.mutate_of_synced h]
    exact clearAll_effect h hsys
  | trim =>
    rw [MMKV.exec, MMKV.mutate_of_synced h]
    exact trim_effect h hsys hlt
  | sync =>
    have hflush : MMKV.flush sys = none := by simp [MMKV.flush, msync, hsys.syncData, hsys.syncMeta]
    simp only [MMKV.exec, MMKV.syncFlush, h.closed, h.readOnly, hflush, Bool.false_eq_true, if_false]
    exact effect_unchanged h
  | clearMemoryCache => exact absurd rfl hcache
  | enableAutoKeyExpire seconds =>
    rw [MMKV.exec, MMKV.mutate_of_synced h]
    exact enableAutoKeyExpire_effect h hsys hlt
  | disableAutoKeyExpire =>
    rw [MMKV.exec, MMKV.mutate_of_synced h]
    exact disableAutoKeyExpire_effect h hsys hlt
  | enableCompareBeforeSet =>
    rw [MMKV.exec, MMKV.enableCompareBeforeSet]
    split
    · exact effect_unchanged h
    · exact effect_setting h
        ⟨h.image, h.data, h.actualSize, h.crcDigest, h.enableExpire, h.needLoad, h.needFullWriteback, h.closed,
          h.readOnly⟩ rfl rfl rfl rfl
  | disableCompareBeforeSet =>
    exact effect_setting h
      ⟨h.image, h.data, h.actualSize, h.crcDigest, h.enableExpire, h.needLoad, h.needFullWriteback, h.closed,
        h.readOnly⟩ rfl rfl rfl rfl
  | reKey newKey =>
    rw [MMKV.exec, MMKV.mutate_of_synced h]
    exact reKey_effect h hsys hlt

end Effects

end MmkvGo.Store
