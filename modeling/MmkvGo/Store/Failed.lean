import MmkvGo.Store.Encrypted

/-!
Calls that fail before they store anything.  A set, a removal and a change of the expiration change the map in memory
first and write it back afterwards; when the write-back finds no IV, or cannot grow the file, the call returns its
error and the map stays changed.  Only `ReKey` puts back what it changed.  `failed_call_unaffected_iff` says which calls
the omission does not show on, and `failed_set_takes_effect` is a failed set that the next set publishes.
-/

namespace MmkvGo.Store

open MmkvGo.Lib MmkvGo.Wire MmkvGo.Crypt Std

/-- The instance with another IV in its meta. -/
def MMKV.withIV (m : MMKV) (iv : Block) : MMKV := { m with info := { m.info with iv := iv } }

/-- The slot that a set of the blob binds. -/
def MMKV.slotFor (m : MMKV) (sys : Sys) (blob : Bytes) : Bytes :=
  if m.enableExpire then MMKV.appendExpire sys blob m.expiredSeconds else blob

/-- The instance that a call writes back, `none` when the call ends before it comes to that. -/
def Op.edited (sys : Sys) (m : MMKV) : Op → Option MMKV
  | .set key v => some { m with dict := m.dict.insert key (m.slotFor sys v.blob) }
  | .removeValueForKey key => if m.dict.contains key then some { m with dict := m.dict.erase key } else none
  | .removeValuesForKeys keys =>
    if keys.all fun k => !m.dict.contains k then none
    else some { m with dict := keys.foldl (fun dict k => dict.erase k) m.dict }
  | .enableAutoKeyExpire seconds => some (m.withExpire seconds)
  | .disableAutoKeyExpire => if m.enableExpire then some (m.withoutExpire sys) else none
  | _ => none

/-- The calls that edit the map or its expiration: sets, removals, and the switches of the expiration. -/
def Op.Edits : Op → Prop
  | .set .. | .removeValueForKey _ | .removeValuesForKeys _ | .enableAutoKeyExpire _ | .disableAutoKeyExpire => True
  | _ => False

/-- The instance `m'` answers as `m` does: every key has the same value at every time, expiration is on or off as it
was, and a later set gets the duration it would have got. -/
structure Unaffected (d : Disk) (m m' : MMKV) : Prop where
  values : ∀ (sys : Sys) (key : Bytes), sys.remap = none →
    (m'.get sys d (View.value · key) none).2 = (m.get sys d (View.value · key) none).2
  enabled : m'.enableExpire = m.enableExpire
  seconds : m'.expiredSeconds = m.expiredSeconds

/-- The calls that leave the map and its expiration as they are: a set of the slot that the key has, and a repeated
switch to the duration that is set. -/
def Op.Harmless (sys : Sys) (m : MMKV) : Op → Prop
  | .set key v => m.dict[key]? = some (m.slotFor sys v.blob)
  | .enableAutoKeyExpire seconds => m.enableExpire = true ∧ seconds = m.expiredSeconds
  | _ => False

section Failure

variable {P : Platform} {sys : Sys} {d : Disk} {m : MMKV}

lemma MemoryFile.truncate_failed {fails : Option Syscall} {mf data : MemoryFile} {newSize : ℕ} {e : Err}
    (h : mf.truncate P fails newSize = ([], data, some e)) : data = mf := by
  by_cases hsize : pageRoundUp P newSize = mf.size
  · simp [truncate, hsize] at h
  · simp only [truncate, hsize, if_false] at h
    split at h
    · cases h
      rfl
    · split at h <;> cases h
    · cases h
    · cases h

/-- **How a full write-back ends**: without an IV, without room, or with its stores made, the last of which is a meta
with the next sequence number. -/
theorem MMKV.fullWritebackGrow_cases (P : Platform) (sys : Sys) (d : Disk) (m : MMKV) (needSync : Bool) (incoming : ℕ) :
    let r := m.fullWritebackGrow P sys d needSync incoming
    (∃ e, m.payload sys (regionOf m.dict) = .error e ∧ r = ⟨[], m, some e⟩) ∨
      ∃ ct iv, m.payload sys (regionOf m.dict) = .ok (ct, iv) ∧
        ((∃ grown data e, m.grow P sys (4 + ct.length + incoming) needSync incoming = (grown, data, some e) ∧
            r = ⟨grown, { m.withIV iv with data := data }, some e⟩) ∨
          ∃ grown data, ∃ info : MetaInfo, m.grow P sys (4 + ct.length + incoming) needSync incoming = (grown, data, none) ∧
            info.sequence = m.info.sequence + 1 ∧ info.version = versionFlag ∧
            r.writes = grown ++ dataWrites 0 (List.replicate 4 0) ++ dataWrites 4 ct ++ crcWrites 0 info.marshal) := by
  intro r
  cases hpayload : m.payload sys (regionOf m.dict) with
  | error e =>
    refine .inl ⟨e, rfl, ?_⟩
    simp only [r, fullWritebackGrow, hpayload]
  | ok p =>
    obtain ⟨ct, iv⟩ := p
    refine .inr ⟨ct, iv, rfl, ?_⟩
    obtain ⟨grown, data, err, hgrow⟩ : ∃ grown data err,
        m.grow P sys (4 + ct.length + incoming) needSync incoming = (grown, data, err) := ⟨_, _, _, rfl⟩
    have hgrow' : (m.withIV iv).grow P sys (4 + ct.length + incoming) needSync incoming = (grown, data, err) := hgrow
    rw [withIV] at hgrow'
    cases err with
    | some e =>
      refine .inl ⟨grown, data, e, hgrow, ?_⟩
      simp only [r, fullWritebackGrow, hpayload, hgrow', withIV]
    | none =>
      let crc := Crc32.checksum (slice (data.memory
        (d.apply (grown ++ dataWrites 0 (List.replicate 4 0) ++ dataWrites 4 ct))) 4 (4 + ct.length))
      let size := UInt32.ofNat ct.length
      refine .inr ⟨grown, data, ⟨crc, versionFlag, m.info.sequence + 1, iv, size, size, crc, m.info.flags⟩, hgrow, rfl, rfl,
        ?_⟩
      simp only [r, fullWritebackGrow, hpayload, hgrow']
      split
      · rfl
      · split <;> rfl

/-- **A write-back that fails before its first store** has changed nothing but the IV. -/
theorem MMKV.fullWritebackGrow_failed {needSync : Bool} {incoming : ℕ}
    (hnone : (m.fullWritebackGrow P sys d needSync incoming).writes = []) :
    ∃ iv, (m.fullWritebackGrow P sys d needSync incoming).m = m.withIV iv := by
  rcases m.fullWritebackGrow_cases P sys d needSync incoming with
    ⟨e, -, hr⟩ | ⟨ct, iv, -, ⟨grown, data, e, hgrow, hr⟩ | ⟨grown, data, info, -, -, -, hr⟩⟩
  · exact ⟨m.info.iv, by rw [hr]; rfl⟩
  · rw [hr] at hnone ⊢
    refine ⟨iv, ?_⟩
    obtain rfl : grown = [] := hnone
    have hdata : data = m.data := by
      rw [grow] at hgrow
      split at hgrow
      · cases hgrow
      · exact MemoryFile.truncate_failed hgrow
    rw [hdata]
    rfl
  · rw [hr] at hnone
    simp [dataWrites] at hnone

/-- **An edit that fails before its first store** leaves the instance it would have written back, up to the IV. -/
theorem exec_failed {op : Op} (h : Synced d m) (hop : op.Edits) (herr : (m.exec P sys d op).err ≠ none)
    (hnone : (m.exec P sys d op).writes = []) :
    ∃ m₁ iv, op.edited sys m = some m₁ ∧ (m.exec P sys d op).m = m₁.withIV iv := by
  cases op with
  | set key v =>
    rw [MMKV.exec, MMKV.mutate_of_synced h, MMKV.setValueLocked] at herr hnone ⊢
    split at herr
    · exact absurd rfl herr
    next hskip =>
    simp only [hskip, Bool.false_eq_true, if_false] at hnone ⊢
    rw [← MMKV.slotFor] at herr hnone ⊢
    rw [MMKV.setBlob] at herr hnone ⊢
    split at herr
    · exact absurd rfl herr
    next hover =>
    split at herr
    · exact absurd rfl herr
    next happend =>
    -- neither path in place can fail, so it was the write-back
    simp only [hover, happend, Bool.false_eq_true, if_false] at hnone ⊢
    obtain ⟨iv, hm⟩ := MMKV.fullWritebackGrow_failed hnone
    exact ⟨_, iv, rfl, hm⟩
  | removeValueForKey key =>
    rw [MMKV.exec, MMKV.mutate_of_synced h, MMKV.removeValueForKey] at herr hnone ⊢
    split at herr
    · exact absurd rfl herr
    next hc =>
    dsimp only at herr
    split at herr
    · exact absurd rfl herr
    next htomb =>
    simp only [hc, htomb, Bool.false_eq_true, if_false] at hnone ⊢
    obtain ⟨iv, hm⟩ := MMKV.fullWritebackGrow_failed hnone
    exact ⟨_, iv, if_pos (by simpa using hc), hm⟩
  | removeValuesForKeys keys =>
    rw [MMKV.exec, MMKV.mutate_of_synced h, MMKV.removeValuesForKeys] at herr hnone ⊢
    split at herr
    · exact absurd rfl herr
    next hall =>
    simp only [hall, Bool.false_eq_true, if_false] at hnone ⊢
    obtain ⟨iv, hm⟩ := MMKV.fullWritebackGrow_failed hnone
    exact ⟨_, iv, if_neg hall, hm⟩
  | enableAutoKeyExpire seconds =>
    rw [MMKV.exec, MMKV.mutate_of_synced h, MMKV.enableAutoKeyExpire] at hnone ⊢
    obtain ⟨iv, hm⟩ := MMKV.fullWritebackGrow_failed hnone
    exact ⟨_, iv, rfl, hm⟩
  | disableAutoKeyExpire =>
    rw [MMKV.exec, MMKV.mutate_of_synced h, MMKV.disableAutoKeyExpire] at herr hnone ⊢
    split at herr
    · exact absurd rfl herr
    next he =>
    simp only [he, Bool.false_eq_true, if_false] at hnone ⊢
    obtain ⟨iv, hm⟩ := MMKV.fullWritebackGrow_failed hnone
    exact ⟨_, iv, if_pos (by simpa using he), hm⟩
  | clearAll | trim | sync | clearMemoryCache | enableCompareBeforeSet | disableCompareBeforeSet | reKey =>
    exact hop.elim

lemma Op.edited_frame {op : Op} {m₁ : MMKV} (hm₁ : op.edited sys m = some m₁) :
    m₁.closed = m.closed ∧ m₁.needLoad = m.needLoad ∧ m₁.info.sequence = m.info.sequence ∧
      m₁.crcDigest = m.crcDigest ∧ m₁.actualSize = m.actualSize := by
  cases op with
  | set key v | enableAutoKeyExpire seconds =>
    cases hm₁
    exact ⟨rfl, rfl, rfl, rfl, rfl⟩
  | removeValueForKey key | removeValuesForKeys keys | disableAutoKeyExpire =>
    simp only [Op.edited] at hm₁
    split at hm₁
    all_goals first
      | cases hm₁; done
      | cases hm₁; exact ⟨rfl, rfl, rfl, rfl, rfl⟩
  | clearAll | trim | sync | clearMemoryCache | enableCompareBeforeSet | disableCompareBeforeSet | reKey => cases hm₁

/-- An instance that failed to write back what it had edited answers from its edited map: the probe does not find out. -/
lemma get_edited {op : Op} {m₁ : MMKV} {α : Type} (h : Synced d m) (hm₁ : op.edited sys m = some m₁) (iv : Block)
    (sys' : Sys) (getter : View → α) (zero : α) :
    ((m₁.withIV iv).get sys' d getter zero).2 = getter (m₁.view sys'.now) := by
  obtain ⟨hclosed, hload, hseq, hcrc, hsize⟩ := op.edited_frame hm₁
  have hprobe : (m₁.withIV iv).checkLoadData d sys' = m₁.withIV iv :=
    MMKV.checkLoadData_of_words h.image.parse hseq.symm (h.crcDigest.symm.trans hcrc.symm)
      (h.actualSize.symm.trans hsize.symm) (hload.trans h.needLoad)
  have hget := MMKV.get_of_probe getter zero (show (m₁.withIV iv).closed = false from hclosed.trans h.closed) hprobe
  exact hget

lemma slotValue_zero_ne_none (e : Bool) (v : Bytes) : slotValue e 0 v ≠ none := by
  rw [slotValue]
  split
  · simp only [ne_eq, ite_eq_left_iff, reduceCtorEq, imp_false, not_not, not_and]
    exact fun h0 hle => h0 (UInt32.le_zero_iff.1 hle)
  · exact Option.some_ne_none v

lemma Op.Harmless.edited_eq {op : Op} {m₁ : MMKV} (hharm : op.Harmless sys m) (hm₁ : op.edited sys m = some m₁) :
    m₁.dict = m.dict ∧ m₁.enableExpire = m.enableExpire ∧ m₁.expiredSeconds = m.expiredSeconds ∧
      m₁.crypt = m.crypt := by
  cases op with
  | set key v =>
    cases hm₁
    refine ⟨OrdMap.lookup_inj ?_, rfl, rfl, rfl⟩
    rw [OrdMap.lookup_insert]
    exact Function.update_eq_self_iff.2 hharm.symm
  | enableAutoKeyExpire seconds =>
    cases hm₁
    exact ⟨by simp [MMKV.withExpire, hharm.1], hharm.1.symm, hharm.2, rfl⟩
  | removeValueForKey | removeValuesForKeys | disableAutoKeyExpire | clearAll | trim | sync | clearMemoryCache
  | enableCompareBeforeSet | disableCompareBeforeSet | reKey => exact hharm.elim

section Unaffected

variable {op : Op} {m₁ : MMKV} {iv : Block}

lemma Unaffected.slots (hun : Unaffected d m (m₁.withIV iv)) (h : Synced d m) (hm₁ : op.edited sys m = some m₁)
    (key : Bytes) (now : UInt32) :
    (m₁.dict[key]?).bind (slotValue m.enableExpire now) = (m.dict[key]?).bind (slotValue m.enableExpire now) := by
  have hexp : m₁.enableExpire = m.enableExpire := hun.enabled
  have hval := hun.values { calm with now := now } key rfl
  rw [get_edited h hm₁, h.get_eq, View.value_eq_bind, View.value_eq_bind] at hval
  simpa only [MMKV.view, hexp] using hval

lemma Unaffected.kept (hun : Unaffected d m (m₁.withIV iv)) (h : Synced d m) (hm₁ : op.edited sys m = some m₁)
    {key v : Bytes} (hv : m.dict[key]? = some v) : m₁.dict[key]? ≠ none := by
  intro hnone
  have h0 := hun.slots h hm₁ key 0
  rw [hv, hnone] at h0
  exact slotValue_zero_ne_none _ v h0.symm

lemma Unaffected.harmless (hun : Unaffected d m (m₁.withIV iv)) (h : Synced d m) (hm₁ : op.edited sys m = some m₁) :
    op.Harmless sys m := by
  have hslots := hun.slots h hm₁
  have hkept : ∀ key v : Bytes, m.dict[key]? = some v → m₁.dict[key]? ≠ none := fun _ _ => hun.kept h hm₁
  cases op with
  | set key v =>
    cases hm₁
    have hkey := hslots key
    simp only [ExtTreeMap.getElem?_insert_self, Option.bind_some] at hkey
    cases hv : m.dict[key]? with
    | none =>
      rw [hv] at hkey
      exact absurd (hkey 0) (slotValue_zero_ne_none _ _)
    | some u =>
      rw [hv] at hkey
      rw [Op.Harmless, hv]
      -- the clock can show any time, so slots that are read alike are equal
      refine congrArg some (slotValue_inj (fun he => ?_) (fun he => ?_) hkey).symm
      · rw [MMKV.slotFor, if_pos he, length_appendExpire]
        omega
      · have := h.image.stamped (h.enableExpire.symm.trans he) key u hv
        omega
  | removeValueForKey key =>
    simp only [Op.edited] at hm₁
    split at hm₁
    · next hc =>
      cases hm₁
      obtain ⟨u, hu⟩ := Option.isSome_iff_exists.1 (ExtTreeMap.mem_iff_isSome_getElem?.1 hc)
      -- the key was there, and its removal would be seen
      exact hkept key u hu ExtTreeMap.getElem?_erase_self
    · cases hm₁
  | removeValuesForKeys keys =>
    simp only [Op.edited] at hm₁
    split at hm₁
    · cases hm₁
    · next hall =>
      cases hm₁
      obtain ⟨k, hk, hc⟩ : ∃ k ∈ keys, m.dict.contains k = true := by simpa using hall
      obtain ⟨u, hu⟩ := Option.isSome_iff_exists.1 (ExtTreeMap.mem_iff_isSome_getElem?.1 hc)
      have hnone := congrFun (OrdMap.lookup_foldl_erase m.dict keys) k
      rw [if_pos hk] at hnone
      exact hkept k u hu hnone
  | enableAutoKeyExpire seconds =>
    cases hm₁
    exact ⟨hun.enabled.symm, hun.seconds⟩
  | disableAutoKeyExpire =>
    simp only [Op.edited] at hm₁
    split at hm₁
    · next he =>
      cases hm₁
      have hexp : false = m.enableExpire := hun.enabled
      rw [he] at hexp
      cases hexp
    · cases hm₁
  | clearAll | trim | sync | clearMemoryCache | enableCompareBeforeSet | disableCompareBeforeSet | reKey => cases hm₁

/-- **Which edits the instance does not show** when they could not be written back. -/
theorem unaffected_iff (h : Synced d m) (hm₁ : op.edited sys m = some m₁) (iv : Block) :
    Unaffected d m (m₁.withIV iv) ↔ op.Harmless sys m := by
  refine ⟨fun hun => hun.harmless h hm₁, fun hharm => ?_⟩
  obtain ⟨hdict, hexp, hsec, -⟩ := hharm.edited_eq hm₁
  refine ⟨fun sys' key _ => ?_, hexp, hsec⟩
  rw [get_edited h hm₁, h.get_eq, MMKV.view, hdict, hexp, MMKV.view]

end Unaffected

/-- **Which failed calls leave no trace.**  In every state that a run of successful calls reaches, a set, a removal or a
switch of the expiration that returns an error before it stored anything leaves the files as they are; the instance
answers as before exactly when the call was harmless, and then every getter does, and later calls start from the same
map, key and duration. -/
theorem failed_call_unaffected_iff {cfg : Config} {mi : MetaInfo} {dict : Dict} {acts : List Act}
    (hstored : Stored (cfg.crypt P) d mi dict) (hro : cfg.readOnly = false)
    (hacts : Along (Act.OK P) (World.step P) (World.start P cfg sys d) acts) :
    let w := run (World.step P) (World.start P cfg sys d) acts
    ∃ m, w.inst = .ok m ∧ ∀ (op : Op) (sys' : Sys), op.Edits → sys'.remap = none →
      (m.exec P sys' w.disk op).err ≠ none → (m.exec P sys' w.disk op).writes = [] →
        let r := m.exec P sys' w.disk op
        let m' := m.checkLoadData w.disk sys'
        ((w.disk.apply r.writes = w.disk ∧ Unaffected w.disk m r.m) ↔ op.Harmless sys' m') ∧
          (op.Harmless sys' m' → r.m.content = m'.content ∧ r.m.crypt = m'.crypt ∧
            ∀ (α : Type) (sys'' : Sys) (getter : View → α) (zero : α), sys''.remap = none →
              (r.m.get sys'' w.disk getter zero).2 = (m.get sys'' w.disk getter zero).2) := by
  obtain ⟨m, h⟩ := run_tracks hstored hro hacts
  intro w
  -- up to a drop of the memory cache the instance is `m`
  obtain ⟨m₀, hinst, hdrop⟩ := h.inst_eq
  have hclosed : m₀.closed = false := hdrop.closed.trans h.synced.closed
  have hget : ∀ {α : Type} (sys' : Sys) (getter : View → α) (zero : α), sys'.remap = none →
      (m₀.get sys' w.disk getter zero).2 = (m.get sys' w.disk getter zero).2 := fun sys' getter zero hsys' =>
    (MMKV.get_of_probe getter zero hclosed (h.checkLoadData hinst hsys')).trans (h.synced.get_eq sys' getter zero).symm
  have hsame : ∀ m' : MMKV, Unaffected w.disk m₀ m' ↔ Unaffected w.disk m m' := by
    intro m'
    constructor <;> intro hun
    · exact ⟨fun sys' key hsys' => (hun.values sys' key hsys').trans (hget sys' _ _ hsys'),
        hun.enabled.trans hdrop.enableExpire, hun.seconds.trans hdrop.expiredSeconds⟩
    · exact ⟨fun sys' key hsys' => (hun.values sys' key hsys').trans (hget sys' _ _ hsys').symm,
        hun.enabled.trans hdrop.enableExpire.symm, hun.seconds.trans hdrop.expiredSeconds.symm⟩
  refine ⟨m₀, hinst, fun op sys' hop hsys herr hnone => ?_⟩
  have hexec : m₀.exec P sys' w.disk op = m.exec P sys' w.disk op := by
    cases op with
    | clearAll | trim | sync | clearMemoryCache | enableCompareBeforeSet | disableCompareBeforeSet | reKey =>
      exact hop.elim
    | _ => rw [MMKV.exec, MMKV.exec, h.mutate hinst hsys, MMKV.mutate_of_synced h.synced]
  rw [hexec] at herr hnone
  obtain ⟨m₁, iv, hm₁, hr⟩ := exec_failed h.synced hop herr hnone
  dsimp only
  rw [hexec, h.checkLoadData hinst hsys, hnone, hr, hsame]
  refine ⟨⟨fun hun => (unaffected_iff h.synced hm₁ iv).1 hun.2, fun hharm =>
    ⟨rfl, (unaffected_iff h.synced hm₁ iv).2 hharm⟩⟩, fun hharm => ?_⟩
  obtain ⟨hdict, hexp₁, -, hcrypt⟩ := hharm.edited_eq hm₁
  refine ⟨Content.ext (congrArg OrdMap.lookup hdict) hexp₁, hcrypt, fun α sys'' getter zero hsys'' => ?_⟩
  rw [get_edited h.synced hm₁, hget sys'' getter zero hsys'', h.synced.get_eq, MMKV.view, hdict, hexp₁, MMKV.view]

lemma exec_set_without_room {key : Bytes} {v : Value} (h : Synced d m) (hcrypt : m.crypt = none)
    (hcmp : m.compareBeforeSet = false) (hexp : m.enableExpire = false) (hgrow : sys.grow = some .truncate)
    (hover : m.overrides key (pairBytes key v.blob) = false) (happend : m.appends (pairBytes key v.blob) = false)
    (hfull : m.data.size ≤ 4 + (regionOf (m.dict.insert key v.blob)).length + (pairBytes key v.blob).length) :
    m.exec P sys d (.set key v) = ⟨[], { m with dict := m.dict.insert key v.blob }, some (.os .truncate)⟩ := by
  rw [MMKV.exec, MMKV.mutate_of_synced h, MMKV.setValueLocked_eq hcmp hexp, MMKV.setBlob_of_neither hover happend]
  have htruncate : ∀ newSize, m.data.size < newSize →
      m.data.truncate P sys.grow newSize = ([], m.data, some (.os .truncate)) := by
    intro newSize hlt
    have hne : pageRoundUp P newSize ≠ m.data.size := by
      have := le_pageRoundUp P newSize
      omega
    simp [MemoryFile.truncate, hne, hgrow]
  cases hsize : growth m.data.size (m.dict.insert key v.blob).size
      (4 + (regionOf (m.dict.insert key v.blob)).length + (pairBytes key v.blob).length) (!m.dict.isEmpty)
      (pairBytes key v.blob).length with
  | none =>
    have := lt_of_growth_none hsize
    omega
  | some newSize =>
    have hlt := lt_of_growth_some hsize
    simp only [MMKV.fullWritebackGrow, MMKV.payload, hcrypt, MMKV.grow, hsize, htruncate newSize (by omega)]

end Failure

/-! ### A file that cannot be made longer -/

/-- `ftruncate` fails when the data file is to grow. -/
def fullDevice : Sys := { calm with grow := some .truncate }

/-- A value of which one page holds two copies, but not with another pair. -/
def wide : Value := .bytes (List.replicate 1990 0)

/-- The other value. -/
def narrow : Value := .bytes (List.replicate 100 0)

lemma synced_wide_narrow :
    let acts : List Act := [.call (.set [98] wide) calm, .call (.set [97] narrow) calm]
    ∃ d m, run (World.step linux) (World.start linux defaults calm ⟨[], []⟩) acts = ⟨d, .ok m⟩ ∧
      Along (Act.OK linux) (World.step linux) (World.start linux defaults calm ⟨[], []⟩) acts ∧ Synced d m ∧
      m.exec linux fullDevice d (.set [98] wide) =
        ⟨[], { m with dict := m.dict.insert [98] wide.blob }, some (.os .truncate)⟩ ∧
      m.dict[([98] : Bytes)]? = some wide.blob ∧ m.enableExpire = false := by
  intro acts
  have hro : defaults.readOnly = false := rfl
  have hroom : 4 + (regionOf ((∅ : Dict).insert [98] wide.blob)).length + (pairBytes [98] wide.blob).length <
      linux.pageSize := by decide +kernel
  obtain ⟨hworld, hfirst, -⟩ := run_first_set (P := linux) hro calm_ok [98] wide (by simp) hroom
  obtain ⟨-, -, hsynced⟩ := first_set (P := linux) hro calm_ok [98] wide (by simp) hroom
  obtain ⟨hstep, hok, hsynced'⟩ := append_set (P := linux) (v := narrow) hsynced calm_ok
    (show ([97] : Bytes) ≠ [] by simp) rfl (by decide +kernel) (by decide +kernel) (by decide +kernel) (by decide +kernel)
  rw [run_cons, run_nil] at hworld
  refine ⟨_, _, ?_, ⟨hfirst, ?_, trivial⟩, hsynced', ?_, ?_, ?_⟩
  · rw [run_cons, hworld, run_cons, hstep, run_nil]
  · rw [hworld]
    exact hok
  · exact exec_set_without_room hsynced' rfl rfl (by decide +kernel) rfl (by decide +kernel) (by decide +kernel)
      (by decide +kernel)
  · decide +kernel
  · decide +kernel

/-- A set of the value the key has: there is no room to append it, nor to write the map back with room for it. -/
theorem setAgain_unaffected :
    let w := run (World.step linux) (World.start linux defaults calm ⟨[], []⟩)
      [.call (.set [98] wide) calm, .call (.set [97] narrow) calm]
    ∃ m, w.inst = .ok m ∧ (m.exec linux fullDevice w.disk (.set [98] wide)).err = some (.os .truncate) ∧
      Unaffected w.disk m (m.exec linux fullDevice w.disk (.set [98] wide)).m := by
  obtain ⟨d, m, hrun, hacts, hsynced, hexec, hslot, hexp⟩ := synced_wide_narrow
  obtain ⟨m', hinst, hiff⟩ := failed_call_unaffected_iff (.inr ⟨blank_absent, rfl, rfl⟩) rfl hacts
  rw [hrun] at hinst hiff ⊢
  cases hinst
  have hharm : (Op.set [98] wide).Harmless fullDevice m := by
    rw [Op.Harmless, hslot, MMKV.slotFor, if_neg (by simp [hexp])]
  have hcall := hiff (.set [98] wide) fullDevice trivial rfl (by rw [hexec]; simp) (by rw [hexec])
  rw [MMKV.checkLoadData_of_synced hsynced] at hcall
  exact ⟨m, rfl, by rw [hexec], (hcall.1.2 hharm).2⟩

/-- A value that does not fit the first page twice. -/
def long : Value := .bytes (List.replicate 2100 0)

/-- **A failed set takes effect.**  Where the file cannot be made longer, the set of a long value returns an error and
stores nothing; its value is read nevertheless, and the next set writes it to the files with its own. -/
theorem failed_set_takes_effect :
    let d := freshDisk linux
    let m := defaults.fresh linux
    let r := m.exec linux fullDevice d (.set [97] long)
    let r' := r.m.exec linux calm d (.set [98] (.bool true))
    World.start linux defaults calm ⟨[], []⟩ = ⟨d, .ok m⟩ ∧ r.err = some (.os .truncate) ∧ r.writes = [] ∧
      (m.get calm d (View.getBytes · [97]) none).2 = none ∧
      (r.m.get calm d (View.getBytes · [97]) none).2 = some (List.replicate 2100 0) ∧
      r'.err = none ∧ ∃ m', (World.start linux defaults calm (d.apply r'.writes)).inst = .ok m' ∧
        m'.dict[([97] : Bytes)]? = some long.blob := by
  intro d m r r'
  have hsynced : Synced d m := synced_fresh linux rfl
  have hcrc := (image_freshDisk linux none).metaSize_le
  have hfast : m.fastOK = false := fastOK_fresh linux defaults
  have hr : r = ⟨[], defaults.first linux [97] long, some (.os .truncate)⟩ :=
    exec_set_without_room hsynced rfl rfl (enableExpire_fresh linux defaults) rfl (by simp [MMKV.overrides, hfast])
      (by simp [MMKV.appends, hfast]) (by decide +kernel)
  -- the second set writes back what the first one left in memory
  let m₂ : MMKV := { defaults.first linux [97] long with
    dict := ((∅ : Dict).insert [97] long.blob).insert [98] [1] }
  have hclosed : (defaults.first linux [97] long).closed = false := rfl
  have hprobe : (defaults.first linux [97] long).checkLoadData d calm = defaults.first linux [97] long := by
    have hload : (defaults.first linux [97] long).needLoad = false := rfl
    have hsingle : (defaults.first linux [97] long).multiProcess = false := rfl
    simp [MMKV.checkLoadData, hload, hsingle]
  have hr' : r' = m₂.fullWritebackGrow linux calm d true (pairBytes [98] [1]).length := by
    have hro : (defaults.first linux [97] long).readOnly = false := rfl
    have hexp : (defaults.first linux [97] long).enableExpire = false := enableExpire_fresh linux defaults
    have hfast' : (defaults.first linux [97] long).fastOK = false := fastOK_fresh linux defaults
    simp only [r', hr, MMKV.exec, MMKV.mutate, hprobe, hclosed, hro, Bool.false_eq_true, if_false]
    rw [MMKV.setValueLocked_eq rfl hexp, MMKV.setBlob_of_not_fastOK hfast']
    rfl
  have hdata : m₂.data = ⟨d.data.length, true⟩ := hsynced.data
  have hwf : WF m₂.dict := (wf_empty.insert (by simp) long.blob_ne_nil).insert (by simp) (by simp)
  have hst : Stamped m₂.info m₂.dict := fun h => absurd (show blankMeta.expireEnabled = true from h) (by decide)
  obtain ⟨mi, hrewritten⟩ := MMKV.fullWritebackGrow_spec (P := linux) hdata hcrc hwf hst calm_ok (by decide +kernel)
    true (pairBytes [98] [1]).length
  rw [← hr'] at hrewritten
  have hstored : Image (defaults.crypt linux) (d.apply r'.writes) mi m₂.dict := hrewritten.image
  refine ⟨start_absent rfl, by rw [hr], by rw [hr], ?_, ?_, hrewritten.err, ?_⟩
  · rw [hsynced.get_eq]
    decide
  · rw [hr, MMKV.get_of_probe _ _ hclosed hprobe]
    decide +kernel
  · rw [World.start, openMMKV_of_stored (.inl hstored) rfl]
    refine ⟨_, rfl, ?_⟩
    show (((∅ : Dict).insert [97] long.blob).insert [98] [1])[([97] : Bytes)]? = some long.blob
    rw [ExtTreeMap.getElem?_insert, if_neg (by decide), ExtTreeMap.getElem?_insert_self]

end MmkvGo.Store
