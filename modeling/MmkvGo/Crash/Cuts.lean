import MmkvGo.Crash.Torn
import MmkvGo.Store.Failed

/-!
Where a rewrite of the region in place can be cut.  An override and a full write-back make their stores in the same
order: room for the region and the header of the data file (`Rewrite.lead`), the bytes of the new region one after the
other, and then the meta, two words of it or the whole record (`Rewrite.record`).  A kill after the first `n` stores
leaves a front part of the new region over the old one (`Rewrite.tornAt`) as long as no store of the meta was made, and
the new region under a part of the new meta afterwards.
-/

namespace MmkvGo.Crash

open MmkvGo.Lib MmkvGo.Wire MmkvGo.Crypt MmkvGo.Store Std

/-- A rewrite of the region in place: by the one pair of an override, or by a full write-back of the instance `m`. -/
inductive Rewrite where
  | override (m : MMKV) (pair : Bytes)
  | writeback (m : MMKV) (needSync : Bool) (incoming : ℕ)

namespace Rewrite

/-- The instance that is written. -/
def base : Rewrite → MMKV
  | override m _ | writeback m .. => m

/-- The stores before the first byte of the region. -/
def lead (P : Platform) (d : Disk) : Rewrite → List Write
  | override .. => []
  | writeback m needSync incoming =>
    resizeWrites d.data.length (m.grownSize P (4 + (regionOf m.dict).length + incoming) needSync incoming) ++
      dataWrites 0 (List.replicate 4 0)

/-- The region that is stored. -/
def region (sys : Sys) : Rewrite → Bytes
  | override _ pair => itemSizeHolderBytes ++ pair
  | writeback m .. => m.stored sys

/-- The meta that names it. -/
def info (sys : Sys) : Rewrite → MetaInfo
  | override m pair => m.overriddenInfo pair
  | writeback m .. => m.writtenInfo (m.stored sys) (m.nextIV sys)

/-- The stores of the meta: the CRC and the size, or the record byte by byte. -/
def record (sys : Sys) : Rewrite → List Write
  | override m pair => MMKV.metaWords (m.overriddenInfo pair).crcDigest (m.overriddenInfo pair).actualSize
  | writeback m .. => crcWrites 0 (m.writtenInfo (m.stored sys) (m.nextIV sys)).marshal

def stores (P : Platform) (sys : Sys) (d : Disk) (rw : Rewrite) : List Write :=
  rw.lead P d ++ dataWrites 4 (rw.region sys) ++ rw.record sys

/-- The number of the stores of the meta among the first `n` stores. -/
def metaStores (P : Platform) (sys : Sys) (d : Disk) (rw : Rewrite) (n : ℕ) : ℕ :=
  n - ((rw.lead P d).length + (rw.region sys).length)

/-- The first `size` bytes of the region after the first `n` stores: a front part of the new region over what the files
`d` held there. -/
def tornAt (P : Platform) (sys : Sys) (d : Disk) (rw : Rewrite) (n : ℕ) (size : UInt32) : Bytes :=
  patch (d.region size) 0 ((rw.region sys).take (n - (rw.lead P d).length))

/-- After `j` stores of the meta it names the new region; `mi` is the meta before.  A record names it as soon as the CRC,
the version and the size are stored, or all of it where the flags change. -/
def Names (sys : Sys) (mi : MetaInfo) (j : ℕ) : Rewrite → Prop
  | override m pair => 2 ≤ j ∨ 1 ≤ j ∧ mi.actualSize = (m.overriddenInfo pair).actualSize
  | writeback m .. =>
    let info := m.writtenInfo (m.stored sys) (m.nextIV sys)
    offVersion + 4 ≤ j ∧ (offActualSize + 4 ≤ j ∨ mi.actualSize = info.actualSize) ∧
      (metaSize ≤ j ∨ mi.flags = info.flags)

/-- After `j` stores of the meta it has the new CRC with the old size, and the last write-back is still named. -/
def Straddles (j : ℕ) : Rewrite → Prop
  | override .. => j = 1
  | writeback .. => offVersion + 4 ≤ j ∧ j ≤ offActualSize

end Rewrite

/-- The rewrite that a call makes on an instance that is up to date, if it makes one: a set that neither is skipped nor
appends, a removal without a tombstone, and the calls that always write back. -/
def rewriteOf (P : Platform) (sys : Sys) (m : MMKV) : Op → Option Rewrite
  | .set key v =>
    let slot := m.slotFor sys v.blob
    let pair := pairBytes key slot
    if m.compareBeforeSet && !m.enableExpire && m.dict[key]? == some v.blob then none
    else if m.overrides key pair then some (.override m pair)
    else if m.appends pair then none
    else some (.writeback { m with dict := m.dict.insert key slot } (!m.dict.isEmpty) pair.length)
  | .removeValueForKey key =>
    let m' : MMKV := { m with dict := m.dict.erase key }
    if !m.dict.contains key then none
    else if m'.appendsTombstone (pairBytes key []) then none
    else some (.writeback m' true 0)
  | .removeValuesForKeys keys =>
    if keys.all fun k => !m.dict.contains k then none
    else some (.writeback { m with dict := keys.foldl (fun dict k => dict.erase k) m.dict } true 0)
  | .trim => if m.actualSize = 0 then none else some (.writeback m true 0)
  | .reKey newKey =>
    some (.writeback { m with crypt := if newKey = [] then none else some (newAESCFB P.aes newKey) } true 0)
  | .enableAutoKeyExpire seconds => some (.writeback (m.withExpire seconds) true 0)
  | .disableAutoKeyExpire => if m.enableExpire then some (.writeback (m.withoutExpire sys) true 0) else none
  | .clearAll | .sync | .clearMemoryCache | .enableCompareBeforeSet | .disableCompareBeforeSet => none

/-- What there is to know of the rewrite that a call makes: its stores, which only `Trim` follows up by a resize, and that
the region fits. -/
structure Rewrites (P : Platform) (sys : Sys) (d : Disk) (m : MMKV) (op : Op) (rw : Rewrite) : Prop where
  crypt : rw.base.crypt = op.cryptAfter P m.crypt
  data : rw.base.data = m.data
  writes : ∃ size, (m.exec P sys d op).writes =
    rw.stores P sys d ++ resizeWrites (d.apply (rw.stores P sys d)).data.length size
  room : 4 + (rw.region sys).length ≤ (d.apply (rw.lead P d)).data.length
  override : ∀ m' pair, rw = .override m' pair → m' = m ∧ m.info.version = versionFlag

section Calls

variable {P : Platform} {sys : Sys} {d : Disk} {m m₁ : MMKV} {op : Op} {rw : Rewrite}

lemma Rewrite.stores_writeback (hdata : m₁.data = ⟨d.data.length, true⟩) (hsys : sys.OK) (needSync : Bool)
    (incoming : ℕ) :
    (m₁.fullWritebackGrow P sys d needSync incoming).writes = (Rewrite.writeback m₁ needSync incoming).stores P sys d := by
  rw [MMKV.fullWritebackGrow_writes hdata hsys, MMKV.regionWrites]
  rfl

lemma rewrites_writeback {needSync : Bool} {incoming : ℕ} (hdata : m.data = ⟨d.data.length, true⟩) (hsys : sys.OK)
    (hm₁ : m₁.data = m.data) (hcrypt : m₁.crypt = op.cryptAfter P m.crypt)
    (hwrites : ∃ size, (m.exec P sys d op).writes = (m₁.fullWritebackGrow P sys d needSync incoming).writes ++
      resizeWrites (d.apply (m₁.fullWritebackGrow P sys d needSync incoming).writes).data.length size) :
    Rewrites P sys d m op (.writeback m₁ needSync incoming) := by
  have hdata₁ : m₁.data = ⟨d.data.length, true⟩ := hm₁.trans hdata
  rw [Rewrite.stores_writeback hdata₁ hsys] at hwrites
  refine ⟨hcrypt, hm₁, hwrites, ?_, fun _ _ h => by cases h⟩
  have hlt := MMKV.lt_grownSize (P := P) (m := m₁) (4 + (regionOf m₁.dict).length + incoming) needSync incoming
  rw [Rewrite.lead, Disk.apply_append, Disk.apply_resizeWrites, Disk.apply_dataWrites, length_patch, length_resize,
    Rewrite.region, MMKV.length_stored]
  omega

lemma rewrites_writeback_only {needSync : Bool} {incoming : ℕ} (hdata : m.data = ⟨d.data.length, true⟩) (hsys : sys.OK)
    (hm₁ : m₁.data = m.data) (hcrypt : m₁.crypt = op.cryptAfter P m.crypt)
    (hwrites : (m.exec P sys d op).writes = (m₁.fullWritebackGrow P sys d needSync incoming).writes) :
    Rewrites P sys d m op (.writeback m₁ needSync incoming) := by
  refine rewrites_writeback hdata hsys hm₁ hcrypt
    ⟨(d.apply (m₁.fullWritebackGrow P sys d needSync incoming).writes).data.length, ?_⟩
  rw [resizeWrites, if_pos rfl, List.append_nil]
  exact hwrites

lemma rewrites_set {key : Bytes} {v : Value} (h : Synced d m) (hsys : sys.OK)
    (hlt : 4 + ((Op.set key v).regionAfter sys d m).length < 2 ^ 32)
    (hop : rewriteOf P sys m (.set key v) = some rw) : Rewrites P sys d m (.set key v) rw := by
  rw [rewriteOf] at hop
  split at hop
  · cases hop
  next hskip =>
  have hexec : m.exec P sys d (.set key v) = m.setBlob P sys d key (m.slotFor sys v.blob) := by
    rw [MMKV.exec, MMKV.mutate_of_synced h, MMKV.setValueLocked, if_neg hskip]
    rfl
  split at hop
  · next hover =>
    cases hop
    obtain ⟨-, hver, -, hroom, -⟩ := MMKV.overrides_of_steady h.steady hover
    have hregion : (Op.set key v).regionAfter sys d m = itemSizeHolderBytes ++ pairBytes key (m.slotFor sys v.blob) := by
      rw [Op.regionAfter, MMKV.regionAfterPut, if_neg hskip]
      exact if_pos hover
    rw [hregion] at hlt
    let rw : Rewrite := .override m (pairBytes key (m.slotFor sys v.blob))
    refine ⟨rfl, rfl, ⟨(d.apply (rw.stores P sys d)).data.length, ?_⟩, ?_, ?_⟩
    · rw [hexec, MMKV.setBlob_of_overrides h.steady hover hlt, resizeWrites, if_pos rfl, List.append_nil]
      rfl
    · rw [Rewrite.lead, Rewrite.region, Disk.apply_nil, List.length_append]
      omega
    · rintro m' pair hrw
      cases hrw
      exact ⟨rfl, hver⟩
  next hover =>
  -- the append path rewrites nothing
  split at hop
  · cases hop
  next happ =>
  cases hop
  refine rewrites_writeback_only h.data hsys rfl rfl ?_
  rw [hexec, MMKV.setBlob]
  simp only [hover, happ, Bool.false_eq_true, if_false]

lemma rewrites_removeValueForKey {key : Bytes} (h : Synced d m) (hsys : sys.OK)
    (hop : rewriteOf P sys m (.removeValueForKey key) = some rw) : Rewrites P sys d m (.removeValueForKey key) rw := by
  rw [rewriteOf] at hop
  split at hop
  · cases hop
  next habsent =>
  split at hop
  · cases hop
  next htomb =>
  cases hop
  refine rewrites_writeback_only h.data hsys rfl rfl ?_
  rw [MMKV.exec, MMKV.mutate_of_synced h, MMKV.removeValueForKey, if_neg habsent]
  dsimp only
  rw [if_neg htomb]
  rfl

lemma rewrites_trim (h : Synced d m) (hsys : sys.OK) (hop : rewriteOf P sys m .trim = some rw) :
    Rewrites P sys d m .trim rw := by
  rw [rewriteOf] at hop
  split at hop
  · cases hop
  next hzero =>
  cases hop
  refine rewrites_writeback h.data hsys rfl rfl ?_
  rw [MMKV.exec, MMKV.mutate_of_synced h, MMKV.trim, if_neg hzero]
  dsimp only
  split
  · refine ⟨(d.apply (m.fullWriteback P sys d).writes).data.length, ?_⟩
    rw [← MMKV.fullWriteback, resizeWrites, if_pos rfl, List.append_nil]
  · have hdata : (m.fullWriteback P sys d).m.data = ⟨(d.apply (m.fullWriteback P sys d).writes).data.length, true⟩ :=
      MMKV.fullWritebackGrow_data h.data hsys
    exact ⟨_, congrArg _ (MMKV.shrink_writes hdata hsys)⟩

theorem rewrites_of_rewriteOf (h : Synced d m) (hsys : sys.OK) (hlt : 4 + (op.regionAfter sys d m).length < 2 ^ 32)
    (hop : rewriteOf P sys m op = some rw) : Rewrites P sys d m op rw := by
  cases op with
  | set key v => exact rewrites_set h hsys hlt hop
  | removeValueForKey key => exact rewrites_removeValueForKey h hsys hop
  | trim => exact rewrites_trim h hsys hop
  | removeValuesForKeys keys =>
    rw [rewriteOf] at hop
    split at hop
    · cases hop
    · next hall =>
      cases hop
      refine rewrites_writeback_only h.data hsys rfl rfl ?_
      rw [MMKV.exec, MMKV.mutate_of_synced h, MMKV.removeValuesForKeys, if_neg hall]
      rfl
  | reKey newKey =>
    cases hop
    refine rewrites_writeback_only h.data hsys rfl rfl ?_
    rw [MMKV.exec, MMKV.mutate_of_synced h, MMKV.reKey]
    dsimp only
    split <;> rfl
  | enableAutoKeyExpire seconds =>
    cases hop
    refine rewrites_writeback_only h.data hsys rfl rfl ?_
    rw [MMKV.exec, MMKV.mutate_of_synced h]
    rfl
  | disableAutoKeyExpire =>
    rw [rewriteOf] at hop
    split at hop
    · next hon =>
      cases hop
      refine rewrites_writeback_only h.data hsys rfl rfl ?_
      rw [MMKV.exec, MMKV.mutate_of_synced h, MMKV.disableAutoKeyExpire, hon]
      rfl
    · cases hop
  | clearAll | sync | clearMemoryCache | enableCompareBeforeSet | disableCompareBeforeSet => cases hop

end Calls

/-! ### The data file -/

/-- The data file is `data` still, but for its header and for zeros at its end. -/
structure SameBody (data data' : Bytes) : Prop where
  length : data.length ≤ data'.length
  body : ∀ hi ≤ data.length, slice data' 4 hi = slice data 4 hi
  header : slice data 0 4 = List.replicate 4 0 → slice data' 0 4 = List.replicate 4 0

section Data

variable {P : Platform} {sys : Sys} {d : Disk} {rw : Rewrite} {n : ℕ} {mi : MetaInfo} {data' : Bytes}

lemma SameBody.refl (data : Bytes) : SameBody data data := ⟨le_rfl, fun _ _ => rfl, id⟩

lemma Rewrite.apply_take_lead (hbase : rw.base.data = ⟨d.data.length, true⟩) (h4 : 4 ≤ d.data.length) (n : ℕ) :
    ∃ data', SameBody d.data data' ∧ d.apply ((rw.lead P d).take n) = { d with data := data' } := by
  cases rw with
  | override m pair => exact ⟨d.data, .refl _, by simp [lead]⟩
  | writeback m needSync incoming =>
    have hgrown := MMKV.le_grownSize (P := P) (m := m) (4 + (regionOf m.dict).length + incoming) needSync incoming
    have hbase' : m.data = ⟨d.data.length, true⟩ := hbase
    rw [hbase'] at hgrown
    rw [lead]
    generalize m.grownSize P (4 + (regionOf m.dict).length + incoming) needSync incoming = size at hgrown ⊢
    -- the file has been resized or it has not
    obtain ⟨size', hle, hresize⟩ : ∃ size', d.data.length ≤ size' ∧
        d.apply ((resizeWrites d.data.length size).take n) = { d with data := resize 0 d.data size' } := by
      rcases Nat.lt_or_ge n (resizeWrites d.data.length size).length with hn | hn
      · refine ⟨d.data.length, le_rfl, ?_⟩
        have hlen : (resizeWrites d.data.length size).length ≤ 1 := by
          rw [resizeWrites]
          split <;> simp
        rw [show n = 0 by omega, resize_length]
        rfl
      · exact ⟨size, hgrown, by rw [List.take_of_length_le hn, Disk.apply_resizeWrites]⟩
    refine ⟨_, ?_, by rw [List.take_append, take_dataWrites, Disk.apply_append, hresize, Disk.apply_dataWrites]⟩
    obtain ⟨k, hk, hzeros⟩ : ∃ k ≤ 4, (List.replicate 4 (0 : UInt8)).take
        (n - (resizeWrites d.data.length size).length) = List.replicate k 0 :=
      ⟨min _ 4, Nat.min_le_right .., by rw [List.take_replicate]⟩
    dsimp only
    rw [hzeros]
    refine ⟨by rw [length_patch, length_resize]; exact hle, fun hi hhi => ?_, fun hheader => ?_⟩
    · rw [slice_patch_of_ge _ (by rw [List.length_replicate]; omega), slice_resize (hhi.trans hle) hhi]
    · rw [slice_patch_start, slice_resize (h4.trans hle) h4, hheader, patch_replicate]

theorem Rewrite.apply_cut (hbase : rw.base.data = ⟨d.data.length, true⟩) (h4 : 4 ≤ d.data.length) (rest : List Write)
    (hn : rw.metaStores P sys d n = 0) :
    ∃ data', SameBody d.data data' ∧ d.apply ((rw.stores P sys d ++ rest).take n) =
      { d with data := patch data' 4 ((rw.region sys).take (n - (rw.lead P d).length)) } := by
  obtain ⟨data', hbody, happly⟩ := rw.apply_take_lead (P := P) hbase h4 n
  refine ⟨data', hbody, ?_⟩
  have hle : n ≤ (rw.lead P d ++ dataWrites 4 (rw.region sys)).length := by
    rw [List.length_append, length_dataWrites]
    exact Nat.sub_eq_zero_iff_le.1 hn
  rw [stores, List.append_assoc, List.take_append_of_le_length hle, List.take_append, take_dataWrites, Disk.apply_append,
    happly, Disk.apply_dataWrites]

lemma Rewrite.apply_take_record (d' : Disk) (h : d'.crc = d.crc) (j : ℕ) :
    d'.apply ((rw.record sys).take j) = { d' with crc := (d.apply ((rw.record sys).take j)).crc } := by
  cases rw with
  | override m pair =>
    rcases j with _ | _ | j
    · simp [← h]
    · simp only [record, MMKV.metaWords, List.take_succ_cons, List.take_zero, Disk.apply_cons, Disk.apply_nil, Disk.write, h]
    · simp only [record, MMKV.metaWords, List.take_succ_cons, List.take_nil, Disk.apply_cons, Disk.apply_nil, Disk.write, h]
  | writeback m needSync incoming =>
    rw [record, take_crcWrites, Disk.apply_crcWrites, Disk.apply_crcWrites, h]

lemma Rewrite.apply_upto (P : Platform) (sys : Sys) (d : Disk) (rw : Rewrite) (j : ℕ) :
    d.apply (rw.lead P d ++ dataWrites 4 (rw.region sys) ++ (rw.record sys).take j) =
      ⟨patch (d.apply (rw.lead P d)).data 4 (rw.region sys), (d.apply ((rw.record sys).take j)).crc⟩ := by
  have hcrc : (d.apply (rw.lead P d)).crc = d.crc := by
    cases rw with
    | override => rfl
    | writeback => rw [lead, Disk.apply_append, Disk.apply_resizeWrites, Disk.apply_dataWrites]
  rw [Disk.apply_append, Disk.apply_append, Disk.apply_dataWrites]
  exact apply_take_record ⟨patch (d.apply (rw.lead P d)).data 4 (rw.region sys), (d.apply (rw.lead P d)).crc⟩ hcrc j

lemma Rewrite.apply_stores (P : Platform) (sys : Sys) (d : Disk) (rw : Rewrite) :
    d.apply (rw.stores P sys d) =
      ⟨patch (d.apply (rw.lead P d)).data 4 (rw.region sys), (d.apply (rw.record sys)).crc⟩ := by
  have hall := rw.apply_upto P sys d (rw.record sys).length
  rwa [List.take_length] at hall

lemma Rewrite.length_stores (P : Platform) (sys : Sys) (d : Disk) (rw : Rewrite) :
    (rw.stores P sys d).length = (rw.lead P d).length + (rw.region sys).length + (rw.record sys).length := by
  rw [stores, List.length_append, List.length_append, length_dataWrites]

theorem Rewrite.apply_cut_record (rest : List Write) (hpos : 0 < rw.metaStores P sys d n)
    (hle : rw.metaStores P sys d n ≤ (rw.record sys).length) :
    d.apply ((rw.stores P sys d ++ rest).take n) =
      ⟨patch (d.apply (rw.lead P d)).data 4 (rw.region sys),
        (d.apply ((rw.record sys).take (rw.metaStores P sys d n))).crc⟩ := by
  have hlen : (rw.lead P d ++ dataWrites 4 (rw.region sys)).length = (rw.lead P d).length + (rw.region sys).length := by
    rw [List.length_append, length_dataWrites]
  rw [← apply_upto]
  rw [metaStores] at *
  rw [stores, List.append_assoc, List.take_append, hlen, List.take_of_length_le (by rw [hlen]; omega),
    List.take_append_of_le_length hle]

lemma SameBody.region_patch (h : SameBody d.data data') (bytes crc : Bytes) {size : UInt32}
    (hsize : 4 + size.toNat ≤ d.data.length) :
    (⟨patch data' 4 bytes, crc⟩ : Disk).region size = patch (d.region size) 0 bytes := by
  rw [Disk.region, slice_patch_start, h.body _ hsize, Disk.region]

lemma SameBody.versioned (h : SameBody d.data data') (hsealed : Sealed d mi) (bytes crc : Bytes) :
    Versioned ⟨patch data' 4 bytes, crc⟩ mi := by
  rcases hsealed.current with hver | ⟨rfl, hzero⟩
  · exact .inl hver
  · have h4 : 0 + 4 ≤ d.data.length := by
      have := hsealed.fits
      omega
    have hheader : slice d.data 0 4 = List.replicate 4 0 := by
      have hword := writeRawLittleEndian32_getUint32 h4
      rw [hzero] at hword
      rw [← hword]
      decide
    have hheader' : slice (patch data' 4 bytes) 0 4 = List.replicate 4 0 := by
      rw [slice_patch_of_le _ le_rfl, h.header hheader]
    refine .inr ⟨⟨rfl, rfl, by decide⟩, ?_⟩
    rw [getUint32_eq_slice, hheader']
    decide

end Data

/-! ### The meta -/

section Meta

variable {P : Platform} {sys : Sys} {d : Disk} {m : MMKV} {op : Op} {rw : Rewrite} {mi : MetaInfo} {j : ℕ}

/-- Of a record of which the first `j` bytes are stored, a part is new that ends below `j`, or that does not change. -/
lemma slice_patch_take {file record : Bytes} {lo hi : ℕ} (hrecord : hi ≤ record.length) (hfile : record.length ≤ file.length)
    (h : hi ≤ j ∨ slice file lo hi = slice record lo hi) :
    slice (patch file 0 (record.take j)) lo hi = slice record lo hi := by
  have hlen : (record.take j).length = min j record.length := List.length_take ..
  rcases h with hj | hsame
  · rw [slice_patch_zero (by omega) (by omega), slice_take hj]
  · have hbyte : ∀ x, lo ≤ x → x < hi → file[x]? = record[x]? := by
      intro x hlo hhi
      have hx := congrArg (·[x - lo]?) hsame
      simpa [slice, List.getElem?_drop, List.getElem?_take, show lo + (x - lo) = x by omega, hhi] using hx
    refine List.ext_getElem? fun i => ?_
    rw [patch_eq (by omega), List.take_zero, List.nil_append, hlen]
    simp only [slice, List.getElem?_drop, List.getElem?_take, List.getElem?_append, hlen]
    split
    · next hi' =>
      split
      · next hlt => rw [if_pos (by omega)]
      · rw [show 0 + min j record.length + (lo + i - min j record.length) = lo + i by omega]
        exact hbyte (lo + i) (by omega) hi'
    · rfl

lemma getUint32_patch_take {file record : Bytes} {off : ℕ} (hrecord : off + 4 ≤ record.length)
    (hfile : record.length ≤ file.length) (h : off + 4 ≤ j ∨ getUint32 file off = getUint32 record off) :
    getUint32 (patch file 0 (record.take j)) off = getUint32 record off := by
  rw [getUint32_eq_slice, slice_patch_take hrecord hfile, getUint32_eq_slice]
  refine h.imp_right fun hsame => ?_
  rw [← writeRawLittleEndian32_getUint32 (by omega), hsame, writeRawLittleEndian32_getUint32 hrecord]

lemma getUint64_patch_take {file record : Bytes} {off : ℕ} (hrecord : off + 8 ≤ record.length)
    (hfile : record.length ≤ file.length) (h : off + 8 ≤ j ∨ getUint64 file off = getUint64 record off) :
    getUint64 (patch file 0 (record.take j)) off = getUint64 record off := by
  rw [getUint64_eq_slice, slice_patch_take hrecord hfile, getUint64_eq_slice]
  refine h.imp_right fun hsame => ?_
  rw [← writeRawLittleEndian64_getUint64 (by omega), hsame, writeRawLittleEndian64_getUint64 hrecord]

lemma getUint32_patch_take_old {file record : Bytes} {off : ℕ} (h : j ≤ off) :
    getUint32 (patch file 0 (record.take j)) off = getUint32 file off :=
  getUint32_patch_of_ge _ (by rw [List.length_take]; omega)

lemma getUint64_patch_take_old {file record : Bytes} {off : ℕ} (h : j ≤ off) :
    getUint64 (patch file 0 (record.take j)) off = getUint64 file off :=
  getUint64_patch_of_ge _ (by rw [List.length_take]; omega)

/-- **Which cuts leave a meta that names the new region.** -/
theorem Rewrite.Names.parse (h : rw.Names sys mi j) (hparse : parseMeta d.crc = .ok mi)
    (hover : ∀ m pair, rw = .override m pair → m.info = mi ∧ mi.version = versionFlag) :
    ∃ mi', parseMeta (d.apply ((rw.record sys).take j)).crc = .ok mi' ∧ mi'.version = versionFlag ∧
      mi'.actualSize = (rw.info sys).actualSize ∧ mi'.crcDigest = (rw.info sys).crcDigest ∧
      mi'.flags = (rw.info sys).flags := by
  cases rw with
  | override m pair =>
    obtain ⟨hinfo, hver⟩ := hover m pair rfl
    have hflags : mi.flags = (m.overriddenInfo pair).flags := by rw [← hinfo]; rfl
    -- the CRC word is stored first, and the size word is the old one until the second store
    rcases j with _ | _ | j
    · simp [Names] at h
    · have hsize : mi.actualSize = (m.overriddenInfo pair).actualSize := by simpa [Names] using h
      exact ⟨_, parseMeta_putUint32_crc hparse _, hver, hsize, rfl, hflags⟩
    · refine ⟨{ mi with crcDigest := (m.overriddenInfo pair).crcDigest, actualSize := (m.overriddenInfo pair).actualSize },
        ?_, hver, rfl, rfl, hflags⟩
      simp only [record, MMKV.metaWords, List.take_succ_cons, List.take_nil]
      exact parseMeta_putUint32_crc_size hparse _ _
  | writeback m needSync incoming =>
    obtain ⟨hj, hsize, hflags⟩ := h
    have hlen := le_length_of_parseMeta hparse
    rw [parseMeta_ok hlen] at hparse
    obtain rfl := Except.ok.inj hparse
    have hver : (m.writtenInfo (m.stored sys) (m.nextIV sys)).version = versionFlag := rfl
    rw [record, take_crcWrites, Disk.apply_crcWrites, info]
    dsimp only at hsize hflags
    generalize m.writtenInfo (m.stored sys) (m.nextIV sys) = info at hsize hflags hver ⊢
    have hmarshal : info.marshal.length = metaSize := by simp
    -- a word is the new one if it was copied, or if it does not change
    have hword : ∀ off, off + 4 ≤ metaSize → (off + 4 ≤ j ∨ getUint32 d.crc off = getUint32 info.marshal off) →
        getUint32 (patch d.crc 0 (info.marshal.take j)) off = getUint32 info.marshal off :=
      fun off hoff h => getUint32_patch_take (by omega) (by omega) h
    refine ⟨_, parseMeta_ok (by rw [length_patch]; exact hlen), ?_, ?_, ?_, ?_⟩
    · rw [hword offVersion (by decide) (.inl hj), getUint32_marshal_version, hver]
    · rw [hword offActualSize (by decide) (by rw [getUint32_marshal_actualSize]; exact hsize),
        getUint32_marshal_actualSize]
    · rw [hword offCRC (by decide) (.inl (by simp only [offVersion, offCRC] at *; omega)), getUint32_marshal_crc]
    · rw [getUint64_patch_take (by rw [hmarshal]; decide) (by omega) (by rw [getUint64_marshal_flags]; exact hflags),
        getUint64_marshal_flags]

lemma Rewrite.Straddles.bounds (h : rw.Straddles j) : 0 < j ∧ j ≤ (rw.record sys).length := by
  cases rw with
  | override m pair =>
    obtain rfl : j = 1 := h
    exact ⟨by decide, show 1 ≤ 2 by decide⟩
  | writeback m needSync incoming =>
    obtain ⟨hlo, hhi⟩ := h
    have hlen : (Rewrite.record sys (.writeback m needSync incoming)).length = metaSize := by simp [record]
    simp only [offVersion, offActualSize, metaSize] at hlo hhi hlen
    omega

lemma Rewrite.names_record (rw : Rewrite) (mi : MetaInfo) : rw.Names sys mi (rw.record sys).length := by
  cases rw with
  | override m pair => exact .inl le_rfl
  | writeback m needSync incoming =>
    have hlen : (Rewrite.record sys (.writeback m needSync incoming)).length = metaSize := by simp [record]
    rw [hlen]
    exact ⟨by decide, .inl (by decide), .inl le_rfl⟩

/-- **Which cuts leave a meta with the new CRC and the old size**, and the last write-back in it. -/
theorem Rewrite.Straddles.parse (h : rw.Straddles j) (sys : Sys) (hparse : parseMeta d.crc = .ok mi)
    (hover : ∀ m pair, rw = .override m pair → m.info = mi ∧ mi.version = versionFlag) :
    ∃ mi', parseMeta (d.apply ((rw.record sys).take j)).crc = .ok mi' ∧ mi'.version = versionFlag ∧
      mi'.actualSize = mi.actualSize ∧ mi'.crcDigest = (rw.info sys).crcDigest ∧
      mi'.lastActualSize = mi.lastActualSize ∧ mi'.lastCRCDigest = mi.lastCRCDigest ∧ mi'.flags = mi.flags := by
  cases rw with
  | override m pair =>
    obtain ⟨-, hver⟩ := hover m pair rfl
    obtain rfl : j = 1 := h
    exact ⟨_, parseMeta_putUint32_crc hparse _, hver, rfl, rfl, rfl, rfl, rfl⟩
  | writeback m needSync incoming =>
    obtain ⟨hj, hbelow⟩ := h
    have hlen := le_length_of_parseMeta hparse
    rw [parseMeta_ok hlen] at hparse
    obtain rfl := Except.ok.inj hparse
    have hver : (m.writtenInfo (m.stored sys) (m.nextIV sys)).version = versionFlag := rfl
    rw [record, take_crcWrites, Disk.apply_crcWrites, info]
    generalize m.writtenInfo (m.stored sys) (m.nextIV sys) = info at hver ⊢
    have hmarshal : info.marshal.length = metaSize := by simp
    have hword : ∀ off, off + 4 ≤ metaSize → off + 4 ≤ j →
        getUint32 (patch d.crc 0 (info.marshal.take j)) off = getUint32 info.marshal off :=
      fun off hoff h => getUint32_patch_take (by omega) (by omega) (.inl h)
    simp only [offVersion, offActualSize] at hj hbelow
    refine ⟨_, parseMeta_ok (by rw [length_patch]; exact hlen), ?_, ?_, ?_, ?_, ?_, ?_⟩
    · rw [hword offVersion (by decide) hj, getUint32_marshal_version, hver]
    · exact getUint32_patch_take_old hbelow
    · rw [hword offCRC (by decide) (by simp only [offCRC]; omega), getUint32_marshal_crc]
    · exact getUint32_patch_take_old (by simp only [offLastActualSize]; omega)
    · exact getUint32_patch_take_old (by simp only [offLastCRCDigest]; omega)
    · exact getUint64_patch_take_old (by simp only [offFlags]; omega)

end Meta

end MmkvGo.Crash
