import Mathlib.Algebra.Group.Action.Defs
import MmkvGo.Store.Salvage
import MmkvGo.Store.Size

/-!
The room that a full write-back leaves.  A set that cannot be stored in place rewrites the whole region and grows the file
by an estimate of what the next sets need; `writeback_amortizes_iff` says when the estimate is kept: the next sets of
average size are stored in place, whichever of the two paths each of them takes.  The free tail is the budget, and every
set pays for its own pair (`Roomy`).  What does not keep it is a salvaged instance whose region cannot be read back, which
writes back on every set.
-/

namespace MmkvGo.Store

open MmkvGo.Lib MmkvGo.Wire MmkvGo.Crypt Std

/-! ### What the growth leaves -/

theorem MMKV.growthTarget_lt_grownSize {P : Platform} {m : MMKV} (lenNeeded : ℕ) {incoming : ℕ} (hpos : 0 < incoming) :
    growthTarget m.dict.size lenNeeded incoming < m.grownSize P lenNeeded true incoming := by
  rw [grownSize]
  split
  · next h =>
    by_contra hle
    rw [growth, if_pos (.inr ⟨hpos, rfl, by omega⟩)] at h
    cases h
  · next newSize h => exact Nat.lt_of_lt_of_le (growthTarget_lt_of_growth_some h) (le_pageRoundUp P newSize)

/-- The average size of the items of `dict` and one more of `pair` bytes, rounded up. -/
def averageItem (dict : Dict) (pair : ℕ) : ℕ := (4 + (regionOf dict).length + pair + dict.size) / (dict.size + 1)

/-- The number of later sets that a write-back of `dict` makes room for. -/
def laterSets (dict : Dict) : ℕ := max 8 ((dict.size + 1) / 2)

lemma growthTarget_eq (dict : Dict) {pair : ℕ} (hpos : 0 < pair) :
    growthTarget dict.size (4 + (regionOf dict).length + pair) pair =
      4 + (regionOf dict).length + pair + averageItem dict pair * laterSets dict := by
  have hmax : max 1 (dict.size + 1) = dict.size + 1 := by omega
  simp only [growthTarget, hpos, if_true, hmax, averageItem, laterSets]
  rfl

/-- The smallest pair of a set takes 3 bytes, and the holder and the header are counted in. -/
lemma four_le_averageItem {dict : Dict} {pair : ℕ} (hvalues : ∀ k v : Bytes, dict[k]? = some v → v ≠ [])
    (hpair : 3 ≤ pair) : 4 ≤ averageItem dict pair := by
  have hentry : ∀ w ∈ dict.toList.map pairSize, 3 ≤ w := by
    intro w hw
    obtain ⟨⟨k, v⟩, hkv, rfl⟩ := List.mem_map.1 hw
    have hne := hvalues k v (ExtTreeMap.mem_toList_iff_getElem?_eq_some.1 hkv)
    have hpos := List.length_pos_iff.2 hne
    have hle := le_pairSize k v
    omega
  have hsum := List.card_nsmul_le_sum _ 3 hentry
  rw [List.length_map, ExtTreeMap.length_toList, smul_eq_mul] at hsum
  rw [averageItem, length_regionOf, OrdMap.weight, Nat.le_div_iff_mul_le (Nat.succ_pos _)]
  omega

lemma lt_of_mem_dataWrites {off o : ℕ} {bs : Bytes} {b : UInt8} (h : Write.data o b ∈ dataWrites off bs) :
    o < off + bs.length := by
  induction bs generalizing off with
  | nil => cases h
  | cons c bs ih =>
    rw [List.length_cons]
    rcases List.mem_cons.1 h with h | h
    · cases h
      omega
    · have := ih h
      omega

lemma MMKV.lt_of_mem_regionWrites {old new o : ℕ} {ct info : Bytes} {b : UInt8} (hroom : 4 + ct.length ≤ new)
    (h : Write.data o b ∈ regionWrites old new ct ++ crcWrites 0 info) : o < new := by
  have hresize : Write.data o b ∉ resizeWrites old new := by
    rw [resizeWrites]
    split <;> simp
  have hcrc : ∀ (off : ℕ) (bs : Bytes), Write.data o b ∉ crcWrites off bs := by
    intro off bs
    induction bs generalizing off with
    | nil => simp [crcWrites]
    | cons c bs ih => simp [crcWrites, ih]
  rw [regionWrites, List.mem_append, List.mem_append, List.mem_append] at h
  rcases h with ((h | h) | h) | h
  · exact absurd h hresize
  · have := lt_of_mem_dataWrites h
    rw [List.length_replicate] at this
    omega
  · have := lt_of_mem_dataWrites h
    omega
  · exact absurd h (hcrc 0 info)

/-! ### The map that is read back -/

/-- **The region of a map without empty values**, read back: the map itself, or an error if it has the empty key. -/
theorem parseDict_regionOf_values {dict : Dict} (hvalues : ∀ k v : Bytes, dict[k]? = some v → v ≠ [])
    (hlen : (regionOf dict).length < 2 ^ 32) :
    parseDict (regionOf dict) = if dict.contains [] then .error .unexpectedEOF else .ok dict := by
  cases hempty : dict[([] : Bytes)]? with
  | none =>
    have hcontains : dict.contains [] = false := by
      rw [ExtTreeMap.contains_eq_isSome_getElem?, hempty]
      rfl
    rw [hcontains]
    refine parseDict_regionOf (fun k v hkv => ⟨?_, hvalues k v hkv⟩) hlen
    rintro rfl
    rw [hempty] at hkv
    cases hkv
  | some blob =>
    have hcontains : dict.contains [] = true := by
      rw [ExtTreeMap.contains_eq_isSome_getElem?, hempty]
      rfl
    -- the map is one without the empty key, and the empty key put back
    have hback : (dict.erase []).insert [] blob = dict := by
      refine OrdMap.lookup_inj (funext fun k => ?_)
      rw [OrdMap.lookup_insert, OrdMap.lookup_erase]
      by_cases hk : k = []
      · subst hk
        rw [Function.update_self]
        exact hempty.symm
      · rw [Function.update_of_ne hk, Function.update_of_ne hk]
    have hwf : WF (dict.erase []) := by
      intro k v hkv
      rw [ExtTreeMap.getElem?_erase] at hkv
      split at hkv
      · cases hkv
      · next hk =>
        refine ⟨fun h0 => hk ?_, hvalues k v hkv⟩
        rw [h0]
        exact ReflCmp.compare_self
    have hparse := parseDict_regionOf_emptyKey hwf (hvalues [] blob hempty) (by rw [hback]; exact hlen)
    rw [hback] at hparse
    rw [hcontains, hparse]
    rfl

/-! ### The budget -/

/-- An instance that stores in place, in a file with room for `k` pairs of `a` bytes each, whether they are appended or
override the region. -/
structure Roomy (a k : ℕ) (d : Disk) (m : MMKV) : Prop where
  parse : parseMeta d.crc = .ok m.info
  data : m.data = ⟨d.data.length, true⟩
  actualSize : m.actualSize = m.info.actualSize
  crcDigest : m.crcDigest = m.info.crcDigest
  needLoad : m.needLoad = false
  closed : m.closed = false
  readOnly : m.readOnly = false
  fast : m.fastOK = true
  dict : m.dict ≠ ∅
  tail : 4 + m.actualSize.toNat + k * a ≤ d.data.length
  start : 8 + k * a ≤ d.data.length

section Budget

variable {P : Platform} {sys : Sys} {d : Disk} {m : MMKV} {a k : ℕ}

lemma Roomy.mono (h : Roomy a (k + 1) d m) : Roomy a k d m := by
  have hle : k * a ≤ (k + 1) * a := Nat.mul_le_mul_right a (Nat.le_succ k)
  have htail := h.tail
  have hstart := h.start
  exact { h with tail := by omega, start := by omega }

/-- What a set of the average size may do: spend its share of the budget, in a file of the same size and under the same
sequence number. -/
structure Spends (a k : ℕ) (d : Disk) (m : MMKV) (r : Result) : Prop where
  roomy : Roomy a k (d.apply r.writes) r.m
  sequence : r.m.info.sequence = m.info.sequence
  length_eq : (d.apply r.writes).data.length = d.data.length

lemma Roomy.spends {ws : List Write} {crc size : UInt32} {dict : Dict} (h : Roomy a (k + 1) d m)
    (hcrc : (d.apply ws).crc = d.crc) (hlen : (d.apply ws).data.length = d.data.length) (hdict : dict ≠ ∅)
    (hsize : 4 + size.toNat + k * a ≤ d.data.length) :
    Spends a k d m ⟨ws ++ MMKV.metaWords crc size,
      m.inPlace { m.info with actualSize := size, crcDigest := crc } dict, none⟩ := by
  have hd : d.apply (ws ++ MMKV.metaWords crc size) =
      ⟨(d.apply ws).data, putUint32 (putUint32 d.crc offCRC crc) offActualSize size⟩ := by
    rw [Disk.apply_append, MMKV.apply_metaWords, hcrc]
  have hdata : (⟨d.data.length, true⟩ : MemoryFile) = ⟨(d.apply ws).data.length, true⟩ := by rw [hlen]
  refine ⟨?_, rfl, by rw [hd]; exact hlen⟩
  rw [hd]
  refine ⟨parseMeta_putUint32_crc_size h.parse _ _, h.data.trans hdata, rfl, rfl, h.needLoad, h.closed, h.readOnly,
    h.fast, hdict, ?_, ?_⟩
  · rw [hlen]
    exact hsize
  · rw [hlen]
    exact h.mono.start

/-- **A slot of the average size** is stored in place and pays for itself. -/
theorem Roomy.setBlob {key slot : Bytes} (h : Roomy a (k + 1) d m) (hpair : (pairBytes key slot).length ≤ a) :
    Spends a k d m (m.setBlob P sys d key slot) := by
  have hinsert : ∀ x : Bytes, m.dict.insert key x ≠ ∅ := by
    intro x hx
    have := congrArg ExtTreeMap.isEmpty hx
    simp at this
  have htail := h.tail
  have hstart := h.start
  have hsucc : (k + 1) * a = k * a + a := Nat.succ_mul k a
  rw [MMKV.setBlob]
  by_cases hover : m.overrides key (pairBytes key slot) = true
  · -- the region is rewound to the holder and the pair
    simp only [hover, if_true]
    refine h.spends ?_ ?_ (hinsert _) ?_
    · rw [Disk.apply_append, Disk.apply_dataWrites, Disk.apply_dataWrites]
    · rw [Disk.apply_append, Disk.apply_dataWrites, Disk.apply_dataWrites, length_patch, length_patch]
    · have hle := Nat.mod_le (itemSizeHolderBytes.length + (pairBytes key slot).length) (2 ^ 32)
      rw [UInt32.toNat_ofNat']
      rw [length_itemSizeHolderBytes] at hle ⊢
      omega
  · have hfits : m.fitsTail (pairBytes key slot) = true := by
      rw [MMKV.fitsTail, h.data, decide_eq_true_eq]
      show _ ≤ d.data.length
      omega
    have happend : m.appends (pairBytes key slot) = true := by
      have hne : m.dict.isEmpty = false := by
        rw [← Bool.not_eq_true, ExtTreeMap.isEmpty_iff]
        exact h.dict
      rw [MMKV.appends, h.fast, hfits, hne]
      rfl
    simp only [hover, happend, if_true, Bool.false_eq_true, if_false]
    refine h.spends ?_ ?_ (hinsert _) ?_
    · rw [Disk.apply_dataWrites]
    · rw [Disk.apply_dataWrites, length_patch]
    · have hle := Nat.mod_le (m.actualSize.toNat + (pairBytes key slot).length % 2 ^ 32) (2 ^ 32)
      have hle' := Nat.mod_le (pairBytes key slot).length (2 ^ 32)
      rw [UInt32.toNat_add, UInt32.toNat_ofNat']
      omega

theorem Roomy.set {key : Bytes} {v : Value} (h : Roomy a (k + 1) d m)
    (hpair : (pairBytes key (m.content.slot sys m.expiredSeconds v.blob)).length ≤ a) :
    Spends a k d m (m.exec P sys d (.set key v)) := by
  have hprobe : m.checkLoadData d sys = m :=
    MMKV.checkLoadData_of_words h.parse rfl h.crcDigest.symm h.actualSize.symm h.needLoad
  have hexec : m.exec P sys d (.set key v) = m.setValueLocked P sys d key v.blob := by
    simp [MMKV.exec, MMKV.mutate, h.closed, h.readOnly, hprobe]
  rw [hexec, MMKV.setValueLocked]
  split
  · exact ⟨h.mono, rfl, rfl⟩
  · exact h.setBlob hpair

/-- The action is a set whose pair has at most `a` bytes. -/
def Act.SetWithin (a : ℕ) (w : World) : Act → Prop
  | .call (.set key v) sys =>
    ∀ m, w.inst = .ok m → (pairBytes key (m.content.slot sys m.expiredSeconds v.blob)).length ≤ a
  | _ => False

/-- **As many sets as the budget is for** leave the sequence number and the size of the file. -/
theorem Roomy.run {acts : List Act} (h : Roomy a k d m) (hlen : acts.length ≤ k)
    (hacts : Along (Act.SetWithin a) (World.step P) ⟨d, .ok m⟩ acts) :
    let w := Lib.run (World.step P) ⟨d, .ok m⟩ acts
    sequenceOf w.disk = sequenceOf d ∧ w.disk.data.length = d.data.length := by
  induction acts generalizing k d m with
  | nil => exact ⟨rfl, rfl⟩
  | cons act acts ih =>
    obtain ⟨hact, hacts⟩ := hacts
    obtain ⟨k, rfl⟩ : ∃ k', k = k' + 1 := ⟨k - 1, by rw [List.length_cons] at hlen; omega⟩
    obtain ⟨key, v, sys, rfl⟩ : ∃ key v sys, act = .call (.set key v) sys := by
      cases act with
      | reopen => exact hact.elim
      | call op sys =>
        cases op with
        | set key v => exact ⟨key, v, sys, rfl⟩
        | _ => exact hact.elim
    have hset := h.set (P := P) (hact m rfl)
    rw [World.step_call] at hacts
    obtain ⟨hseq, hsize⟩ := ih hset.roomy (Nat.le_of_succ_le_succ hlen) hacts
    rw [run_cons, World.step_call]
    refine ⟨hseq.trans ?_, hsize.trans hset.length_eq⟩
    simp only [sequenceOf, hset.roomy.parse, h.parse]
    exact hset.sequence

end Budget

/-! ### A set that writes back -/

/-- A set of the value takes the full write-back: it is not skipped, and fits neither of the paths in place. -/
structure MMKV.WritesBack (sys : Sys) (m : MMKV) (key : Bytes) (v : Value) : Prop where
  changes : (m.compareBeforeSet && !m.enableExpire && m.dict[key]? == some v.blob) = false
  overrides : m.overrides key (pairBytes key (m.content.slot sys m.expiredSeconds v.blob)) = false
  appends : m.appends (pairBytes key (m.content.slot sys m.expiredSeconds v.blob)) = false

/-- What the write-back `r` of a set of `pair` bytes leaves: a file with more than the region, the pair and the headroom,
no store beyond it, and room for the later sets, which change neither the sequence number nor the size. -/
structure Amortizes (P : Platform) (d : Disk) (pair : ℕ) (r : Result) : Prop where
  larger : 4 + (regionOf r.m.dict).length + pair + averageItem r.m.dict pair * laterSets r.m.dict <
    (d.apply r.writes).data.length
  inRange : ∀ off b, Write.data off b ∈ r.writes → off < (d.apply r.writes).data.length
  later : ∀ acts : List Act, acts.length ≤ laterSets r.m.dict →
    Along (Act.SetWithin (averageItem r.m.dict pair)) (World.step P) ⟨d.apply r.writes, .ok r.m⟩ acts →
      let w := run (World.step P) ⟨d.apply r.writes, .ok r.m⟩ acts
      sequenceOf w.disk = sequenceOf (d.apply r.writes) ∧ w.disk.data.length = (d.apply r.writes).data.length

/-- The pair that a set of the value stores. -/
def MMKV.setPair (sys : Sys) (m : MMKV) (key : Bytes) (v : Value) : Bytes :=
  pairBytes key (m.content.slot sys m.expiredSeconds v.blob)

/-- The map that a set of the value writes back. -/
def MMKV.setDict (sys : Sys) (m : MMKV) (key : Bytes) (v : Value) : Dict :=
  m.dict.insert key (m.content.slot sys m.expiredSeconds v.blob)

section WriteBack

variable {P : Platform} {sys : Sys} {d : Disk} {m : MMKV} {pair : ℕ}

lemma Amortizes.congr {r r' : Result} (hwrites : r.writes = r'.writes) (hm : r.m = r'.m) :
    Amortizes P d pair r ↔ Amortizes P d pair r' := by
  obtain ⟨ws, m, e⟩ := r
  obtain ⟨ws', m', e'⟩ := r'
  obtain rfl : ws = ws' := hwrites
  obtain rfl : m = m' := hm
  exact ⟨fun h => ⟨h.larger, h.inRange, h.later⟩, fun h => ⟨h.larger, h.inRange, h.later⟩⟩

/-- A write-back without a key that could make room does what it does when nothing fails: of what may still fail only the
error shows. -/
lemma MMKV.fullWritebackGrow_of_grow {needSync : Bool} {incoming : ℕ} (hcrypt : m.crypt = none)
    (hgrow : (m.grow P sys (4 + (regionOf m.dict).length + incoming) needSync incoming).2.2 = none) :
    (m.fullWritebackGrow P sys d needSync incoming).writes =
        (m.fullWritebackGrow P sys.mended d needSync incoming).writes ∧
      (m.fullWritebackGrow P sys d needSync incoming).m = (m.fullWritebackGrow P sys.mended d needSync incoming).m := by
  have hpay : ∀ s : Sys, m.payload s (regionOf m.dict) = .ok (regionOf m.dict, m.info.iv) := by
    intro s
    rw [payload, hcrypt]
  have hmended : m.grow P sys.mended (4 + (regionOf m.dict).length + incoming) needSync incoming =
      m.grow P sys (4 + (regionOf m.dict).length + incoming) needSync incoming := (grow_mended hgrow).symm
  obtain ⟨grown, data, err, heq⟩ : ∃ grown data err,
      m.grow P sys (4 + (regionOf m.dict).length + incoming) needSync incoming = (grown, data, err) := ⟨_, _, _, rfl⟩
  rw [heq] at hgrow hmended
  obtain rfl : err = none := hgrow
  simp only [fullWritebackGrow, hpay, heq, hmended]
  split
  · exact ⟨rfl, rfl⟩
  · cases needSync <;> exact ⟨rfl, rfl⟩

/-- **What a write-back for a set leaves**, whether or not the region can be read back: the instance has the map that it
wrote, and the flag of a salvaged store stays up just if the region cannot be read. -/
lemma MMKV.fullWritebackGrow_left (pair : Nat) (hdata : m.data = ⟨d.data.length, true⟩)
    (hvalues : ∀ k v : Bytes, m.dict[k]? = some v → v ≠ []) (hlen : (regionOf m.dict).length < 2 ^ 32) (hsys : sys.OK) :
    (m.fullWritebackGrow P sys d true pair).m =
      { m.written (m.grownSize P (4 + (regionOf m.dict).length + pair) true pair)
          (m.writtenInfo (m.stored sys) (m.nextIV sys)) m.dict with
        needFullWriteback := m.needFullWriteback && m.dict.contains [] } := by
  rw [fullWritebackGrow_eq hdata hsys true pair, parseDict_regionOf_values hvalues hlen]
  cases m.dict.contains [] with
  | true =>
    rw [Bool.and_true]
    rfl
  | false =>
    rw [Bool.and_false]
    rfl

lemma MMKV.sequenceOf_fullWritebackGrow {needSync : Bool} (hdata : m.data = ⟨d.data.length, true⟩)
    (hcrc : metaSize ≤ d.crc.length) (hsys : sys.OK) :
    sequenceOf (d.apply (m.fullWritebackGrow P sys d needSync pair).writes) = m.info.sequence + 1 := by
  rw [fullWritebackGrow_writes hdata hsys, apply_fullWriteback, sequenceOf]
  simp only [parseMeta_patch_marshal _ hcrc]
  rfl

/-- **A set on an instance whose flag is up** is a write-back. -/
lemma MMKV.set_of_flag {key : Bytes} {v : Value} (hparse : parseMeta d.crc = .ok m.info)
    (hdata : m.data = ⟨d.data.length, true⟩) (hwords : m.actualSize = m.info.actualSize ∧ m.crcDigest = m.info.crcDigest)
    (hload : m.needLoad = false) (hclosed : m.closed = false) (hro : m.readOnly = false)
    (hflag : m.needFullWriteback = true) (hsys : sys.OK)
    (hskip : (m.compareBeforeSet && !m.enableExpire && m.dict[key]? == some v.blob) = false) :
    sequenceOf (d.apply (m.exec P sys d (.set key v)).writes) = m.info.sequence + 1 := by
  have hprobe : m.checkLoadData d sys = m :=
    checkLoadData_of_words hparse rfl hwords.2.symm hwords.1.symm hload
  have hslow : m.fastOK = false := by simp [fastOK, hflag]
  have hover : ∀ pair, m.overrides key pair = false := fun pair => by simp [overrides, hslow]
  have happend : ∀ pair, m.appends pair = false := fun pair => by simp [appends, hslow]
  simp only [exec, mutate, hclosed, hro, hprobe, setValueLocked, hskip, Bool.false_eq_true, if_false]
  rw [setBlob_of_neither (hover _) (happend _)]
  exact sequenceOf_fullWritebackGrow (m := { m with dict := _ }) hdata (le_length_of_parseMeta hparse) hsys

lemma length_pairBytes_bool (m : MMKV) (b : Bool) :
    (pairBytes [] (m.content.slot sys m.expiredSeconds (Value.bool b).blob)).length = if m.enableExpire then 7 else 3 := by
  rw [Content.slot, show m.content.expire = m.enableExpire from rfl]
  cases m.enableExpire <;> cases b <;> rfl

lemma le_length_pairBytes (sys : Sys) (m : MMKV) (key : Bytes) (v : Value) :
    (if m.enableExpire then 7 else 3) ≤ (pairBytes key (m.content.slot sys m.expiredSeconds v.blob)).length := by
  have hslot : 0 < (m.content.slot sys m.expiredSeconds v.blob).length ∧
      (m.content.expire = true → 5 ≤ (m.content.slot sys m.expiredSeconds v.blob).length) :=
    m.content.length_slot m.expiredSeconds v.blob_ne_nil
  obtain ⟨hpos, hexpire⟩ := hslot
  have hle := le_pairSize key (m.content.slot sys m.expiredSeconds v.blob)
  rw [length_pairBytes]
  split
  · next he =>
    have := hexpire he
    omega
  · omega

/-- **What a full write-back for a set leaves** of an instance without a key.  The budget is not kept just if the flag of a
salvaged store stays up and some set is within the average size. -/
theorem MMKV.fullWritebackGrow_amortizes_iff (hcrypt : m.crypt = none) (hdata : m.data = ⟨d.data.length, true⟩)
    (hcrc : metaSize ≤ d.crc.length) (hload : m.needLoad = false) (hclosed : m.closed = false)
    (hro : m.readOnly = false) (hdict : m.dict ≠ ∅) (hvalues : ∀ k v : Bytes, m.dict[k]? = some v → v ≠ [])
    (hlen : (regionOf m.dict).length < 2 ^ 32) (hpos : 3 ≤ pair) (hsys : sys.OK) :
    Amortizes P d pair (m.fullWritebackGrow P sys d true pair) ↔
      (m.needFullWriteback = false ∨ m.dict.contains [] = false) ∨ m.enableExpire = true ∧ averageItem m.dict pair < 7 := by
  have hgrown := growthTarget_lt_grownSize (P := P) (m := m) (4 + (regionOf m.dict).length + pair)
    (show 0 < pair by omega)
  have hwrites := fullWritebackGrow_writes (P := P) hdata hsys true pair
  have hm := fullWritebackGrow_left (P := P) pair hdata hvalues hlen hsys
  have hct := m.length_stored sys
  rw [growthTarget_eq m.dict (show 0 < pair by omega)] at hgrown
  generalize m.grownSize P (4 + (regionOf m.dict).length + pair) true pair = size at hgrown hwrites hm
  generalize hmi : m.writtenInfo (m.stored sys) (m.nextIV sys) = mi at hwrites hm
  generalize m.fullWritebackGrow P sys d true pair = r at hwrites hm ⊢
  have hd : d.apply r.writes = ⟨rewritten d size (m.stored sys), patch d.crc 0 mi.marshal⟩ := by
    rw [hwrites, apply_fullWriteback]
  have hsize : (d.apply r.writes).data.length = size := by rw [hd, length_rewritten]
  have hdict' : r.m.dict = m.dict := by rw [hm, written]
  have hinfo : r.m.info = mi := by rw [hm, written]
  have hparse : parseMeta (d.apply r.writes).crc = .ok r.m.info := by
    have hmeta := parseMeta_patch_marshal mi hcrc
    rw [hinfo, ← hmeta, hd]
  have hdata' : r.m.data = ⟨(d.apply r.writes).data.length, true⟩ := by rw [hsize, hm, written]
  constructor
  · intro h
    by_contra hnot
    rw [not_or, not_or, Bool.not_eq_false, Bool.not_eq_false, not_and, Nat.not_lt] at hnot
    obtain ⟨⟨hflag, hempty⟩, haverage⟩ := hnot
    -- one of the two booleans is not what the empty key has already
    obtain ⟨b, hb⟩ : ∃ b, (m.dict[([] : Bytes)]? == some (Value.bool b).blob) = false := by
      by_cases hone : m.dict[([] : Bytes)]? = some (Value.bool true).blob
      · exact ⟨false, by rw [hone]; decide⟩
      · exact ⟨true, by simpa using hone⟩
    have hwithin : (if m.enableExpire then 7 else 3) ≤ averageItem m.dict pair := by
      have := four_le_averageItem hvalues hpos
      split
      · next he => exact haverage he
      · omega
    have hfew : 1 ≤ laterSets r.m.dict := Nat.le_trans (by decide) (Nat.le_max_left 8 _)
    obtain ⟨hseq, -⟩ := h.later [.call (.set [] (.bool b)) sys] hfew ⟨fun m' hm' => by
      obtain rfl := Except.ok.inj hm'
      rw [length_pairBytes_bool, hdict', show r.m.enableExpire = m.enableExpire by rw [hm]; rfl]
      exact hwithin, trivial⟩
    rw [run_cons, run_nil, World.step_call] at hseq
    have hnext : sequenceOf ((d.apply r.writes).apply (r.m.exec P sys (d.apply r.writes) (.set [] (.bool b))).writes) =
        r.m.info.sequence + 1 := set_of_flag hparse hdata' (by rw [hm]; exact ⟨rfl, rfl⟩)
      (by rw [hm]; exact hload) (by rw [hm]; exact hclosed) (by rw [hm]; exact hro) (by rw [hm]; simp [hflag, hempty]) hsys
      (by rw [hdict', hb, Bool.and_false])
    rw [hnext, sequenceOf, hparse] at hseq
    simp at hseq
  · intro hok
    refine ⟨?_, fun off b hmem => ?_, fun acts hacts halong => ?_⟩
    · rw [hsize, hdict']
      exact hgrown
    · rw [hsize]
      rw [hwrites] at hmem
      exact lt_of_mem_regionWrites (by omega) hmem
    · rw [hdict'] at hacts halong
      rcases hok with hok | ⟨hexpire, hsmall⟩
      · have hact : mi.actualSize.toNat = (regionOf m.dict).length := by
          rw [← hmi, ← hct]
          exact toNat_ofNat32 (by rw [hct]; exact hlen)
        have hholder : 4 ≤ (regionOf m.dict).length := by
          rw [length_regionOf]
          omega
        have hdown : (m.needFullWriteback && m.dict.contains []) = false := by
          rcases hok with h | h <;> simp [h]
        refine Roomy.run (k := laterSets m.dict) ⟨hparse, hdata', by rw [hm]; rfl, by rw [hm]; rfl, by rw [hm]; exact hload,
          by rw [hm]; exact hclosed, by rw [hm]; exact hro, ?_, by rw [hdict']; exact hdict, ?_, ?_⟩ hacts halong
        · rw [hm, fastOK, hdown]
          show (m.crypt.isNone && true && decide (versionFlag ≤ mi.version)) = true
          rw [hcrypt, ← hmi]
          rfl
        · rw [hsize, show r.m.actualSize = mi.actualSize by rw [hm]; rfl, hact, mul_comm]
          omega
        · rw [hsize, mul_comm]
          omega
      · -- no set is within the average size
        cases acts with
        | nil => exact ⟨rfl, rfl⟩
        | cons act acts =>
          exfalso
          have hact := halong.1
          cases act with
          | reopen => exact hact.elim
          | call op sys' =>
            cases op with
            | set key v =>
              have hpair := hact r.m rfl
              have hmin := le_length_pairBytes sys' r.m key v
              rw [show r.m.enableExpire = m.enableExpire by rw [hm]; rfl, hexpire, if_pos rfl] at hmin
              omega
            | _ => exact hact.elim

/-- **Write-backs amortize.**  A set on an open instance without a key that takes the full write-back, when the map that
the probe leaves is not empty and the file can be grown, makes room for the next sets of the average size, which are stored
in place whatever their keys are.  It does so unless the instance is a salvaged one that has yet to write back and the map
it writes has the empty key; even then if expiration is on and no set is within the average size. -/
theorem writeback_amortizes_iff {m₁ : MMKV} {key : Bytes} {v : Value} (hcrypt : m.crypt = none)
    (hclosed : m.closed = false) (hro : m.readOnly = false) (hprobe : m.checkLoadData d sys = m₁)
    (hdata : m₁.data = ⟨d.data.length, true⟩) (hcrc : metaSize ≤ d.crc.length)
    (hvalues : ∀ k u : Bytes, m₁.dict[k]? = some u → u ≠ []) (hdict : m₁.dict ≠ ∅) (hback : m₁.WritesBack sys key v)
    (hlen : (regionOf (m₁.setDict sys key v)).length < 2 ^ 32)
    (hgrow : (({ m₁ with dict := m₁.setDict sys key v } : MMKV).grow P sys
      (4 + (regionOf (m₁.setDict sys key v)).length + (m₁.setPair sys key v).length) true
      (m₁.setPair sys key v).length).2.2 = none) :
    Amortizes P d (m₁.setPair sys key v).length (m.exec P sys d (.set key v)) ↔
      (m₁.needFullWriteback = false ∨ key ≠ [] ∧ m₁.dict.contains [] = false) ∨
        m₁.enableExpire = true ∧ averageItem (m₁.setDict sys key v) (m₁.setPair sys key v).length < 7 := by
  have hoptions := m.checkLoadData_options sys d
  rw [hprobe] at hoptions
  obtain ⟨hclosed', hro', hcrypt', hload⟩ := hoptions
  have hslot : m₁.content.slot sys m₁.expiredSeconds v.blob ≠ [] :=
    List.length_pos_iff.1 (m₁.content.length_slot m₁.expiredSeconds v.blob_ne_nil).1
  have hempty : (!m₁.dict.isEmpty) = true := by
    rw [Bool.not_eq_true', ← Bool.not_eq_true, ExtTreeMap.isEmpty_iff]
    exact hdict
  -- off both paths in place, the set is the write-back of the map with the key bound
  have hexec : m.exec P sys d (.set key v) = ({ m₁ with dict := m₁.setDict sys key v } : MMKV).fullWritebackGrow P sys d
      true (m₁.setPair sys key v).length := by
    have hset : m₁.setBlob P sys d key _ = _ := MMKV.setBlob_of_neither hback.overrides hback.appends
    rw [hempty] at hset
    rw [MMKV.setDict, MMKV.setPair, ← hset]
    simp only [MMKV.exec, MMKV.mutate, hclosed, hro, hprobe, MMKV.setValueLocked, hback.changes, Bool.false_eq_true, if_false]
    rfl
  -- once room is made, a failure shows in the error alone
  obtain ⟨hwrites, hm⟩ := MMKV.fullWritebackGrow_of_grow (d := d) (m := { m₁ with dict := m₁.setDict sys key v })
    (hcrypt'.trans hcrypt) hgrow
  rw [hexec, Amortizes.congr hwrites hm]
  have hpair : 3 ≤ (m₁.setPair sys key v).length := by
    have := le_length_pairBytes sys m₁ key v
    rw [MMKV.setPair]
    split at this <;> omega
  refine (MMKV.fullWritebackGrow_amortizes_iff (m := { m₁ with dict := m₁.setDict sys key v }) (hcrypt'.trans hcrypt) hdata
    hcrc hload (hclosed'.trans hclosed) (hro'.trans hro) (fun h0 => ?_) (fun k u hu => ?_) hlen hpair
    sys.mended_ok).trans ?_
  · have := congrArg ExtTreeMap.isEmpty (show m₁.setDict sys key v = ∅ from h0)
    simp [MMKV.setDict] at this
  · change (m₁.setDict sys key v)[k]? = some u at hu
    rw [MMKV.setDict, ExtTreeMap.getElem?_insert] at hu
    split at hu
    · cases hu
      exact hslot
    · exact hvalues k u hu
  · have hcontains : (m₁.setDict sys key v).contains [] = false ↔ key ≠ [] ∧ m₁.dict.contains [] = false := by
      rw [MMKV.setDict, ExtTreeMap.contains_insert, Bool.or_eq_false_iff]
      simp
    change (_ ∨ (m₁.setDict sys key v).contains [] = false) ∨ _ ↔ _
    rw [hcontains]

end WriteBack

/-! ### A value that does not fit, and a salvaged store -/

/-- A value of more than a page, set beside a short one while the `msync` fails, makes room for eight sets of a third of the
region. -/
theorem large_value_amortizes :
    let sys := { calm with syncData := true }
    Amortizes linux (defaults.firstDisk linux calm [97] (.bool true)) 5006
      ((defaults.afterFirst linux calm [97] (.bool true)).exec linux sys (defaults.firstDisk linux calm [97] (.bool true))
        (.set [98] (.bytes (zeros 5000)))) := by
  intro sys
  obtain ⟨-, -, hsynced⟩ := first_set (P := linux) (show defaults.readOnly = false from rfl) calm_ok [97] (.bool true)
    (by simp) (by decide)
  have hback : (defaults.afterFirst linux calm [97] (.bool true)).WritesBack sys [98] (.bytes (zeros 5000)) :=
    ⟨by decide +kernel, by decide +kernel, by decide +kernel⟩
  have hprobe : MMKV.checkLoadData _ _ sys = _ := MMKV.checkLoadData_of_synced hsynced
  have hamortizes := (writeback_amortizes_iff (P := linux) (show _ = none from rfl) hsynced.closed hsynced.readOnly hprobe
    hsynced.data hsynced.image.metaSize_le (fun k u hu => (hsynced.image.wf k u hu).2) (by decide +kernel) hback
    (by decide +kernel) (by decide +kernel)).2 (.inl (.inl rfl))
  have hlen : ((defaults.afterFirst linux calm [97] (.bool true)).setPair sys [98] (.bytes (zeros 5000))).length = 5006 := by
    decide +kernel
  rwa [hlen] at hamortizes

/-- An instance whose files were damaged and salvaged while it had them open. -/
def mended : MMKV := (salvaging.fresh linux).clearMemoryCache.checkLoadData scrambled calm

/-- After a set of the empty key, which fails, the salvaged instance writes back on its next set as well. -/
theorem salvaged_writes_back_twice :
    let r := mended.exec linux calm scrambled (.set [] (.bool true))
    let d := scrambled.apply r.writes
    let r' := r.m.exec linux calm d (.set [98] (.bool true))
    mended.crypt = none ∧ mended.dict[([97] : Bytes)]? = some [1] ∧ mended.needFullWriteback = true ∧
      r.err = some .unexpectedEOF ∧ (pairBytes [98] [1]).length ≤ averageItem r.m.dict (pairBytes [] [1]).length ∧
      sequenceOf scrambled = 0 ∧ sequenceOf d = 1 ∧ sequenceOf (d.apply r'.writes) = 2 := by
  decide +kernel

end MmkvGo.Store
