import MmkvGo.Store.Leaves
import MmkvGo.Store.Size
import MmkvGo.Store.Writer

/-!
The size limits of the format.  Lengths and sizes are stored in 32 bits and converted without a check, so what has to be
said of a set and of a flush that return nil (`Respected`) holds exactly as long as the bytes of the region, counted
without a bound, stay below 4 GiB.
-/

namespace MmkvGo.Wire

open MmkvGo.Lib Std

/-- The length prefix that `writeData` puts in front of a field is the length of the field. -/
def Counted (b : Bytes) : Prop := ∃ n : UInt64, readVarint64 (writeData b) = .ok (n, b) ∧ n.toNat = b.length

/-- **The prefix counts the field** exactly if its length fits 32 bits. -/
theorem counted_iff {b : Bytes} : Counted b ↔ b.length < 2 ^ 32 := by
  have hread : readVarint64 (writeData b) = .ok ((UInt32.ofNat b.length).toUInt64, b) := readVarint64_varint32 _ b
  constructor
  · rintro ⟨n, hn, hlen⟩
    obtain ⟨rfl, -⟩ := Prod.mk.inj (Except.ok.inj (hread.symm.trans hn))
    rw [← hlen, UInt32.toNat_toUInt64]
    exact UInt32.toNat_lt _
  · intro h
    refine ⟨_, hread, ?_⟩
    rw [UInt32.toNat_toUInt64, toNat_ofNat32 h]

/-- The fields within the blob of a value that have length prefixes of their own. -/
def Value.fields : Value → List Bytes
  | .string v | .bytes v => [v]
  | .stringSlice v => v.flatMap writeData :: v
  | _ => []

lemma length_le_writeData (b : Bytes) : b.length ≤ (writeData b).length := by
  rw [writeData, List.length_append]
  exact Nat.le_add_left ..

lemma Value.length_le_of_mem_fields {v : Value} {b : Bytes} (h : b ∈ v.fields) : b.length ≤ v.blob.length := by
  cases v with
  | string v | bytes v =>
    rw [Value.fields, List.mem_singleton] at h
    subst h
    exact length_le_writeData b
  | stringSlice items =>
    have hall := length_le_writeData (items.flatMap writeData)
    rw [Value.fields, List.mem_cons] at h
    rcases h with rfl | hmem
    · exact hall
    · have hitem : (writeData b).length ≤ (items.flatMap writeData).length :=
        (List.sublist_flatten_of_mem (List.mem_map_of_mem (f := writeData) hmem)).length_le
      exact Nat.le_trans (length_le_writeData b) (Nat.le_trans hitem hall)
  | _ => cases h

lemma length_lt_of_parseDict {plain : Bytes} {dict : Dict} (h : parseDict plain = .ok dict) {k v : Bytes}
    (hkv : dict[k]? = some v) : k.length + v.length < plain.length := by
  have hregion := length_regionOf_parseDict h
  have hpair := pairSize_le_regionOf hkv
  have hle := le_pairSize k v
  omega

end MmkvGo.Wire

namespace MmkvGo.Store

open MmkvGo.Lib MmkvGo.Wire MmkvGo.Crypt Std

/-- The size limits are respected by files that were to hold the region `plain`, with the values `values` in it: the meta
has the true length of the region, every length prefix the length of its field, and the region decodes to `dict`. -/
structure Respected (crypt : Option Cipher) (files : Disk) (plain : Bytes) (values : Bytes → Option Value) (dict : Dict) :
    Prop where
  sized : ∃ mi, parseMeta files.crc = .ok mi ∧ mi.actualSize.toNat = plain.length ∧
    slice files.data 4 (4 + plain.length) = cipherOf crypt mi.iv plain
  entries : ∀ k v : Bytes, dict[k]? = some v → Counted k ∧ Counted v
  fields : ∀ key v, values key = some v → ∀ b ∈ v.fields, Counted b
  decodes : parseDict plain = .ok dict

section Respected

variable {crypt : Option Cipher} {files : Disk} {plain : Bytes} {values : Bytes → Option Value} {dict : Dict}

lemma Respected.length_lt (h : Respected crypt files plain values dict) : plain.length < 2 ^ 32 := by
  obtain ⟨mi, -, hsize, -⟩ := h.sized
  rw [← hsize]
  exact UInt32.toNat_lt _

/-- **A region below 4 GiB that parses respects the limits.** -/
theorem Leaves.respected {mi : MetaInfo} (h : Leaves crypt files mi plain) (hlt : plain.length < 2 ^ 32)
    (hdec : parseDict plain = .ok dict)
    (hvalues : ∀ key v, values key = some v → ∃ slot, dict[key]? = some slot ∧ v.blob.length ≤ slot.length) :
    Respected crypt files plain values dict := by
  refine ⟨⟨mi, h.parse, ?_, h.bytes⟩, fun k v hkv => ?_, fun key v hv b hb => ?_, hdec⟩
  · rw [h.actualSize]
    exact toNat_ofNat32 hlt
  · have := length_lt_of_parseDict hdec hkv
    exact ⟨counted_iff.2 (by omega), counted_iff.2 (by omega)⟩
  · obtain ⟨slot, hslot, hle⟩ := hvalues key v hv
    have := length_lt_of_parseDict hdec hslot
    have := Value.length_le_of_mem_fields hb
    exact counted_iff.2 (by omega)

end Respected

/-! ### A set -/

section Set

variable {P : Platform} {sys : Sys} {d : Disk} {m : MMKV} {key : Bytes} {v : Value}

lemma lastSet_singleton {k : Bytes} {u : Value} (h : lastSet [(key, v)] k = some u) : k = key ∧ u = v := by
  simp only [lastSet, List.foldl_cons, List.foldl_nil, Function.update_apply] at h
  split at h
  · next hk => exact ⟨hk, (Option.some.inj h).symm⟩
  · cases h

lemma Content.length_le_slot (c : Content) (seconds : UInt32) (blob : Bytes) :
    blob.length ≤ (c.slot sys seconds blob).length := by
  rw [Content.slot]
  split
  · rw [length_appendExpire]
    exact Nat.le_add_right ..
  · exact le_rfl

/-- **A set that returns nil**, whatever the lengths: the region it leaves on disk. -/
theorem setValueLocked_leaves (h : Synced d m) (herr : (m.setValueLocked P sys d key v.blob).err = none) :
    ∃ mi, Leaves m.crypt (d.apply (m.setValueLocked P sys d key v.blob).writes) mi
      ((Op.set key v).regionAfter sys d m) := by
  rw [Op.regionAfter, MMKV.regionAfterPut]
  rw [MMKV.setValueLocked] at herr ⊢
  split
  · next hskip =>
    have hpos : 0 < m.info.actualSize := by
      refine h.image.actualSize_pos ?_
      rintro hempty
      simp [hempty] at hskip
    exact ⟨_, h.leaves hpos⟩
  · next hskip =>
    rw [if_neg hskip] at herr
    exact setBlob_leaves h herr

/-- **The region after a set parses to the map with the key bound.** -/
theorem parse_regionAfter_set (h : Synced d m) (hk : key ≠ [])
    (hlt : ((Op.set key v).regionAfter sys d m).length < 2 ^ 32) :
    parseDict ((Op.set key v).regionAfter sys d m) =
      .ok (m.dict.insert key (m.content.slot sys m.expiredSeconds v.blob)) := by
  rw [Op.regionAfter, MMKV.regionAfterPut] at hlt ⊢
  split
  · next hskip =>
    rw [MMKV.insert_of_skip hskip]
    exact h.image.decoded
  · next hskip =>
    rw [if_neg hskip] at hlt
    exact h.parse_regionAfterSet hk
      (List.length_pos_iff.1 (m.content.length_slot m.expiredSeconds v.blob_ne_nil).1) hlt

/-- **A set that returns nil respects the limits** exactly if the key is not empty and the region, counted without a
bound, is below 4 GiB. -/
theorem set_respected_iff (h : Synced d m) (herr : (m.setValueLocked P sys d key v.blob).err = none) :
    Respected m.crypt (d.apply (m.setValueLocked P sys d key v.blob).writes) ((Op.set key v).regionAfter sys d m)
        (lastSet [(key, v)]) (m.dict.insert key (m.content.slot sys m.expiredSeconds v.blob)) ↔
      key ≠ [] ∧ ((Op.set key v).regionAfter sys d m).length < 2 ^ 32 := by
  constructor
  · intro hresp
    refine ⟨?_, hresp.length_lt⟩
    exact (parseDict_wf hresp.decodes key _ ExtTreeMap.getElem?_insert_self).1
  · rintro ⟨hk, hlt⟩
    obtain ⟨mi, hleaves⟩ := setValueLocked_leaves h herr
    refine hleaves.respected hlt (parse_regionAfter_set h hk hlt) fun k u hu => ?_
    obtain ⟨rfl, rfl⟩ := lastSet_singleton hu
    exact ⟨_, ExtTreeMap.getElem?_insert_self, m.content.length_le_slot m.expiredSeconds _⟩

end Set

/-! ### A flush -/

section Flush

variable {P : Platform} {w : Writer} {sys : FlushSys} {d : Disk}

/-- The system of a flush in which no call fails. -/
def FlushSys.calm : FlushSys := ⟨none, false, none, false⟩

lemma FlushSys.calm_ok : FlushSys.calm.OK := ⟨rfl, rfl, rfl, rfl⟩

lemma openMemoryFile_mended {fails : Option Syscall} {resize : ℕ → Write} {size want n : ℕ}
    (h : (openMemoryFile fails resize size want).2 = .ok n) :
    openMemoryFile fails resize size want = openMemoryFile none resize size want := by
  rcases fails with _ | fails
  · rfl
  cases fails with
  | truncate =>
    by_cases hlt : size < want
    · simp [openMemoryFile, hlt] at h
    · simp [openMemoryFile, hlt]
  | stat | mmap => simp [openMemoryFile] at h
  | _ => rfl

lemma msync_eq_none {fails : Bool} (h : msync fails = none) : fails = false := by
  cases fails with
  | false => rfl
  | true => cases h

lemma Writer.flushMeta_mended (h : (w.flushMeta P sys d).2 = none) : w.flushMeta P sys d = w.flushMeta P .calm d := by
  obtain ⟨opened, res, hopen⟩ : ∃ opened res,
      openMemoryFile sys.openMeta .resizeCrc d.crc.length (pageRoundUp P metaSize) = (opened, res) := ⟨_, _, rfl⟩
  cases res with
  | error e => simp [flushMeta, hopen] at h
  | ok n =>
    have hopen' := openMemoryFile_mended (congrArg Prod.snd hopen)
    rw [hopen] at hopen'
    simp only [flushMeta, hopen] at h
    simp only [flushMeta, hopen, FlushSys.calm, ← hopen', msync_eq_none h]

/-- **A flush that returns nil** did what it does where no call fails. -/
theorem Writer.flush_mended (h : (w.flush P sys d).2 = none) : w.flush P sys d = w.flush P .calm d := by
  obtain ⟨opened, res, hopen⟩ : ∃ opened res,
      openMemoryFile sys.openData .resize d.data.length (pageRoundUp P (w.info.actualSize.toNat + 4)) = (opened, res) :=
    ⟨_, _, rfl⟩
  cases res with
  | error e => simp [flush, hopen] at h
  | ok n =>
    have hopen' := openMemoryFile_mended (congrArg Prod.snd hopen)
    rw [hopen] at hopen'
    simp only [flush, hopen] at h
    cases hsync : sys.syncData with
    | true => simp [msync, hsync] at h
    | false =>
      simp only [msync, hsync, Bool.false_eq_true, if_false] at h
      have hcalm : openMemoryFile FlushSys.calm.openData .resize d.data.length
          (pageRoundUp P (w.info.actualSize.toNat + 4)) = (opened, .ok n) := hopen'.symm
      have hmeta := flushMeta_mended h
      simp only [flush, hopen, hcalm, hsync, hmeta]
      rfl

lemma Writer.blob_setAll (sets : List (Bytes × Value)) (k : Bytes) :
    (Writer.new.setAll sets).blob[k]? = (lastSet sets k).map Value.blob := by
  have hfold : ∀ (w : Writer) (f : Bytes → Option Value), (∀ k, w.blob[k]? = (f k).map Value.blob) →
      (w.setAll sets).blob[k]? =
        (sets.foldl (fun (f : Bytes → Option Value) s => Function.update f s.1 (some s.2)) f k).map Value.blob := by
    induction sets with
    | nil => exact fun w f h => h k
    | cons s sets ih =>
      intro w f h
      refine ih (w.set s.1 s.2.blob) (Function.update f s.1 (some s.2)) fun k => ?_
      simp only [Writer.set, ExtTreeMap.getElem?_insert, LawfulEqCmp.compare_eq_iff_eq, Function.update_apply]
      by_cases he : s.1 = k
      · simp [he]
      · rw [if_neg he, if_neg (Ne.symm he), h]
  exact hfold Writer.new (fun _ => none) fun k => by simp [Writer.new]

/-- **A flush that returns nil respects the limits**, with the slice it copies the region to within its bounds, exactly if
no key is empty and the region, counted without a bound, is below 4 GiB with its header. -/
theorem flush_respected_iff {sets : List (Bytes × Value)}
    (herr : ((Writer.new.setAll sets).flush P sys d).2 = none) :
    4 ≤ (4 + (Writer.new.setAll sets).info.actualSize).toNat ∧
        Respected none (d.apply ((Writer.new.setAll sets).flush P sys d).1)
          (encodeRegion (Writer.new.setAll sets).order (Writer.new.setAll sets).blob) (lastSet sets)
          (Writer.new.setAll sets).blob ↔
      (∀ s ∈ sets, s.1 ≠ []) ∧
        4 + (encodeRegion (Writer.new.setAll sets).order (Writer.new.setAll sets).blob).length < 2 ^ 32 := by
  have hblob := Writer.blob_setAll sets
  constructor
  · rintro ⟨hbounds, hresp⟩
    refine ⟨fun s hs => ?_, ?_⟩
    · obtain ⟨u, hu⟩ := Option.ne_none_iff_exists'.1 (lastSet_ne_none.2 (List.mem_map_of_mem (f := Prod.fst) hs))
      have hslot := hblob s.1
      rw [hu, Option.map_some] at hslot
      exact (parseDict_wf hresp.decodes s.1 _ hslot).1
    · -- the sum wraps in the last four lengths
      have hlt := hresp.length_lt
      have hinfo : (Writer.new.setAll sets).info.actualSize =
          UInt32.ofNat (encodeRegion (Writer.new.setAll sets).order (Writer.new.setAll sets).blob).length := rfl
      rw [hinfo, UInt32.toNat_add, toNat_ofNat32 hlt] at hbounds
      change 4 ≤ (4 + _) % 2 ^ 32 at hbounds
      omega
  · rintro ⟨hkeys, hsize⟩
    have hcollect : (Writer.new.setAll sets).Collects (lastSet sets) := Writer.collects_new.setAll hkeys
    have hlen := Writer.actualSize_eq hsize
    have hfiles := (Writer.flush_ok (P := P) hsize FlushSys.calm_ok d).2
    rw [← Writer.flush_mended herr] at hfiles
    refine ⟨?_, ?_⟩
    · rw [toNat_four_add (by omega)]
      exact Nat.le_add_right ..
    · rw [hfiles]
      refine (Writer.leaves_flushed hsize d).respected (by omega) (hcollect.parse hsize) fun key u hu => ?_
      exact ⟨u.blob, by rw [hblob, hu, Option.map_some], le_rfl⟩

end Flush

/-! ### Both -/

/-- **The size limits.**  In every state that a run from the files reaches, whose calls do not fail and leave regions below
4 GiB, a set that returns nil respects the limits exactly if its key is not empty and the region it leaves is below 4 GiB;
and so does a flush over the files. -/
theorem size_limits_respected (P : Platform) (d : Disk) :
    (∀ (cfg : Config) (sys : Sys) (mi : MetaInfo) (dict : Dict) (acts : List Act),
      Stored (cfg.crypt P) d mi dict → cfg.readOnly = false →
      Along (Act.OK P) (World.step P) (World.start P cfg sys d) acts →
      let w := run (World.step P) (World.start P cfg sys d) acts
      let s := run (Model.step P) ⟨⟨OrdMap.lookup dict, mi.expireEnabled⟩, cfg.crypt P, 0⟩ acts
      ∃ m, w.inst = .ok m ∧ ∀ (sys' : Sys) (key : Bytes) (v : Value), sys'.remap = none →
        (m.exec P sys' w.disk (.set key v)).err = none →
        let plain := (Op.set key v).regionAfter sys' w.disk (m.checkLoadData w.disk sys')
        ∃ after : Dict, OrdMap.lookup after = (s.content.after sys' s.seconds (.set key v)).slots ∧
          (Respected s.crypt (w.disk.apply (m.exec P sys' w.disk (.set key v)).writes) plain (lastSet [(key, v)]) after ↔
            key ≠ [] ∧ plain.length < 2 ^ 32)) ∧
    ∀ (sys : FlushSys) (sets : List (Bytes × Value)),
      let w := Writer.new.setAll sets
      let plain := encodeRegion w.order w.blob
      (w.flush P sys d).2 = none →
      (4 ≤ (4 + w.info.actualSize).toNat ∧ Respected none (d.apply (w.flush P sys d).1) plain (lastSet sets) w.blob ↔
        (∀ s ∈ sets, s.1 ≠ []) ∧ 4 + plain.length < 2 ^ 32) := by
  refine ⟨fun cfg sys mi dict acts hstored hro hacts => ?_, fun sys sets => flush_respected_iff⟩
  obtain ⟨m, h⟩ := run_tracks hstored hro hacts
  intro w s
  obtain ⟨m₀, hinst, -⟩ := h.inst_eq
  refine ⟨m₀, hinst, fun sys' key v hremap herr => ?_⟩
  have hexec : m₀.exec P sys' w.disk (.set key v) = m.setValueLocked P sys' w.disk key v.blob :=
    h.mutate hinst hremap fun m => m.setValueLocked P sys' w.disk key v.blob
  rw [hexec] at herr
  rw [hexec, h.checkLoadData hinst hremap, ← show m.crypt = s.crypt from h.crypt]
  refine ⟨_, ?_, set_respected_iff h.synced herr⟩
  rw [OrdMap.lookup_insert, ← show m.content = s.content from h.content, ← show m.expiredSeconds = s.seconds from h.seconds]
  rfl

/-- A set of one byte that is appended after an earlier one, and a flush of it. -/
theorem size_limits_respected_bool :
    let w := run (World.step linux) (World.start linux defaults calm ⟨[], []⟩) [.call (.set [97] (.bool true)) calm]
    let v : Bytes × Value := ([98], .bool false)
    (∃ m after, w.inst = .ok m ∧ Respected none (w.disk.apply (m.exec linux calm w.disk (.set v.1 v.2)).writes)
      (m.plainRegion w.disk ++ pairBytes v.1 v.2.blob) (lastSet [v]) after) ∧
      Respected none ((⟨[], []⟩ : Disk).apply ((Writer.new.setAll [v]).flush linux .calm ⟨[], []⟩).1)
        (encodeRegion (Writer.new.setAll [v]).order (Writer.new.setAll [v]).blob) (lastSet [v])
        (Writer.new.setAll [v]).blob := by
  intro w v
  refine ⟨?_, ?_⟩
  · have hro : defaults.readOnly = false := rfl
    obtain ⟨hw, hacts⟩ := run_first_set (P := linux) hro calm_ok [97] (.bool true) (by simp) (by decide)
    obtain ⟨-, -, hsynced⟩ := first_set (P := linux) hro calm_ok [97] (.bool true) (by simp) (by decide)
    have hexp : (defaults.afterFirst linux calm [97] (.bool true)).enableExpire = false := by decide +kernel
    have hover : (defaults.afterFirst linux calm [97] (.bool true)).overrides v.1 (pairBytes v.1 v.2.blob) = false := by
      decide +kernel
    have happend : (defaults.afterFirst linux calm [97] (.bool true)).appends (pairBytes v.1 v.2.blob) = true := by
      decide +kernel
    obtain ⟨m, hinst, hset⟩ := (size_limits_respected linux ⟨[], []⟩).1 defaults calm blankMeta ∅ _
      (.inr ⟨blank_absent, rfl, rfl⟩) hro hacts
    rw [hw] at hinst hset
    rw [show w = _ from hw]
    cases hinst
    have herr : ((defaults.afterFirst linux calm [97] (.bool true)).exec linux calm
        (defaults.firstDisk linux calm [97] (.bool true)) (.set v.1 v.2)).err = none := by
      rw [MMKV.exec_set_of_appends hsynced rfl hexp hover happend]
    obtain ⟨after, -, hiff⟩ := hset calm v.1 v.2 rfl herr
    rw [MMKV.checkLoadData_of_synced hsynced, regionAfter_append_set rfl hexp hover happend] at hiff
    refine ⟨_, after, rfl, hiff.2 ⟨by decide, ?_⟩⟩
    rw [List.length_append, hsynced.steady.length_plainRegion]
    decide +kernel
  · exact (((size_limits_respected linux ⟨[], []⟩).2 .calm [v] (by decide +kernel)).2 ⟨by decide, by decide +kernel⟩).2

/-! ### Beyond 4 GiB -/

/-- After a first set of `n` zero bytes, a multiple of 4 GiB, the meta has less than the length of the region, and what
follows the prefix of the value is not what the prefix says. -/
lemma long_set_cut {n : ℕ} (hn : 2 ^ 32 ∣ n) (hpos : n ≠ 0) :
    let r := (defaults.fresh linux).exec linux calm (freshDisk linux) (.set [97] (.bytes (zeros n)))
    let files := (freshDisk linux).apply r.writes
    let plain := regionOf ((∅ : Dict).insert [97] (Value.bytes (zeros n)).blob)
    r.err = none ∧
      (∃ mi, parseMeta files.crc = .ok mi ∧ mi.actualSize.toNat < plain.length ∧
        slice files.data 4 (4 + plain.length) = plain) ∧
      ¬ Counted (zeros n) ∧ parseDict plain = .ok ((∅ : Dict).insert [97] [0]) := by
  intro r files plain
  have hro : defaults.readOnly = false := rfl
  have hle : 2 ^ 32 ≤ n := Nat.le_of_dvd (Nat.pos_of_ne_zero hpos) hn
  have hblob : (Value.bytes (zeros n)).blob = zeros (n + 1) := bytesBlob_zeros hn
  have hlong : 2 ^ 32 ≤ plain.length := by
    have hpair := pairSize_le_regionOf (d := (∅ : Dict).insert [97] (zeros (n + 1))) ExtTreeMap.getElem?_insert_self
    have hlen := le_pairSize [97] (zeros (n + 1))
    rw [length_zeros] at hlen
    rw [← hblob] at hpair hlen
    change 2 ^ 32 ≤ (regionOf ((∅ : Dict).insert [97] (Value.bytes (zeros n)).blob)).length
    omega
  have hfresh := synced_fresh linux hro
  have hleaves := MMKV.leaves_fullWritebackGrow (P := linux) (m := defaults.first linux [97] (.bytes (zeros n)))
    hfresh.data hfresh.image.metaSize_le calm_ok false (pairBytes [97] (Value.bytes (zeros n)).blob).length
  rw [Config.first, ← exec_first_set hro, ← Config.first] at hleaves
  refine ⟨(exec_first_set_zeros (P := linux) hro calm_ok (by decide) (by simp) hn).1, ⟨_, hleaves.parse, ?_, ?_⟩, ?_, ?_⟩
  · rw [hleaves.actualSize, UInt32.toNat_ofNat']
    exact Nat.lt_of_lt_of_le (Nat.mod_lt _ (by norm_num)) hlong
  · exact hleaves.bytes
  · rw [counted_iff, length_zeros]
    omega
  · have hparse := parseDict_regionOf_zeros (show ([97] : Bytes) ≠ [] by simp) (by simp) hn
    rw [← hblob] at hparse
    exact hparse

/-- **A value of 4 GiB exceeds the limits**: the set returns nil, the meta has less than the length of the region, the
prefix of the value is zero, and the region decodes to another map. -/
theorem four_gib_cut :
    let r := (defaults.fresh linux).exec linux calm (freshDisk linux) (.set [97] (.bytes (zeros (2 ^ 32))))
    let files := (freshDisk linux).apply r.writes
    let plain := regionOf ((∅ : Dict).insert [97] (Value.bytes (zeros (2 ^ 32))).blob)
    r.err = none ∧
      (∃ mi, parseMeta files.crc = .ok mi ∧ mi.actualSize.toNat < plain.length ∧
        slice files.data 4 (4 + plain.length) = plain) ∧
      ¬ Counted (zeros (2 ^ 32)) ∧ parseDict plain = .ok ((∅ : Dict).insert [97] [0]) :=
  long_set_cut (dvd_refl (2 ^ 32)) (by decide)

end MmkvGo.Store
