import MmkvGo.Store.Reader
import MmkvGo.Store.Refine

/-!
The writer (`writer.go`): it collects typed values and puts them into the files in one go.  `flush_reads_back` says that
what it flushes over any files is what a reader and an instance read from them, key by key and type by type.
-/

namespace MmkvGo.Store

open MmkvGo.Lib MmkvGo.Wire MmkvGo.Crypt Std

/-- `Writer`: the keys in the order in which they were first set, and their blobs. -/
structure Writer where
  order : List Bytes
  blob : Dict

/-- The calls of `Flush` that fail: of the two `openMemoryFile`s, and of the two `msync`s. -/
structure FlushSys where
  openData : Option Syscall
  syncData : Bool
  openMeta : Option Syscall
  syncMeta : Bool

/-- `openMemoryFile` on a file of `size` bytes that is to have at least `want`: its store, and the size it maps. -/
def openMemoryFile (fails : Option Syscall) (resize : ℕ → Write) (size want : ℕ) : List Write × Except Err ℕ :=
  match fails with
  | some .stat => ([], .error (.os .stat))
  | some .truncate => if size < want then ([], .error (.os .truncate)) else ([], .ok size)
  | some .mmap => (if size < want then [resize want] else [], .error (.os .mmap))
  | _ => if size < want then ([resize want], .ok want) else ([], .ok size)

namespace Writer

/-- `NewWriter`. -/
def new : Writer := ⟨[], ∅⟩

/-- `Writer.set`: a key keeps the place it was first set at. -/
def set (w : Writer) (key b : Bytes) : Writer :=
  ⟨if w.blob.contains key then w.order else w.order ++ [key], w.blob.insert key b⟩

/-- The typed setters, one after the other. -/
def setAll (w : Writer) (sets : List (Bytes × Value)) : Writer := sets.foldl (fun w s => w.set s.1 s.2.blob) w

/-- The meta that `Flush` stores. -/
def info (w : Writer) : MetaInfo :=
  let region := encodeRegion w.order w.blob
  let actual := UInt32.ofNat region.length
  let crc := Crc32.checksum region
  { crcDigest := crc
    version := versionFlag
    sequence := 1
    iv := Vector.replicate 16 0
    actualSize := actual
    lastActualSize := actual
    lastCRCDigest := crc
    flags := 0 }

/-- The part of `Flush` after the data file is stored. -/
def flushMeta (w : Writer) (P : Platform) (sys : FlushSys) (d : Disk) : List Write × Option Err :=
  match openMemoryFile sys.openMeta .resizeCrc d.crc.length (pageRoundUp P metaSize) with
  | (opened, .error e) => (opened, some e)
  | (opened, .ok _) => (opened ++ crcWrites 0 w.info.marshal, msync sys.syncMeta)

/-- `Flush`. -/
def flush (w : Writer) (P : Platform) (sys : FlushSys) (d : Disk) : List Write × Option Err :=
  let region := encodeRegion w.order w.blob
  match openMemoryFile sys.openData .resize d.data.length (pageRoundUp P (w.info.actualSize.toNat + 4)) with
  | (opened, .error e) => (opened, some e)
  | (opened, .ok _) =>
    let stores := opened ++ dataWrites 0 (List.replicate 4 0) ++ dataWrites 4 (region.take ((4 + w.info.actualSize).toNat - 4))
    match msync sys.syncData with
    | some e => (stores, some e)
    | none =>
      -- the meta is stored after the region is synced
      let (written, err) := w.flushMeta P sys d
      (stores ++ written, err)

end Writer

/-- The value last set for each key. -/
def lastSet (sets : List (Bytes × Value)) : Bytes → Option Value :=
  sets.foldl (fun f s => Function.update f s.1 (some s.2)) fun _ => none

/-! ### What a writer has collected -/

/-- The writer holds the values `f`, each key once. -/
structure Writer.Collects (w : Writer) (f : Bytes → Option Value) : Prop where
  nodup : w.order.Nodup
  mem_order : ∀ k, k ∈ w.order ↔ k ∈ w.blob
  blob_eq : ∀ k, w.blob[k]? = (f k).map Value.blob
  keys : f [] = none

section Collect

variable {w : Writer} {f : Bytes → Option Value}

lemma Writer.collects_new : Writer.new.Collects fun _ => none := by
  refine ⟨List.nodup_nil, fun k => ?_, fun k => ?_, rfl⟩
  · simp [Writer.new]
  · simp [Writer.new]

theorem Writer.Collects.set (h : w.Collects f) {key : Bytes} (hk : key ≠ []) (v : Value) :
    (w.set key v.blob).Collects (Function.update f key (some v)) := by
  refine ⟨?_, fun k => ?_, fun k => ?_, ?_⟩
  · rw [Writer.set]
    split
    · exact h.nodup
    · next hnew =>
      refine List.nodup_append.2 ⟨h.nodup, List.nodup_singleton key, ?_⟩
      rintro a ha b hb rfl
      rw [List.mem_singleton] at hb
      rw [hb, h.mem_order, ← ExtTreeMap.contains_iff_mem] at ha
      exact hnew ha
  · rw [Writer.set]
    simp only [ExtTreeMap.mem_insert, LawfulEqCmp.compare_eq_iff_eq]
    split
    · next hold =>
      rw [h.mem_order]
      refine ⟨.inr, ?_⟩
      rintro (rfl | hk)
      · exact ExtTreeMap.contains_iff_mem.1 hold
      · exact hk
    · rw [List.mem_append, List.mem_singleton, h.mem_order, or_comm, eq_comm]
  · rw [Writer.set]
    simp only [ExtTreeMap.getElem?_insert, LawfulEqCmp.compare_eq_iff_eq]
    by_cases he : key = k
    · subst he
      simp
    · rw [if_neg he, Function.update_of_ne (Ne.symm he), h.blob_eq]
  · rw [Function.update_of_ne (Ne.symm hk), h.keys]

theorem Writer.Collects.setAll {sets : List (Bytes × Value)} (h : w.Collects f) (hkeys : ∀ s ∈ sets, s.1 ≠ []) :
    (w.setAll sets).Collects (sets.foldl (fun f s => Function.update f s.1 (some s.2)) f) := by
  induction sets generalizing w f with
  | nil => exact h
  | cons s sets ih => exact ih (h.set (hkeys s (by simp)) s.2) fun s' hs' => hkeys s' (List.mem_cons_of_mem _ hs')

lemma Writer.Collects.wf (h : w.Collects f) : WF w.blob := by
  intro k b hb
  rw [h.blob_eq, Option.map_eq_some_iff] at hb
  obtain ⟨v, hv, rfl⟩ := hb
  refine ⟨?_, v.blob_ne_nil⟩
  rintro rfl
  rw [h.keys] at hv
  cases hv

end Collect

lemma lastSet_ne_none {sets : List (Bytes × Value)} {k : Bytes} : lastSet sets k ≠ none ↔ k ∈ sets.map Prod.fst := by
  have hfold : ∀ f : Bytes → Option Value,
      sets.foldl (fun (f : Bytes → Option Value) s => Function.update f s.1 (some s.2)) f k ≠ none ↔
      f k ≠ none ∨ k ∈ sets.map Prod.fst := by
    induction sets with
    | nil => simp
    | cons s sets ih =>
      intro f
      rw [List.foldl_cons, ih, List.map_cons, List.mem_cons, Function.update_apply]
      by_cases he : k = s.1
      · simp [he]
      · simp [he]
  rw [lastSet, hfold]
  simp

/-! ### The files after a flush -/

/-- No call of a flush fails. -/
structure FlushSys.OK (sys : FlushSys) : Prop where
  openData : sys.openData = none
  syncData : sys.syncData = false
  openMeta : sys.openMeta = none
  syncMeta : sys.syncMeta = false

lemma openMemoryFile_ok (resize : ℕ → Write) (size want : ℕ) :
    openMemoryFile none resize size want = (if size < want then [resize want] else [], .ok (max size want)) := by
  by_cases h : size < want
  · simp [openMemoryFile, h, Nat.max_eq_right (Nat.le_of_lt h)]
  · simp [openMemoryFile, h, Nat.max_eq_left (Nat.le_of_not_lt h)]

lemma resize_max (xs : Bytes) (want : ℕ) :
    (if xs.length < want then resize 0 xs want else xs) = resize 0 xs (max xs.length want) := by
  split
  · next h => rw [Nat.max_eq_right (Nat.le_of_lt h)]
  · next h => rw [Nat.max_eq_left (Nat.le_of_not_lt h), resize_length]

section Flush

variable {P : Platform} {w : Writer} {f : Bytes → Option Value}

/-- The size of the data file after a flush over `d`. -/
def Writer.flushedSize (w : Writer) (P : Platform) (d : Disk) : ℕ :=
  max d.data.length (pageRoundUp P (w.info.actualSize.toNat + 4))

/-- The files after a flush over `d`. -/
def Writer.flushed (w : Writer) (P : Platform) (d : Disk) : Disk :=
  ⟨MMKV.rewritten d (w.flushedSize P d) (encodeRegion w.order w.blob),
    patch (resize 0 d.crc (max d.crc.length (pageRoundUp P metaSize))) 0 w.info.marshal⟩

variable (hsize : 4 + (encodeRegion w.order w.blob).length < 2 ^ 32)
include hsize

lemma Writer.actualSize_eq : w.info.actualSize.toNat = (encodeRegion w.order w.blob).length :=
  toNat_ofNat32 (by omega)

/-- **A flush in which no call fails**: what the files are afterwards. -/
theorem Writer.flush_ok {sys : FlushSys} (hsys : sys.OK) (d : Disk) :
    (w.flush P sys d).2 = none ∧ d.apply (w.flush P sys d).1 = w.flushed P d := by
  have hlen := actualSize_eq hsize
  have hregion : (encodeRegion w.order w.blob).take ((4 + w.info.actualSize).toNat - 4) =
      encodeRegion w.order w.blob := by
    rw [toNat_four_add (by omega), hlen]
    exact List.take_of_length_le (by omega)
  have hsync : msync false = none := rfl
  have hmeta : w.flushMeta P sys d = ((if d.crc.length < pageRoundUp P metaSize
      then [.resizeCrc (pageRoundUp P metaSize)] else []) ++ crcWrites 0 w.info.marshal, none) := by
    simp only [flushMeta, hsys.openMeta, openMemoryFile_ok, hsys.syncMeta, hsync]
  have hflush : w.flush P sys d = ((if d.data.length < pageRoundUp P (w.info.actualSize.toNat + 4)
      then [.resize (pageRoundUp P (w.info.actualSize.toNat + 4))] else []) ++ dataWrites 0 (List.replicate 4 0) ++
        dataWrites 4 (encodeRegion w.order w.blob) ++ ((if d.crc.length < pageRoundUp P metaSize
      then [.resizeCrc (pageRoundUp P metaSize)] else []) ++ crcWrites 0 w.info.marshal), none) := by
    simp only [flush, hsys.openData, openMemoryFile_ok, hsys.syncData, hsync, hmeta, hregion]
  -- the stores of an open, as one resize
  have hopen : ∀ (d : Disk) (want : ℕ), d.apply (if d.data.length < want then [.resize want] else []) =
      { d with data := resize 0 d.data (max d.data.length want) } := by
    intro d want
    rw [← resize_max]
    split <;> rfl
  have hopenCrc : ∀ (d : Disk) (want : ℕ), d.apply (if d.crc.length < want then [.resizeCrc want] else []) =
      { d with crc := resize 0 d.crc (max d.crc.length want) } := by
    intro d want
    rw [← resize_max]
    split <;> rfl
  rw [hflush]
  refine ⟨rfl, ?_⟩
  simp only [Disk.apply_append]
  rw [hopen, Disk.apply_dataWrites, Disk.apply_dataWrites]
  have hcrc := hopenCrc ⟨patch (patch (resize 0 d.data (w.flushedSize P d)) 0 (List.replicate 4 0)) 4
    (encodeRegion w.order w.blob), d.crc⟩ (pageRoundUp P metaSize)
  simp only [flushedSize] at hcrc ⊢
  rw [hcrc, Disk.apply_crcWrites, flushed, flushedSize, MMKV.rewritten]

theorem Writer.leaves_flushed (d : Disk) : Leaves none (w.flushed P d) w.info (encodeRegion w.order w.blob) := by
  have hlen := actualSize_eq hsize
  have hroom : 4 + (encodeRegion w.order w.blob).length ≤ w.flushedSize P d := by
    have := le_pageRoundUp P (w.info.actualSize.toNat + 4)
    rw [flushedSize]
    omega
  have hfile : metaSize ≤ (resize 0 d.crc (max d.crc.length (pageRoundUp P metaSize))).length := by
    have := le_pageRoundUp P metaSize
    rw [length_resize]
    omega
  exact MMKV.leaves_of_stored (d := ⟨d.data, resize 0 d.crc (max d.crc.length (pageRoundUp P metaSize))⟩)
    (by rw [flushed]; rfl) hfile rfl hroom rfl rfl rfl

lemma Writer.Collects.lengths (h : w.Collects f) {k b : Bytes} (hb : w.blob[k]? = some b) :
    k.length < 2 ^ 32 ∧ b.length < 2 ^ 32 := by
  have hmem : k ∈ w.order := by
    rw [h.mem_order, ExtTreeMap.mem_iff_isSome_getElem?, hb]
    rfl
  -- the pair is a part of the region
  have hle : (pairBytes k (w.blob[k]?.getD [])).length ≤
      (w.order.flatMap fun k => pairBytes k (w.blob[k]?.getD [])).length :=
    (List.sublist_flatten_of_mem (List.mem_map_of_mem (f := fun k => pairBytes k (w.blob[k]?.getD [])) hmem)).length_le
  have hpair := le_pairSize k b
  rw [hb, Option.getD_some, length_pairBytes] at hle
  rw [encodeRegion, List.length_append] at hsize
  omega

theorem Writer.Collects.parse (h : w.Collects f) : parseDict (encodeRegion w.order w.blob) = .ok w.blob :=
  parseDict_encodeRegion h.wf h.nodup h.mem_order fun _ _ hb => h.lengths hsize hb

end Flush

/-! ### Reading back -/

/-- **Opening files that have their least sizes**, for reading or for writing. -/
theorem openMMKV_of_size {P : Platform} (sys : Sys) {cfg : Config} {d : Disk} {mi : MetaInfo} {dict : Dict}
    (h : Readable d mi) (hdec : parseDict (plainOf (cfg.crypt P) mi.iv (d.region mi.actualSize)) = .ok dict)
    (hdata : pageRoundUp P 0 ≤ d.data.length) (hcrc : pageRoundUp P metaSize ≤ d.crc.length) :
    openMMKV P sys cfg d = ([], .ok (cfg.opened P d mi dict)) := by
  have hwrites : openWrites P d = [] := by
    rw [openWrites, if_neg (by omega), if_neg (by omega)]
    rfl
  cases hro : cfg.readOnly with
  | false =>
    have hopen := openMMKV_of_readable sys h hro hdec
    rw [hwrites, Disk.apply_nil] at hopen
    exact hopen
  | true =>
    have hload := MMKV.loadData_ok (m := cfg.instance P ⟨d.data.length, true⟩) h rfl h.fits hdec
    have hfits := h.fits
    have hlen := le_length_of_parseMeta h.parse
    have hne : ¬ (d.data.length = 0 ∨ d.crc.length = 0) := by
      rw [metaSize] at hlen
      omega
    rw [openMMKV, hro, if_pos rfl, if_neg hne, MMKV.load, hload]
    rfl

lemma get_opened (P : Platform) (sys : Sys) (cfg : Config) {d : Disk} {mi : MetaInfo} (dict : Dict) {α : Type}
    (h : Readable d mi) (getter : View → α) (zero : α) :
    ((cfg.opened P d mi dict).get sys d getter zero).2 = getter ⟨dict, mi.expireEnabled, sys.now⟩ := by
  have hcheck : (cfg.opened P d mi dict).checkLoadData d sys = cfg.opened P d mi dict :=
    MMKV.checkLoadData_of_parse h.parse rfl rfl rfl
  have hclosed : (cfg.opened P d mi dict).closed = false := rfl
  simp only [MMKV.get, hclosed, Bool.false_eq_true, if_false, hcheck]
  rfl

/-- **What a writer flushes is read back.**  Whatever the files were before, a reader and an instance open them and answer
every getter from one map: its keys are those that were set, and the getter of the type last set for a key returns the
value last set. -/
theorem flush_reads_back {P : Platform} {sys : FlushSys} (hsys : sys.OK) {sets : List (Bytes × Value)}
    (hkeys : ∀ s ∈ sets, s.1 ≠ [])
    (hsize : 4 + (encodeRegion (Writer.new.setAll sets).order (Writer.new.setAll sets).blob).length < 2 ^ 32)
    (d : Disk) :
    let flushed := (Writer.new.setAll sets).flush P sys d
    let files := d.apply flushed.1
    flushed.2 = none ∧ ∃ dict : Dict,
      (∃ r, Reader.openReader files none = .ok r ∧ ∀ (α : Type) (now : UInt32) (getter : View → α),
        (r.get files now getter).2 = getter ⟨dict, false, now⟩) ∧
      (∀ cfg sys', cfg.cryptKey = [] → ∃ m, openMMKV P sys' cfg files = ([], .ok m) ∧
        ∀ (α : Type) (sys'' : Sys) (getter : View → α) (zero : α),
          (m.get sys'' files getter zero).2 = getter ⟨dict, false, sys''.now⟩) ∧
      ∀ now, (∀ k, k ∈ (View.mk dict false now).allKeys ↔ k ∈ sets.map Prod.fst) ∧
        ∀ key v, lastSet sets key = some v → v.ReadAs ⟨dict, false, now⟩ key := by
  intro flushed files
  have hcollect : (Writer.new.setAll sets).Collects (lastSet sets) := Writer.collects_new.setAll hkeys
  obtain ⟨herr, hfiles⟩ := Writer.flush_ok (P := P) hsize hsys d
  obtain ⟨hreadable, hregion⟩ := (Writer.leaves_flushed (P := P) hsize d).readable hsize
  have hparse := hcollect.parse hsize
  have hexpire : (Writer.new.setAll sets).info.expireEnabled = false :=
    show ((0 : UInt64) &&& flagEnableExpire != 0) = false by decide
  rw [← hregion] at hparse
  -- both files have their least sizes, so an open has nothing to add
  have hdata : pageRoundUp P 0 ≤ ((Writer.new.setAll sets).flushed P d).data.length := by
    rw [Writer.flushed, MMKV.length_rewritten, Writer.flushedSize, pageRoundUp_zero]
    exact Nat.le_trans (pageSize_le_pageRoundUp P _) (Nat.le_max_right ..)
  have hcrc : pageRoundUp P metaSize ≤ ((Writer.new.setAll sets).flushed P d).crc.length := by
    rw [Writer.flushed, length_patch, length_resize]
    exact Nat.le_max_right ..
  refine ⟨herr, (Writer.new.setAll sets).blob, ?_, fun cfg sys' hkey => ?_, fun now => ⟨fun k => ?_, fun key v hv => ?_⟩⟩
  · obtain ⟨hopen, hget⟩ := openReader_of_readable hreadable hparse
    refine ⟨_, by rw [← hfiles] at hopen; exact hopen, ?_⟩
    intro α now getter
    have := hget α now getter
    rw [← hfiles, hexpire] at this
    exact this
  · have hplain : cfg.crypt P = none := by rw [Config.crypt, if_pos hkey]
    have hopen := openMMKV_of_size sys' hreadable
      (show parseDict (plainOf (cfg.crypt P) _ _) = _ by rw [hplain]; exact hparse) hdata hcrc
    refine ⟨_, by rw [← hfiles] at hopen; exact hopen, ?_⟩
    intro α sys'' getter zero
    have := get_opened P sys'' cfg (Writer.new.setAll sets).blob hreadable getter zero
    rw [← hfiles, hexpire] at this
    exact this
  · rw [View.allKeys, List.mem_filter, ← lastSet_ne_none]
    simp only [View.contains, View.value, hcollect.blob_eq, ExtTreeMap.mem_keys,
      ExtTreeMap.mem_iff_isSome_getElem?]
    cases lastSet sets k <;> simp [slotValue]
  · have hblob : (Writer.new.setAll sets).blob[key]? = some v.blob := by rw [hcollect.blob_eq, hv, Option.map_some]
    refine Value.readAs_of_value ?_ (by simp [View.value, hblob, slotValue])
    exact (hcollect.lengths hsize hblob).2

/-- A key set twice, with different types, and another one, flushed over absent files. -/
theorem flush_reads_back_last_type :
    let files := (⟨[], []⟩ : Disk).apply ((Writer.new.setAll [([97], .bool true), ([98], .bool false),
      ([97], .int32 (-1))]).flush linux ⟨none, false, none, false⟩ ⟨[], []⟩).1
    ∃ r, Reader.openReader files none = .ok r ∧ (r.get files 0 fun v => v.getInt32 [97]).2 = some (-1) := by
  have hkeys : ∀ s ∈ [(([97] : Bytes), Value.bool true), ([98], .bool false), ([97], .int32 (-1))], s.1 ≠ [] := by
    decide
  obtain ⟨-, dict, ⟨r, hr, hget⟩, -, hread⟩ := flush_reads_back (P := linux)
    (show FlushSys.OK ⟨none, false, none, false⟩ from ⟨rfl, rfl, rfl, rfl⟩) hkeys (by decide) ⟨[], []⟩
  refine ⟨r, hr, (hget _ _ _).trans ?_⟩
  exact (hread 0).2 [97] (.int32 (-1)) rfl

end MmkvGo.Store
