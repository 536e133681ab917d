import MmkvGo.Lib.Slices
import MmkvGo.Wire.Coded

/-!
The meta file (`meta.go`): a fixed-layout little-endian record of 112 bytes.  `marshal` writes it and
`parseMeta` reads it back, out of a file that may be longer.  The incremental write paths store single
words of it (`putUint32`); `parseMeta_putUint32_crc_size` is what such a pair of stores does to the record.
-/

namespace MmkvGo.Wire

open MmkvGo.Lib

/-- Sixteen bytes: an AES block, or an IV. -/
abbrev Block := Vector UInt8 16

/-- `metaInfo`. -/
structure MetaInfo where
  crcDigest : UInt32
  version : UInt32
  sequence : UInt32
  iv : Block
  actualSize : UInt32
  lastActualSize : UInt32
  lastCRCDigest : UInt32
  flags : UInt64
  deriving DecidableEq

def offCRC : ℕ := 0
def offVersion : ℕ := 4
def offSequence : ℕ := 8
def offIV : ℕ := 12
def offActualSize : ℕ := 28
def offLastActualSize : ℕ := 32
def offLastCRCDigest : ℕ := 36
def offFlags : ℕ := 104
def metaSize : ℕ := 112

/-- `actualSize` is stored in the meta from this version on. -/
def versionActualSize : UInt32 := 3
/-- The `flags` field is present from this version on. -/
def versionFlag : UInt32 := 4
def maxSupportedVersion : UInt32 := versionFlag

/-- The flag bit of key expiration. -/
def flagEnableExpire : UInt64 := 1

/-- The word stored at `off`: `binary.LittleEndian.Uint32(buf[off:])`. -/
def getUint32 (buf : Bytes) (off : ℕ) : UInt32 := uint32 (buf.drop off)

/-- The word stored at `off`: `binary.LittleEndian.Uint64(buf[off:])`. -/
def getUint64 (buf : Bytes) (off : ℕ) : UInt64 := uint64 (buf.drop off)

/-- The sixteen bytes from `off` on. -/
def getBlock (buf : Bytes) (off : ℕ) : Block := Vector.ofFn fun i => buf.getD (off + i) 0

/-- `binary.LittleEndian.PutUint32(buf[off:], v)`. -/
def putUint32 (buf : Bytes) (off : ℕ) (v : UInt32) : Bytes := patch buf off (writeRawLittleEndian32 v)

/-- `binary.LittleEndian.PutUint64(buf[off:], v)`. -/
def putUint64 (buf : Bytes) (off : ℕ) (v : UInt64) : Bytes := patch buf off (writeRawLittleEndian64 v)

/-- `parseMeta`. -/
def parseMeta (buf : Bytes) : Except Err MetaInfo :=
  if buf.length < metaSize then .error (.metaTooShort buf.length)
  else .ok
    { crcDigest := getUint32 buf offCRC
      version := getUint32 buf offVersion
      sequence := getUint32 buf offSequence
      iv := getBlock buf offIV
      actualSize := getUint32 buf offActualSize
      lastActualSize := getUint32 buf offLastActualSize
      lastCRCDigest := getUint32 buf offLastCRCDigest
      flags := getUint64 buf offFlags }

/-- `metaInfo.marshal`: the bytes between `lastCRCDigest` and `flags` stay zero. -/
def MetaInfo.marshal (m : MetaInfo) : Bytes :=
  let buf := List.replicate metaSize 0
  let buf := putUint32 buf offCRC m.crcDigest
  let buf := putUint32 buf offVersion m.version
  let buf := putUint32 buf offSequence m.sequence
  let buf := patch buf offIV m.iv.toList
  let buf := putUint32 buf offActualSize m.actualSize
  let buf := putUint32 buf offLastActualSize m.lastActualSize
  let buf := putUint32 buf offLastCRCDigest m.lastCRCDigest
  putUint64 buf offFlags m.flags

/-- `metaInfo.expireEnabled`. -/
def MetaInfo.expireEnabled (m : MetaInfo) : Bool := m.flags &&& flagEnableExpire != 0

/-! ### Words and patches -/

lemma getUint32_eq_slice (buf : Bytes) (off : ℕ) :
    getUint32 buf off = UInt32.ofNat (LittleEndian.value (slice buf off (off + 4))) := by
  rw [getUint32, uint32, slice, List.drop_take, Nat.add_sub_cancel_left]

lemma getUint64_eq_slice (buf : Bytes) (off : ℕ) :
    getUint64 buf off = UInt64.ofNat (LittleEndian.value (slice buf off (off + 8))) := by
  rw [getUint64, uint64, slice, List.drop_take, Nat.add_sub_cancel_left]

theorem writeRawLittleEndian32_getUint32 {buf : Bytes} {off : ℕ} (h : off + 4 ≤ buf.length) :
    writeRawLittleEndian32 (getUint32 buf off) = slice buf off (off + 4) := by
  have hlen : (slice buf off (off + 4)).length = 4 := by rw [length_slice h, Nat.add_sub_cancel_left]
  have hlt := LittleEndian.value_lt (slice buf off (off + 4))
  rw [hlen] at hlt
  have hbytes := LittleEndian.bytes_value (slice buf off (off + 4))
  rw [hlen] at hbytes
  rw [writeRawLittleEndian32, getUint32_eq_slice, UInt32.toNat_ofNat_of_lt' (by simpa using hlt), hbytes]

theorem writeRawLittleEndian64_getUint64 {buf : Bytes} {off : ℕ} (h : off + 8 ≤ buf.length) :
    writeRawLittleEndian64 (getUint64 buf off) = slice buf off (off + 8) := by
  have hlen : (slice buf off (off + 8)).length = 8 := by rw [length_slice h, Nat.add_sub_cancel_left]
  have hlt := LittleEndian.value_lt (slice buf off (off + 8))
  rw [hlen] at hlt
  have hbytes := LittleEndian.bytes_value (slice buf off (off + 8))
  rw [hlen] at hbytes
  rw [writeRawLittleEndian64, getUint64_eq_slice, UInt64.toNat_ofNat_of_lt' (by simpa using hlt), hbytes]

theorem getUint32_patch_of_le {buf : Bytes} {o off : ℕ} (bs : Bytes) (h : o + 4 ≤ off) :
    getUint32 (patch buf off bs) o = getUint32 buf o := by
  rw [getUint32_eq_slice, slice_patch_of_le bs h, getUint32_eq_slice]

theorem getUint32_patch_of_ge {buf : Bytes} {o off : ℕ} (bs : Bytes) (h : off + bs.length ≤ o) :
    getUint32 (patch buf off bs) o = getUint32 buf o := by
  rw [getUint32_eq_slice, slice_patch_of_ge bs h, getUint32_eq_slice]

theorem getUint64_patch_of_ge {buf : Bytes} {o off : ℕ} (bs : Bytes) (h : off + bs.length ≤ o) :
    getUint64 (patch buf off bs) o = getUint64 buf o := by
  rw [getUint64_eq_slice, slice_patch_of_ge bs h, getUint64_eq_slice]

lemma getBlock_congr {a b : Bytes} {o : ℕ} (h : ∀ i < 16, a[o + i]? = b[o + i]?) :
    getBlock a o = getBlock b o := by
  refine Vector.ext fun i hi => ?_
  simp only [getBlock, Vector.getElem_ofFn, List.getD_eq_getElem?_getD, h i hi]

lemma getElem?_of_take_eq {a b : Bytes} {n i : ℕ} (h : a.take n = b.take n) (hi : i < n) : a[i]? = b[i]? := by
  have := congrArg (fun l => l[i]?) h
  simpa [List.getElem?_take, hi] using this

lemma getElem?_of_drop_eq {a b : Bytes} {n i : ℕ} (h : a.drop n = b.drop n) (hi : n ≤ i) : a[i]? = b[i]? := by
  have := congrArg (fun l => l[i - n]?) h
  simpa [List.getElem?_drop, show n + (i - n) = i by omega] using this

theorem getBlock_patch_of_le {buf : Bytes} {o off : ℕ} (bs : Bytes) (h : o + 16 ≤ off) :
    getBlock (patch buf off bs) o = getBlock buf o :=
  getBlock_congr fun i hi => getElem?_of_take_eq (take_patch_of_le bs (Nat.le_refl off)) (by omega)

theorem getBlock_patch_of_ge {buf : Bytes} {o off : ℕ} (bs : Bytes) (h : off + bs.length ≤ o) :
    getBlock (patch buf off bs) o = getBlock buf o :=
  getBlock_congr fun i _ => getElem?_of_drop_eq (drop_patch_of_le bs (Nat.le_refl _)) (by omega)

@[simp] lemma length_putUint32 (buf : Bytes) (off : ℕ) (v : UInt32) : (putUint32 buf off v).length = buf.length :=
  length_patch ..

@[simp] lemma length_putUint64 (buf : Bytes) (off : ℕ) (v : UInt64) : (putUint64 buf off v).length = buf.length :=
  length_patch ..

theorem getUint32_putUint32_self {buf : Bytes} {off : ℕ} (v : UInt32) (h : off + 4 ≤ buf.length) :
    getUint32 (putUint32 buf off v) off = v := by
  have hs : slice (putUint32 buf off v) off (off + 4) = writeRawLittleEndian32 v :=
    slice_patch_self (by simpa using h)
  have hv := uint32_writeRawLittleEndian32 v []
  rw [List.append_nil, uint32, List.take_of_length_le (by simp)] at hv
  rw [getUint32_eq_slice, hs, hv]

theorem getUint64_putUint64_self {buf : Bytes} {off : ℕ} (v : UInt64) (h : off + 8 ≤ buf.length) :
    getUint64 (putUint64 buf off v) off = v := by
  have hs : slice (putUint64 buf off v) off (off + 8) = writeRawLittleEndian64 v :=
    slice_patch_self (by simpa using h)
  have hv := uint64_writeRawLittleEndian64 v []
  rw [List.append_nil, uint64, List.take_of_length_le (by simp)] at hv
  rw [getUint64_eq_slice, hs, hv]

theorem getUint32_putUint32_of_ne {buf : Bytes} {o off : ℕ} (v : UInt32) (h : o + 4 ≤ off ∨ off + 4 ≤ o) :
    getUint32 (putUint32 buf off v) o = getUint32 buf o := by
  rcases h with h | h
  · exact getUint32_patch_of_le _ h
  · exact getUint32_patch_of_ge _ (by simpa using h)

theorem getUint32_putUint64_of_le {buf : Bytes} {o off : ℕ} (v : UInt64) (h : o + 4 ≤ off) :
    getUint32 (putUint64 buf off v) o = getUint32 buf o := getUint32_patch_of_le _ h

theorem getBlock_putUint32_of_ne {buf : Bytes} {o off : ℕ} (v : UInt32) (h : o + 16 ≤ off ∨ off + 4 ≤ o) :
    getBlock (putUint32 buf off v) o = getBlock buf o := by
  rcases h with h | h
  · exact getBlock_patch_of_le _ h
  · exact getBlock_patch_of_ge _ (by simpa using h)

theorem getBlock_putUint64_of_le {buf : Bytes} {o off : ℕ} (v : UInt64) (h : o + 16 ≤ off) :
    getBlock (putUint64 buf off v) o = getBlock buf o := getBlock_patch_of_le _ h

theorem getUint64_putUint32_of_ge {buf : Bytes} {o off : ℕ} (v : UInt32) (h : off + 4 ≤ o) :
    getUint64 (putUint32 buf off v) o = getUint64 buf o := getUint64_patch_of_ge _ (by simpa using h)

theorem getBlock_patch_self {buf : Bytes} {off : ℕ} (iv : Block) (h : off + 16 ≤ buf.length) :
    getBlock (patch buf off iv.toList) off = iv := by
  have hlen : iv.toList.length = 16 := by simp
  have hoff : (buf.take off).length = off := by simp; omega
  refine Vector.ext fun i hi => ?_
  rw [patch_eq (by rw [hlen]; exact h)]
  simp only [getBlock, Vector.getElem_ofFn, List.getD_eq_getElem?_getD, List.append_assoc]
  rw [List.getElem?_append_right (by omega), hoff, Nat.add_sub_cancel_left,
    List.getElem?_append_left (by omega), List.getElem?_eq_getElem (by omega)]
  simp

/-! ### The record -/

lemma parseMeta_ok {buf : Bytes} (h : metaSize ≤ buf.length) :
    parseMeta buf = .ok
      { crcDigest := getUint32 buf offCRC
        version := getUint32 buf offVersion
        sequence := getUint32 buf offSequence
        iv := getBlock buf offIV
        actualSize := getUint32 buf offActualSize
        lastActualSize := getUint32 buf offLastActualSize
        lastCRCDigest := getUint32 buf offLastCRCDigest
        flags := getUint64 buf offFlags } := by
  rw [parseMeta, if_neg (by omega)]

lemma le_length_of_parseMeta {buf : Bytes} {mi : MetaInfo} (h : parseMeta buf = .ok mi) : metaSize ≤ buf.length := by
  by_contra hlt
  rw [parseMeta, if_pos (by omega)] at h
  cases h

theorem parseMeta_congr {a b : Bytes} (ha : metaSize ≤ a.length) (hb : metaSize ≤ b.length)
    (h : a.take metaSize = b.take metaSize) : parseMeta a = parseMeta b := by
  have hslice : ∀ lo hi, hi ≤ metaSize → slice a lo hi = slice b lo hi := by
    intro lo hi hle
    rw [← slice_take hle, h, slice_take hle]
  rw [parseMeta_ok ha, parseMeta_ok hb]
  simp only [getUint32_eq_slice, getUint64_eq_slice]
  rw [hslice _ _ (by decide), hslice _ _ (by decide), hslice _ _ (by decide), hslice _ _ (by decide),
    hslice _ _ (by decide), hslice _ _ (by decide), hslice _ _ (by decide),
    getBlock_congr fun i hi => getElem?_of_take_eq h (by simp only [offIV, metaSize]; omega)]

@[simp] theorem length_marshal (mi : MetaInfo) : mi.marshal.length = metaSize := by
  simp [MetaInfo.marshal]

section Marshal

variable (mi : MetaInfo)

lemma getUint32_marshal_crc : getUint32 mi.marshal offCRC = mi.crcDigest := by
  simp only [MetaInfo.marshal]
  rw [getUint32_putUint64_of_le _ (by decide), getUint32_putUint32_of_ne _ (by decide),
    getUint32_putUint32_of_ne _ (by decide), getUint32_putUint32_of_ne _ (by decide),
    getUint32_patch_of_le _ (by decide), getUint32_putUint32_of_ne _ (by decide),
    getUint32_putUint32_of_ne _ (by decide), getUint32_putUint32_self _ (by simp [offCRC, metaSize])]

lemma getUint32_marshal_version : getUint32 mi.marshal offVersion = mi.version := by
  simp only [MetaInfo.marshal]
  rw [getUint32_putUint64_of_le _ (by decide), getUint32_putUint32_of_ne _ (by decide),
    getUint32_putUint32_of_ne _ (by decide), getUint32_putUint32_of_ne _ (by decide),
    getUint32_patch_of_le _ (by decide), getUint32_putUint32_of_ne _ (by decide),
    getUint32_putUint32_self _ (by simp [offVersion, metaSize])]

lemma getUint32_marshal_sequence : getUint32 mi.marshal offSequence = mi.sequence := by
  simp only [MetaInfo.marshal]
  rw [getUint32_putUint64_of_le _ (by decide), getUint32_putUint32_of_ne _ (by decide),
    getUint32_putUint32_of_ne _ (by decide), getUint32_putUint32_of_ne _ (by decide),
    getUint32_patch_of_le _ (by decide), getUint32_putUint32_self _ (by simp [offSequence, metaSize])]

lemma getBlock_marshal_iv : getBlock mi.marshal offIV = mi.iv := by
  simp only [MetaInfo.marshal]
  rw [getBlock_putUint64_of_le _ (by decide), getBlock_putUint32_of_ne _ (by decide),
    getBlock_putUint32_of_ne _ (by decide), getBlock_putUint32_of_ne _ (by decide),
    getBlock_patch_self _ (by simp [offIV, metaSize])]

lemma getUint32_marshal_actualSize : getUint32 mi.marshal offActualSize = mi.actualSize := by
  simp only [MetaInfo.marshal]
  rw [getUint32_putUint64_of_le _ (by decide), getUint32_putUint32_of_ne _ (by decide),
    getUint32_putUint32_of_ne _ (by decide), getUint32_putUint32_self _ (by simp [offActualSize, metaSize])]

lemma getUint32_marshal_lastActualSize : getUint32 mi.marshal offLastActualSize = mi.lastActualSize := by
  simp only [MetaInfo.marshal]
  rw [getUint32_putUint64_of_le _ (by decide), getUint32_putUint32_of_ne _ (by decide),
    getUint32_putUint32_self _ (by simp [offLastActualSize, metaSize])]

lemma getUint32_marshal_lastCRCDigest : getUint32 mi.marshal offLastCRCDigest = mi.lastCRCDigest := by
  simp only [MetaInfo.marshal]
  rw [getUint32_putUint64_of_le _ (by decide),
    getUint32_putUint32_self _ (by simp [offLastCRCDigest, metaSize])]

lemma getUint64_marshal_flags : getUint64 mi.marshal offFlags = mi.flags := by
  simp only [MetaInfo.marshal]
  rw [getUint64_putUint64_self _ (by simp [offFlags, metaSize])]

/-- **The record is read back**, whatever follows it in the file. -/
theorem parseMeta_marshal (rest : Bytes) : parseMeta (mi.marshal ++ rest) = .ok mi := by
  have hlen : metaSize ≤ mi.marshal.length := by simp
  have htake : (mi.marshal ++ rest).take metaSize = mi.marshal.take metaSize :=
    List.take_append_of_le_length hlen
  rw [parseMeta_congr (by simp) hlen htake, parseMeta_ok hlen, getUint32_marshal_crc,
    getUint32_marshal_version, getUint32_marshal_sequence, getBlock_marshal_iv,
    getUint32_marshal_actualSize, getUint32_marshal_lastActualSize, getUint32_marshal_lastCRCDigest,
    getUint64_marshal_flags]

theorem parseMeta_patch_marshal {file : Bytes} (h : metaSize ≤ file.length) :
    parseMeta (patch file 0 mi.marshal) = .ok mi := by
  rw [patch_eq (by simpa using h), List.take_zero, List.nil_append, parseMeta_marshal]

end Marshal

/-- **The two words an incremental write stores**: `crcDigest` and `actualSize` change, nothing else does. -/
theorem parseMeta_putUint32_crc_size {file : Bytes} {mi : MetaInfo} (h : parseMeta file = .ok mi) (crc size : UInt32) :
    parseMeta (putUint32 (putUint32 file offCRC crc) offActualSize size) =
      .ok { mi with crcDigest := crc, actualSize := size } := by
  have hlen := le_length_of_parseMeta h
  have hcrc : offCRC + 4 ≤ file.length := by simp only [offCRC, metaSize] at *; omega
  have hsize : offActualSize + 4 ≤ (putUint32 file offCRC crc).length := by
    simp only [length_putUint32, offActualSize, metaSize] at *
    omega
  rw [parseMeta_ok hlen] at h
  cases h
  rw [parseMeta_ok (by simpa using hlen)]
  rw [getUint32_putUint32_of_ne _ (by decide), getUint32_putUint32_self _ hcrc,
    getUint32_putUint32_of_ne _ (by decide), getUint32_putUint32_of_ne _ (by decide),
    getUint32_putUint32_of_ne _ (by decide), getUint32_putUint32_of_ne _ (by decide),
    getBlock_putUint32_of_ne _ (by decide), getBlock_putUint32_of_ne _ (by decide),
    getUint32_putUint32_self _ hsize,
    getUint32_putUint32_of_ne _ (by decide), getUint32_putUint32_of_ne _ (by decide),
    getUint32_putUint32_of_ne _ (by decide), getUint32_putUint32_of_ne _ (by decide),
    getUint64_putUint32_of_ge _ (by decide), getUint64_putUint32_of_ge _ (by decide)]

theorem parseMeta_putUint32_crc {file : Bytes} {mi : MetaInfo} (h : parseMeta file = .ok mi) (crc : UInt32) :
    parseMeta (putUint32 file offCRC crc) = .ok { mi with crcDigest := crc } := by
  have hlen := le_length_of_parseMeta h
  have hcrc : offCRC + 4 ≤ file.length := by simp only [offCRC, metaSize] at *; omega
  rw [parseMeta_ok hlen] at h
  cases h
  rw [parseMeta_ok (by simpa using hlen)]
  rw [getUint32_putUint32_self _ hcrc, getUint32_putUint32_of_ne _ (by decide),
    getUint32_putUint32_of_ne _ (by decide), getBlock_putUint32_of_ne _ (by decide),
    getUint32_putUint32_of_ne _ (by decide), getUint32_putUint32_of_ne _ (by decide),
    getUint32_putUint32_of_ne _ (by decide), getUint64_putUint32_of_ge _ (by decide)]

end MmkvGo.Wire
