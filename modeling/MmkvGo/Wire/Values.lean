import MmkvGo.Wire.Meta
import MmkvGo.Wire.Region

/-!
Typed values (`encode.go`) and the getters (`mmkv.go`, `reader.go`).

A setter stores the blob of its value (`Value.blob`); a getter looks the slot up, strips the expiration timestamp
when expiration is on, and decodes the rest.  The getters of an instance and of a reader have the same bodies over
the same three things, which are a `View` here.  `Value.readAs_of_value` says that the getter of a value's type
returns the value from its blob.
-/

namespace MmkvGo.Wire

open MmkvGo.Lib Std

/-! ### Blobs -/

def boolBlob (v : Bool) : Bytes := writeBool v
def int32Blob (v : Int32) : Bytes := writeInt32 v
def int64Blob (v : Int64) : Bytes := writeRawVarint64 v.toUInt64
def uint32Blob (v : UInt32) : Bytes := writeRawVarint32 v
def uint64Blob (v : UInt64) : Bytes := writeRawVarint64 v
/-- The argument is the bit pattern, `math.Float32bits`. -/
def float32Blob (bits : UInt32) : Bytes := writeRawLittleEndian32 bits
/-- The argument is the bit pattern, `math.Float64bits`. -/
def float64Blob (bits : UInt64) : Bytes := writeRawLittleEndian64 bits
def bytesBlob (b : Bytes) : Bytes := writeData b
def stringBlob (s : Bytes) : Bytes := bytesBlob s
def stringSliceBlob (v : List Bytes) : Bytes := bytesBlob (v.flatMap writeData)

/-- What the typed setters take: a float as its bit pattern, a string as its bytes. -/
inductive Value where
  | bool (v : Bool)
  | int32 (v : Int32)
  | int64 (v : Int64)
  | uint32 (v : UInt32)
  | uint64 (v : UInt64)
  | float32 (bits : UInt32)
  | float64 (bits : UInt64)
  | string (v : Bytes)
  | bytes (v : Bytes)
  | stringSlice (v : List Bytes)
  deriving DecidableEq

/-- The blob the setter of the type stores. -/
def Value.blob : Value → Bytes
  | .bool v => boolBlob v
  | .int32 v => int32Blob v
  | .int64 v => int64Blob v
  | .uint32 v => uint32Blob v
  | .uint64 v => uint64Blob v
  | .float32 bits => float32Blob bits
  | .float64 bits => float64Blob bits
  | .string v => stringBlob v
  | .bytes v => bytesBlob v
  | .stringSlice v => stringSliceBlob v

/-- The loop of `decodeStringSlice`, which stops at the first malformed entry. -/
def decodeItems : ℕ → Bytes → List Bytes
  | 0, _ => []
  | n + 1, buf =>
    if buf = [] then []
    else
      match readBytes buf with
      | .error _ => []
      | .ok (s, rest) => s :: decodeItems n rest

/-- `decodeStringSlice`. -/
def decodeStringSlice (items : Bytes) : List Bytes := decodeItems items.length items

/-! ### Getters -/

/-- What a getter reads: the map, whether slots carry a timestamp, and the clock. -/
structure View where
  dict : Dict
  expire : Bool
  now : UInt32

/-- The value in a slot: with expiration on, the trailing timestamp is stripped, and a slot whose timestamp is not
zero and not after `now` has no value. -/
def slotValue (expire : Bool) (now : UInt32) (v : Bytes) : Option Bytes :=
  if expire && decide (4 ≤ v.length) then
    let t := getUint32 v (v.length - 4)
    if t ≠ 0 ∧ t ≤ now then none else some (v.take (v.length - 4))
  else some v

/-- **A slot is a value and its timestamp**: the value is there unless the timestamp is set and has come. -/
theorem slotValue_append (now : UInt32) (b : Bytes) (t : UInt32) :
    slotValue true now (b ++ writeRawLittleEndian32 t) = if t ≠ 0 ∧ t ≤ now then none else some b := by
  have hlen : (b ++ writeRawLittleEndian32 t).length - 4 = b.length := by simp
  have hstamp : getUint32 (b ++ writeRawLittleEndian32 t) b.length = t := by
    rw [getUint32, List.drop_left]
    simpa using uint32_writeRawLittleEndian32 t []
  rw [slotValue, if_pos (by simp)]
  simp only [hlen, hstamp, List.take_left]

lemma slot_eq_append {v : Bytes} (h : 4 ≤ v.length) :
    v = v.take (v.length - 4) ++ writeRawLittleEndian32 (getUint32 v (v.length - 4)) := by
  rw [writeRawLittleEndian32_getUint32 (by omega), slice, Nat.sub_add_cancel h, List.take_length, List.take_append_drop]

theorem slotValue_inj {e : Bool} {v v' : Bytes} (hv : e = true → 4 ≤ v.length) (hv' : e = true → 4 ≤ v'.length)
    (h : ∀ now, slotValue e now v = slotValue e now v') : v = v' := by
  cases e with
  | false => simpa [slotValue] using h 0
  | true =>
    rw [slot_eq_append (hv rfl), slot_eq_append (hv' rfl)] at h ⊢
    generalize v.take (v.length - 4) = b, getUint32 v (v.length - 4) = t at h ⊢
    generalize v'.take (v'.length - 4) = b', getUint32 v' (v'.length - 4) = t' at h ⊢
    simp only [slotValue_append] at h
    -- nothing has expired at time zero, and each slot has at its own timestamp
    have hzero : ∀ u : UInt32, ¬ (u ≠ 0 ∧ u ≤ 0) := fun u hu => hu.1 (UInt32.le_zero_iff.1 hu.2)
    have hb : b = b' := by
      have h0 := h 0
      rw [if_neg (hzero t), if_neg (hzero t')] at h0
      exact Option.some.inj h0
    subst hb
    have hone : ∀ {a a' : UInt32}, (∀ now, (if a ≠ 0 ∧ a ≤ now then none else some b) =
        if a' ≠ 0 ∧ a' ≤ now then none else some b) → a ≠ 0 → a' ≠ 0 ∧ a' ≤ a := by
      intro a a' haa ha
      have ha' := haa a
      rw [if_pos ⟨ha, UInt32.le_refl a⟩] at ha'
      by_contra hn
      rw [if_neg hn] at ha'
      cases ha'
    by_cases ht : t = 0
    · by_cases ht' : t' = 0
      · rw [ht, ht']
      · exact absurd ht (hone (fun now => (h now).symm) ht').1
    · obtain ⟨ht', hle⟩ := hone h ht
      rw [UInt32.le_antisymm hle (hone (fun now => (h now).symm) ht').2]

namespace View

variable (w : View) (key : Bytes)

/-- `MMKV.value`, `snapshot.value`. -/
def value : Option Bytes :=
  match w.dict[key]? with
  | none => none
  | some v => slotValue w.expire w.now v

lemma value_eq_bind : w.value key = (w.dict[key]?).bind (slotValue w.expire w.now) := by
  rw [value]
  cases w.dict[key]? <;> rfl

/-- A getter that decodes the value with `read`. -/
def typed {α : Type} (read : Bytes → Except Err (α × Bytes)) : Option α :=
  match w.value key with
  | none => none
  | some v =>
    match read v with
    | .error _ => none
    | .ok (x, _) => some x

def getBool : Option Bool := w.typed key readBool
def getInt32 : Option Int32 := w.typed key readInt32
def getInt64 : Option Int64 := (w.typed key readVarint64).map UInt64.toInt64
def getUInt32 : Option UInt32 := w.typed key readUInt32
def getUInt64 : Option UInt64 := w.typed key readVarint64
/-- The bit pattern of `GetFloat32`. -/
def getFloat32 : Option UInt32 := w.typed key readFixed32
/-- The bit pattern of `GetFloat64`. -/
def getFloat64 : Option UInt64 := w.typed key readFixed64
/-- `bytesValue`, `GetBytes`, `GetBytesCopy`. -/
def getBytes : Option Bytes := w.typed key readBytes
/-- `GetString`, `GetStringCopy`. -/
def getString : Option Bytes := w.getBytes key
def getStringSlice : Option (List Bytes) := (w.getBytes key).map decodeStringSlice

def contains : Bool := (w.value key).isSome

/-- `AllKeys`, `Keys`: the keys of a `Dict` are in the order `sort.Strings` gives. -/
def allKeys : List Bytes := w.dict.keys.filter fun k => w.contains k

def count : ℕ := if !w.expire then w.dict.size else w.allKeys.length

end View

/-! ### Reading back -/

theorem decodeItems_flatMap {v : List Bytes} {n : ℕ} (hv : ∀ s ∈ v, s.length < 2 ^ 32)
    (hn : (v.flatMap writeData).length ≤ n) : decodeItems n (v.flatMap writeData) = v := by
  induction v generalizing n with
  | nil => cases n <;> rfl
  | cons s v ih =>
    rw [List.flatMap_cons] at hn ⊢
    have hs : s.length < 2 ^ 32 := hv s (by simp)
    have hread := readBytes_writeData hs (v.flatMap writeData)
    have hlt := readBytes_length_lt hread
    obtain ⟨n, rfl⟩ : ∃ n', n = n' + 1 := ⟨n - 1, by omega⟩
    have hne : writeData s ++ v.flatMap writeData ≠ [] := by
      intro h
      rw [h] at hlt
      simp at hlt
    rw [decodeItems, if_neg hne, hread]
    exact congrArg (s :: ·) (ih (fun s' hs' => hv s' (List.mem_cons_of_mem _ hs')) (by omega))

/-- **A vector of strings is read back.** -/
theorem decodeStringSlice_flatMap {v : List Bytes} (hv : (v.flatMap writeData).length < 2 ^ 32) :
    decodeStringSlice (v.flatMap writeData) = v := by
  refine decodeItems_flatMap (fun s hs => ?_) le_rfl
  have hle : (writeData s).length ≤ (v.flatMap writeData).length :=
    (List.sublist_flatten_of_mem (List.mem_map_of_mem hs)).length_le
  have : s.length ≤ (writeData s).length := by simp [writeData]
  omega

/-- The getter of the type of `v` returns `v`. -/
def Value.ReadAs (w : View) (key : Bytes) : Value → Prop
  | .bool v => w.getBool key = some v
  | .int32 v => w.getInt32 key = some v
  | .int64 v => w.getInt64 key = some v
  | .uint32 v => w.getUInt32 key = some v
  | .uint64 v => w.getUInt64 key = some v
  | .float32 bits => w.getFloat32 key = some bits
  | .float64 bits => w.getFloat64 key = some bits
  | .string v => w.getString key = some v
  | .bytes v => w.getBytes key = some v
  | .stringSlice v => w.getStringSlice key = some v

lemma View.typed_of_value {α : Type} {w : View} {key v rest : Bytes} {x : α}
    {read : Bytes → Except Err (α × Bytes)} (hv : w.value key = some v) (hx : read v = .ok (x, rest)) :
    w.typed key read = some x := by
  simp only [typed, hv, hx]

lemma length_le_bytesBlob (b : Bytes) : b.length ≤ (bytesBlob b).length := by
  simp [bytesBlob, writeData]

lemma View.getBytes_of_bytesBlob {w : View} {key b : Bytes} (hb : (bytesBlob b).length < 2 ^ 32)
    (hv : w.value key = some (bytesBlob b)) : w.getBytes key = some b := by
  have hlen := length_le_bytesBlob b
  have h := readBytes_writeData (show b.length < 2 ^ 32 by omega) []
  rw [List.append_nil] at h
  exact typed_of_value hv h

/-- **The getter of a value's type returns the value** from its blob. -/
theorem Value.readAs_of_value {w : View} {key : Bytes} {v : Value} (hlen : v.blob.length < 2 ^ 32)
    (hv : w.value key = some v.blob) : v.ReadAs w key := by
  -- every reader is stated for a buffer that goes on; here it ends with the blob
  rw [← List.append_nil v.blob] at hv
  cases v with
  | bool v => exact View.typed_of_value hv (readBool_writeBool v [])
  | int32 v => exact View.typed_of_value hv (readInt32_writeInt32 v [])
  | int64 v =>
    have h : w.typed key readVarint64 = some v.toUInt64 :=
      View.typed_of_value hv (readVarint64_varint64 v.toUInt64 [])
    simp [Value.ReadAs, View.getInt64, h]
  | uint32 v => exact View.typed_of_value hv (readUInt32_writeRawVarint32 v [])
  | uint64 v => exact View.typed_of_value hv (readVarint64_varint64 v [])
  | float32 bits => exact View.typed_of_value hv (readFixed32_writeRawLittleEndian32 bits [])
  | float64 bits => exact View.typed_of_value hv (readFixed64_writeRawLittleEndian64 bits [])
  | string v =>
    rw [List.append_nil] at hv
    exact View.getBytes_of_bytesBlob hlen hv
  | bytes v =>
    rw [List.append_nil] at hv
    exact View.getBytes_of_bytesBlob hlen hv
  | stringSlice v =>
    rw [List.append_nil] at hv
    have hlen' : (bytesBlob (v.flatMap writeData)).length < 2 ^ 32 := hlen
    have h : w.getBytes key = some (v.flatMap writeData) := View.getBytes_of_bytesBlob hlen' hv
    have hle := length_le_bytesBlob (v.flatMap writeData)
    rw [Value.ReadAs, View.getStringSlice, h, Option.map_some, decodeStringSlice_flatMap (by omega)]

lemma writeRawVarint32_ne_nil (v : UInt32) : writeRawVarint32 v ≠ [] :=
  List.length_pos_iff.1 (Leb128.length_encode_pos 4 v.toNat)

lemma writeRawVarint64_ne_nil (v : UInt64) : writeRawVarint64 v ≠ [] :=
  List.length_pos_iff.1 (Leb128.length_encode_pos 9 v.toNat)

lemma bytesBlob_ne_nil (b : Bytes) : bytesBlob b ≠ [] := by
  simp [bytesBlob, writeData, writeRawVarint32_ne_nil]

/-- No typed value has an empty blob: an empty blob would be a deletion. -/
theorem Value.blob_ne_nil (v : Value) : v.blob ≠ [] := by
  cases v with
  | bool v => cases v <;> simp [blob, boolBlob, writeBool]
  | int32 v =>
    simp only [blob, int32Blob, writeInt32]
    split
    · exact writeRawVarint32_ne_nil _
    · exact writeRawVarint64_ne_nil _
  | int64 v => exact writeRawVarint64_ne_nil _
  | uint32 v => exact writeRawVarint32_ne_nil _
  | uint64 v => exact writeRawVarint64_ne_nil _
  | float32 bits => exact List.length_pos_iff.1 (by simp [blob, float32Blob])
  | float64 bits => exact List.length_pos_iff.1 (by simp [blob, float64Blob])
  | string v => exact bytesBlob_ne_nil _
  | bytes v => exact bytesBlob_ne_nil _
  | stringSlice v => exact bytesBlob_ne_nil _

end MmkvGo.Wire
