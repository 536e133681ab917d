import MmkvGo.Lib.Leb128
import MmkvGo.Lib.LittleEndian

/-!
The wire format (`wire.go`, `encode.go`): varints, fixed-width little-endian words and length-delimited
fields.  A `codedInput` is the part of its buffer that is still to be read; a read returns what it read
and the rest.  A `codedOutput` is the bytes it appends.
-/

namespace MmkvGo.Wire

open MmkvGo.Lib

/-- A byte string: keys, values, regions and whole files. -/
abbrev Bytes := List UInt8

instance : LawfulBEq Bytes := inferInstance

/-- A system call, as far as its failure is told apart. -/
inductive Syscall where
  | stat | truncate | munmap | mmap | msync | rand
  deriving DecidableEq, Repr

/-- The errors the package returns. -/
inductive Err where
  | unexpectedEOF
  | varintOverflow
  | metaTooShort (len : ℕ)
  | unsupportedVersion (version : UInt32)
  | crcMismatch
  | sizeMismatch (actual : UInt32) (fileSize : ℕ)
  | shortIV
  | crcTooSmall
  | emptyFile
  | closed
  | readOnly
  | os (call : Syscall)
  deriving DecidableEq, Repr

/-! ### Reading -/

/-- `codedInput.readVarint64`: at most ten bytes. -/
def readVarint64 (buf : Bytes) : Except Err (UInt64 × Bytes) :=
  Leb128.decode .unexpectedEOF .varintOverflow 10 0 0 buf

/-- `codedInput.readBytes`: a varint length, then that many bytes. -/
def readBytes (buf : Bytes) : Except Err (Bytes × Bytes) :=
  match readVarint64 buf with
  | .error e => .error e
  | .ok (n, rest) =>
    if rest.length < n.toNat then .error .unexpectedEOF
    else .ok (rest.take n.toNat, rest.drop n.toNat)

/-- `binary.LittleEndian.Uint32` of the first four bytes. -/
def uint32 (buf : Bytes) : UInt32 := UInt32.ofNat (LittleEndian.value (buf.take 4))

/-- `binary.LittleEndian.Uint64` of the first eight bytes. -/
def uint64 (buf : Bytes) : UInt64 := UInt64.ofNat (LittleEndian.value (buf.take 8))

/-- `codedInput.readFixed32`. -/
def readFixed32 (buf : Bytes) : Except Err (UInt32 × Bytes) :=
  if buf.length < 4 then .error .unexpectedEOF else .ok (uint32 buf, buf.drop 4)

/-- `codedInput.readFixed64`. -/
def readFixed64 (buf : Bytes) : Except Err (UInt64 × Bytes) :=
  if buf.length < 8 then .error .unexpectedEOF else .ok (uint64 buf, buf.drop 8)

/-- `codedInput.readInt32`: the low 32 bits of a varint, signed. -/
def readInt32 (buf : Bytes) : Except Err (Int32 × Bytes) :=
  (readVarint64 buf).map fun (v, rest) => (v.toUInt32.toInt32, rest)

/-- `codedInput.readUInt32`: the low 32 bits of a varint. -/
def readUInt32 (buf : Bytes) : Except Err (UInt32 × Bytes) :=
  (readVarint64 buf).map fun (v, rest) => (v.toUInt32, rest)

/-- `codedInput.readBool`. -/
def readBool (buf : Bytes) : Except Err (Bool × Bytes) :=
  (readVarint64 buf).map fun (v, rest) => (v != 0, rest)

/-! ### Writing -/

/-- `codedOutput.writeRawVarint32`: one to five bytes. -/
def writeRawVarint32 (v : UInt32) : Bytes := Leb128.encode 5 v.toNat

/-- `codedOutput.writeRawVarint64`: one to ten bytes. -/
def writeRawVarint64 (v : UInt64) : Bytes := Leb128.encode 10 v.toNat

/-- `codedOutput.writeRawLittleEndian32`. -/
def writeRawLittleEndian32 (v : UInt32) : Bytes := LittleEndian.bytes 4 v.toNat

/-- `codedOutput.writeRawLittleEndian64`. -/
def writeRawLittleEndian64 (v : UInt64) : Bytes := LittleEndian.bytes 8 v.toNat

/-- `codedOutput.writeData`: the length as a `uint32`, then the bytes. -/
def writeData (b : Bytes) : Bytes := writeRawVarint32 (UInt32.ofNat b.length) ++ b

/-- `codedOutput.writeBool`. -/
def writeBool (v : Bool) : Bytes := if v then [1] else [0]

/-- `codedOutput.writeInt32`: a negative value is sign-extended and takes ten bytes. -/
def writeInt32 (v : Int32) : Bytes :=
  if 0 ≤ v then writeRawVarint32 v.toUInt32 else writeRawVarint64 v.toInt64.toUInt64

/-! ### Reading back what was written -/

lemma toNat_ofNat32 {n : ℕ} (h : n < 2 ^ 32) : (UInt32.ofNat n).toNat = n :=
  UInt32.toNat_ofNat_of_lt' h

theorem readVarint64_varint32 (v : UInt32) (rest : Bytes) :
    readVarint64 (writeRawVarint32 v ++ rest) = .ok (v.toUInt64, rest) := by
  have hv := v.toNat_lt
  rw [readVarint64, writeRawVarint32,
    Leb128.decode_encode rest (by norm_num) (by norm_num) (by norm_num; omega) (by omega),
    UInt64.ofNat_uInt32ToNat]

theorem readVarint64_varint64 (v : UInt64) (rest : Bytes) :
    readVarint64 (writeRawVarint64 v ++ rest) = .ok (v, rest) := by
  have hv := v.toNat_lt
  rw [readVarint64, writeRawVarint64,
    Leb128.decode_encode rest (by norm_num) (by norm_num) (by norm_num; omega) hv, UInt64.ofNat_toNat]

/-- **A length-delimited field is read back.** -/
theorem readBytes_writeData {b : Bytes} (h : b.length < 2 ^ 32) (rest : Bytes) :
    readBytes (writeData b ++ rest) = .ok (b, rest) := by
  have hn : (UInt32.ofNat b.length).toUInt64.toNat = b.length := by
    rw [UInt32.toNat_toUInt64, toNat_ofNat32 h]
  rw [readBytes, writeData, List.append_assoc, readVarint64_varint32]
  simp [hn]

theorem uint32_writeRawLittleEndian32 (v : UInt32) (rest : Bytes) :
    uint32 (writeRawLittleEndian32 v ++ rest) = v := by
  have hv := v.toNat_lt
  rw [uint32, writeRawLittleEndian32, List.take_append_of_le_length (by simp),
    List.take_of_length_le (by simp), LittleEndian.value_bytes_of_lt (by norm_num; omega),
    UInt32.ofNat_toNat]

theorem uint64_writeRawLittleEndian64 (v : UInt64) (rest : Bytes) :
    uint64 (writeRawLittleEndian64 v ++ rest) = v := by
  have hv := v.toNat_lt
  rw [uint64, writeRawLittleEndian64, List.take_append_of_le_length (by simp),
    List.take_of_length_le (by simp), LittleEndian.value_bytes_of_lt (by norm_num; omega),
    UInt64.ofNat_toNat]

@[simp] lemma length_writeRawLittleEndian32 (v : UInt32) : (writeRawLittleEndian32 v).length = 4 := by
  simp [writeRawLittleEndian32]

@[simp] lemma length_writeRawLittleEndian64 (v : UInt64) : (writeRawLittleEndian64 v).length = 8 := by
  simp [writeRawLittleEndian64]

theorem readFixed32_writeRawLittleEndian32 (v : UInt32) (rest : Bytes) :
    readFixed32 (writeRawLittleEndian32 v ++ rest) = .ok (v, rest) := by
  rw [readFixed32, if_neg (by simp), uint32_writeRawLittleEndian32, List.drop_left' (by simp)]

theorem readFixed64_writeRawLittleEndian64 (v : UInt64) (rest : Bytes) :
    readFixed64 (writeRawLittleEndian64 v ++ rest) = .ok (v, rest) := by
  rw [readFixed64, if_neg (by simp), uint64_writeRawLittleEndian64, List.drop_left' (by simp)]

theorem readUInt32_writeRawVarint32 (v : UInt32) (rest : Bytes) :
    readUInt32 (writeRawVarint32 v ++ rest) = .ok (v, rest) := by
  rw [readUInt32, readVarint64_varint32]
  simp [Except.map]

lemma toInt32_toUInt32_toInt64 (v : Int32) : v.toInt64.toUInt64.toUInt32.toInt32 = v := by
  apply Int32.toBitVec_inj.1
  have h : v.toInt64.toUInt64.toUInt32.toInt32.toBitVec = (v.toBitVec.signExtend 64).setWidth 32 := by simp
  rw [h]
  apply BitVec.eq_of_getLsbD_eq
  intro i hi
  have hi' : i < 64 := by omega
  simp only [BitVec.getLsbD_setWidth, BitVec.getLsbD_signExtend, hi, hi', decide_true, Bool.true_and, if_true]

/-- **An `int32` is read back**, also a negative one through its ten bytes. -/
theorem readInt32_writeInt32 (v : Int32) (rest : Bytes) :
    readInt32 (writeInt32 v ++ rest) = .ok (v, rest) := by
  unfold readInt32 writeInt32
  split
  · rw [readVarint64_varint32]
    simp [Except.map]
  · rw [readVarint64_varint64]
    simp [Except.map, toInt32_toUInt32_toInt64]

theorem readBool_writeBool (v : Bool) (rest : Bytes) :
    readBool (writeBool v ++ rest) = .ok (v, rest) := by
  cases v <;> rfl

/-! ### What a read depends on -/

theorem readBytes_ok {buf b rest : Bytes} (h : readBytes buf = .ok (b, rest)) :
    ∃ n mid, readVarint64 buf = .ok (n, mid) ∧ n.toNat ≤ mid.length ∧ b = mid.take n.toNat ∧
      rest = mid.drop n.toNat := by
  unfold readBytes at h
  split at h
  · cases h
  · next n mid hv =>
    split at h
    · cases h
    · next hle =>
      simp only [Except.ok.injEq, Prod.mk.injEq] at h
      exact ⟨n, mid, hv, by omega, h.1.symm, h.2.symm⟩

/-- **A successful read does not look past the field.** -/
theorem readBytes_append {buf b rest : Bytes} (h : readBytes buf = .ok (b, rest)) (t : Bytes) :
    readBytes (buf ++ t) = .ok (b, rest ++ t) := by
  obtain ⟨n, mid, hv, hle, rfl, rfl⟩ := readBytes_ok h
  have hv' : readVarint64 (buf ++ t) = .ok (n, mid ++ t) := Leb128.decode_append hv t
  rw [readBytes, hv']
  simp only [List.length_append]
  rw [if_neg (by omega), List.take_append_of_le_length hle, List.drop_append_of_le_length hle]

theorem readBytes_split {buf b rest : Bytes} (h : readBytes buf = .ok (b, rest)) :
    ∃ pre, buf = pre ++ rest ∧ readBytes pre = .ok (b, []) := by
  obtain ⟨n, mid, hv, hle, rfl, rfl⟩ := readBytes_ok h
  obtain ⟨pre, rfl, hpre⟩ := Leb128.decode_split hv
  have hlen : (mid.take n.toNat).length = n.toNat := by
    rw [List.length_take]
    omega
  have hpre' : readVarint64 (pre ++ mid.take n.toNat) = .ok (n, mid.take n.toNat) := Leb128.decode_append hpre _
  refine ⟨pre ++ mid.take n.toNat, by rw [List.append_assoc, List.take_append_drop], ?_⟩
  rw [readBytes, hpre']
  simp only [hlen, Nat.lt_irrefl, if_false]
  rw [List.take_of_length_le (by omega), List.drop_of_length_le (by omega)]

theorem readBytes_length_add_lt {buf b rest : Bytes} (h : readBytes buf = .ok (b, rest)) :
    b.length + rest.length < buf.length := by
  obtain ⟨n, mid, hv, -, rfl, rfl⟩ := readBytes_ok h
  have := Leb128.decode_length_lt hv
  rw [← List.length_append, List.take_append_drop]
  exact this

theorem readBytes_length_lt {buf b rest : Bytes} (h : readBytes buf = .ok (b, rest)) : rest.length < buf.length := by
  have := readBytes_length_add_lt h
  omega

/-- **A field that was read takes no less than the field that would be written.** -/
theorem length_writeData_add_le {buf b rest : Bytes} (h : readBytes buf = .ok (b, rest)) :
    (writeData b).length + rest.length ≤ buf.length := by
  obtain ⟨n, mid, hv, hle, rfl, rfl⟩ := readBytes_ok h
  have hlen : (mid.take n.toNat).length = n.toNat := by
    rw [List.length_take]
    omega
  have hmod : (UInt32.ofNat n.toNat).toNat ≤ n.toNat := by
    rw [UInt32.toNat_ofNat']
    exact Nat.mod_le _ _
  have := Leb128.length_encode_add_le (w := 5) hv hmod
  rw [writeData, List.length_append, hlen, writeRawVarint32, List.length_drop]
  omega

end MmkvGo.Wire
