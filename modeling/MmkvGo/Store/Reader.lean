import MmkvGo.Store.Image

/-!
The read-only reader (`reader.go`).  It publishes a snapshot of the files together with the three words of the meta it
was built from, and builds a new one when a read finds other words in the mapped ".crc" file.  Unlike an instance it
has no fallback: a region whose CRC is wrong is an error.
-/

namespace MmkvGo.Store

open MmkvGo.Lib MmkvGo.Wire MmkvGo.Crypt

/-- `snapshot`, without the buffer that its values are views of. -/
structure Snapshot where
  info : MetaInfo
  m : Dict
  expire : Bool

/-- `Reader`: its key, the published snapshot with the canary it was loaded at, and the last error of a reload. -/
structure Reader where
  dec : Option Cipher
  snap : Snapshot
  loadedCRC : UInt32
  loadedActual : UInt32
  loadedSeq : UInt32
  lastErr : Option Err

/-- `buildSnapshot`. -/
def buildSnapshot (dec : Option Cipher) (d : Disk) : Except Err Snapshot :=
  match parseMeta d.crc with
  | .error e => .error e
  | .ok mi =>
    if maxSupportedVersion < mi.version then .error (.unsupportedVersion mi.version)
    else
      let actual :=
        if versionActualSize ≤ mi.version then mi.actualSize
        else if 4 ≤ d.data.length then getUint32 d.data 0
        else 0
      -- a reader has no last-confirmed snapshot to fall back to
      if d.data.length < actual.toNat + 4 then .error (.sizeMismatch actual d.data.length)
      else
        let region := slice d.data 4 (4 + actual).toNat
        if Crc32.checksum region ≠ mi.crcDigest then .error .crcMismatch
        else
          let plain : Except Err Bytes :=
            match dec with
            | none => .ok region
            | some E => decrypt E region mi.iv.toList
          match plain with
          | .error e => .error e
          | .ok plain =>
            match parseDict plain with
            | .error e => .error e
            | .ok m => .ok ⟨mi, m, decide (versionFlag ≤ mi.version) && mi.expireEnabled⟩

namespace Reader

variable (r : Reader) (d : Disk)

/-- `reloadFrom` and `reloadLocked`: the snapshot is published with its canary. -/
def reload : Except Err Reader :=
  match buildSnapshot r.dec d with
  | .error e => .error e
  | .ok snap =>
    .ok { r with
      snap := snap
      loadedCRC := snap.info.crcDigest
      loadedActual := snap.info.actualSize
      loadedSeq := snap.info.sequence }

/-- `Open`: the ".crc" file must hold a meta, and the first load must succeed. -/
def openReader (dec : Option Cipher) : Except Err Reader :=
  if d.crc.length < metaSize then .error .crcTooSmall
  else reload ⟨dec, ⟨blankMeta, ∅, false⟩, 0, 0, 0, none⟩ d

/-- `tupleFresh(metaTuple())`. -/
def tupleFresh : Bool :=
  getUint32 d.crc offCRC == r.loadedCRC && getUint32 d.crc offActualSize == r.loadedActual &&
    getUint32 d.crc offSequence == r.loadedSeq

/-- `ensureFresh`: a reload that fails leaves the last good snapshot. -/
def ensureFresh : Reader :=
  if r.tupleFresh d then r
  else
    match r.reload d with
    | .error e => { r with lastErr := some e }
    | .ok r => r

/-- A getter of the reader: the snapshot is refreshed first. -/
def get {α : Type} (now : UInt32) (getter : View → α) : Reader × α :=
  let r := r.ensureFresh d
  (r, getter ⟨r.snap.m, r.snap.expire, now⟩)

end Reader

section Open

variable {dec : Option Cipher} {d : Disk} {mi : MetaInfo} {dict : Dict}

lemma buildSnapshot_of_openReader {r : Reader} (h : Reader.openReader d dec = .ok r) :
    buildSnapshot dec d = .ok r.snap := by
  rw [Reader.openReader] at h
  split at h
  · cases h
  rw [Reader.reload] at h
  split at h
  · cases h
  next snap hsnap =>
  cases h
  exact hsnap

lemma buildSnapshot_eq (dec : Option Cipher) (hparse : parseMeta d.crc = .ok mi)
    (hver : mi.version ≤ maxSupportedVersion) (hfits : (d.actualSize mi).toNat + 4 ≤ d.data.length) :
    buildSnapshot dec d =
      if Crc32.checksum (slice d.data 4 (4 + d.actualSize mi).toNat) ≠ mi.crcDigest then .error .crcMismatch
      else (parseDict (plainOf dec mi.iv (slice d.data 4 (4 + d.actualSize mi).toNat))).map fun dict =>
        ⟨mi, dict, expiresOf mi⟩ := by
  have hactual : (if versionActualSize ≤ mi.version then mi.actualSize
      else if 4 ≤ d.data.length then getUint32 d.data 0 else 0) = d.actualSize mi := rfl
  rw [buildSnapshot, hparse]
  simp only [if_neg (UInt32.not_lt.2 hver), hactual, if_neg (Nat.not_lt.2 hfits)]
  generalize slice d.data 4 (4 + d.actualSize mi).toNat = region
  split
  · rfl
  · cases dec with
    | none =>
      simp only [plainOf]
      cases parseDict region <;> rfl
    | some E =>
      simp only [plainOf, decrypt_block]
      cases parseDict (decryptLoop E (Cfb.start mi.iv.toList) region) <;> rfl

/-- **A snapshot of files of whichever supported version whose region is intact and parses.** -/
theorem buildSnapshot_of_intact (h : Intact d mi)
    (hdec : parseDict (plainOf dec mi.iv (d.region (d.actualSize mi))) = .ok dict) :
    buildSnapshot dec d = .ok ⟨mi, dict, expiresOf mi⟩ := by
  have hfits := h.fits
  rw [buildSnapshot_eq dec h.parse h.supported (by omega), toNat_four_add h.bounded, ← Disk.region, h.crc, hdec]
  simp [Except.map]

/-- The reader that `Open` returns on files that hold `dict` under `mi`. -/
def Reader.opened (dec : Option Cipher) (mi : MetaInfo) (dict : Dict) : Reader :=
  ⟨dec, ⟨mi, dict, mi.expireEnabled⟩, mi.crcDigest, mi.actualSize, mi.sequence, none⟩

/-- **Opening a reader on files of whichever supported version**, and what its getters answer as long as the meta stays
as it is. -/
theorem openReader_of_intact (h : Intact d mi)
    (hdec : parseDict (plainOf dec mi.iv (d.region (d.actualSize mi))) = .ok dict) :
    ∃ r, Reader.openReader d dec = .ok r ∧ r.dec = dec ∧ r.snap = ⟨mi, dict, expiresOf mi⟩ ∧
      r.loadedCRC = mi.crcDigest ∧ r.loadedActual = mi.actualSize ∧ r.loadedSeq = mi.sequence ∧ r.lastErr = none ∧
      ∀ d', parseMeta d'.crc = .ok mi → ∀ (α : Type) (now : UInt32) (getter : View → α),
        (r.get d' now getter).2 = getter ⟨dict, expiresOf mi, now⟩ := by
  have hlen := le_length_of_parseMeta h.parse
  refine ⟨⟨dec, ⟨mi, dict, expiresOf mi⟩, mi.crcDigest, mi.actualSize, mi.sequence, none⟩, ?_, rfl, rfl, rfl, rfl, rfl,
    rfl, fun d' hparse α now getter => ?_⟩
  · rw [Reader.openReader, if_neg (by omega), Reader.reload]
    simp only [buildSnapshot_of_intact h hdec]
  · rw [parseMeta_ok (le_length_of_parseMeta hparse)] at hparse
    have hinfo := Except.ok.inj hparse
    have hfresh : (⟨dec, ⟨mi, dict, expiresOf mi⟩, mi.crcDigest, mi.actualSize, mi.sequence, none⟩ : Reader).tupleFresh d' =
        true := by
      simp only [Reader.tupleFresh, ← hinfo, beq_self_eq_true, Bool.and_self]
    simp only [Reader.get, Reader.ensureFresh, hfresh, if_true]

/-- **Opening a reader**, and what its getters answer as long as the files stay as they are. -/
theorem openReader_of_readable (h : Readable d mi)
    (hdec : parseDict (plainOf dec mi.iv (d.region mi.actualSize)) = .ok dict) :
    Reader.openReader d dec = .ok (Reader.opened dec mi dict) ∧
      ∀ (α : Type) (now : UInt32) (getter : View → α),
        ((Reader.opened dec mi dict).get d now getter).2 = getter ⟨dict, mi.expireEnabled, now⟩ := by
  have hsize := h.current.actualSize_eq
  obtain ⟨r, hopen, hr₁, hr₂, hr₃, hr₄, hr₅, hr₆, hget⟩ := openReader_of_intact h.intact (by rw [hsize]; exact hdec)
  have hr : r = Reader.opened dec mi dict := by
    cases r
    simp_all [Reader.opened, expiresOf, h.current.expire_eq]
  rw [expiresOf, h.current.expire_eq] at hget
  exact ⟨hr ▸ hopen, fun α now getter => hr ▸ hget d h.parse α now getter⟩

end Open

end MmkvGo.Store
