import MmkvGo.Store.Encrypted
import MmkvGo.Store.Reader

/-!
A reader with the wrong key.  The CRC in the meta is that of the bytes on disk, which are ciphertext when the store has a
key, and a reader compares it before it decrypts.  So the comparison says whether the files are damaged and nothing
about the key: `openReader_crcMismatch_iff`.  With another key, or none, a reader parses whatever its key makes of the
ciphertext.
-/

namespace MmkvGo.Store

open MmkvGo.Lib MmkvGo.Wire MmkvGo.Crypt Std

/-- The bytes that the meta names do not have the CRC that it names. -/
def Damaged (d : Disk) : Prop :=
  ∃ mi, parseMeta d.crc = .ok mi ∧ mi.version ≤ maxSupportedVersion ∧ (d.actualSize mi).toNat + 4 ≤ d.data.length ∧
    Crc32.checksum (slice d.data 4 (4 + d.actualSize mi).toNat) ≠ mi.crcDigest

section Reader

variable {d : Disk} {mi : MetaInfo}

lemma Intact.not_damaged (h : Intact d mi) : ¬ Damaged d := by
  rintro ⟨mi', hparse, -, -, hcrc⟩
  cases h.parse.symm.trans hparse
  rw [toNat_four_add h.bounded] at hcrc
  exact hcrc h.crc

lemma parse_ne_crcMismatch {α : Type} (plain : Bytes) (f : Dict → α) : (parseDict plain).map f ≠ .error .crcMismatch := by
  cases hparse : parseDict plain with
  | ok dict => simp [Except.map]
  | error e =>
    intro h
    obtain rfl : e = .crcMismatch := Except.error.inj h
    rcases parseDict_error hparse with he | he <;> cases he

/-- **A snapshot fails with a CRC mismatch exactly if the files are damaged**, whatever the key. -/
theorem buildSnapshot_crcMismatch_iff (dec : Option Cipher) :
    buildSnapshot dec d = .error .crcMismatch ↔ Damaged d := by
  constructor
  · intro h
    cases hparse : parseMeta d.crc with
    | error e =>
      simp only [buildSnapshot, hparse, Except.error.injEq] at h
      rw [h, parseMeta] at hparse
      split at hparse <;> cases hparse
    | ok mi =>
      by_cases hver : mi.version ≤ maxSupportedVersion
      · by_cases hfits : (d.actualSize mi).toNat + 4 ≤ d.data.length
        · rw [buildSnapshot_eq dec hparse hver hfits] at h
          by_cases hcrc : Crc32.checksum (slice d.data 4 (4 + d.actualSize mi).toNat) ≠ mi.crcDigest
          · exact ⟨mi, hparse, hver, hfits, hcrc⟩
          · rw [if_neg hcrc] at h
            exact absurd h (parse_ne_crcMismatch _ _)
        · simp only [Disk.actualSize] at hfits
          simp [buildSnapshot, hparse, UInt32.not_lt.2 hver, Nat.not_le.1 hfits] at h
      · simp [buildSnapshot, hparse, UInt32.not_le.1 hver] at h
  · rintro ⟨mi, hparse, hver, hfits, hcrc⟩
    rw [buildSnapshot_eq dec hparse hver hfits, if_pos hcrc]

/-- **`Open` returns `ErrCRCMismatch` exactly if the files are damaged**, whatever the key. -/
theorem openReader_crcMismatch_iff (dec : Option Cipher) :
    Reader.openReader d dec = .error .crcMismatch ↔ Damaged d := by
  rw [← buildSnapshot_crcMismatch_iff dec, Reader.openReader]
  split
  · next hshort =>
    have hmeta : buildSnapshot dec d = .error (.metaTooShort d.crc.length) := by
      rw [buildSnapshot, parseMeta, if_pos hshort]
    simp [hmeta]
  · rw [Reader.reload]
    cases buildSnapshot dec d <;> simp

/-- **What `Open` returns on intact files**, with whatever key: the map that its key makes of the region, or the error of
parsing that. -/
theorem openReader_eq (h : Readable d mi) (dec : Option Cipher) :
    Reader.openReader d dec = (parseDict (plainOf dec mi.iv (d.region mi.actualSize))).map (Reader.opened dec mi) := by
  have hlen := h.metaSize_le
  have hsize := h.current.actualSize_eq
  have hfits := h.fits
  have hsnap := buildSnapshot_eq dec h.parse h.current.version_le (by rw [hsize]; omega)
  rw [hsize, toNat_four_add h.bounded, ← Disk.region, h.crc, expiresOf, h.current.expire_eq] at hsnap
  rw [Reader.openReader, if_neg (by omega), Reader.reload]
  simp only [hsnap, ne_eq, not_true_eq_false, if_false]
  cases parseDict (plainOf dec mi.iv (d.region mi.actualSize)) <;> rfl

end Reader

/-- **Wrong keys are not detected.**  `Open` returns `ErrCRCMismatch` for files that are damaged and no others, whatever the
key.  Files that a run of an instance with a key has left are not damaged, so without its key `Open` returns what
parsing the wrong plaintext gives. -/
theorem wrong_key_not_detected (d : Disk) :
    (∀ dec : Option Cipher, Reader.openReader d dec = .error .crcMismatch ↔ Damaged d) ∧
    ∀ (P : Platform) (cfg : Config) (sys : Sys) (mi : MetaInfo) (dict : Dict) (acts : List Act),
      Stored (cfg.crypt P) d mi dict → cfg.readOnly = false →
      Along (Act.OK P) (World.step P) (World.start P cfg sys d) acts →
      let w := run (World.step P) (World.start P cfg sys d) acts
      let s := run (Model.step P) ⟨⟨OrdMap.lookup dict, mi.expireEnabled⟩, cfg.crypt P, 0⟩ acts
      ∀ E, s.crypt = some E → s.content.slots ≠ (fun _ => none) →
        ¬ Damaged w.disk ∧ ∃ (mi' : MetaInfo) (plain : Bytes) (stored : Dict), parseDict plain = .ok stored ∧
          OrdMap.lookup stored = s.content.slots ∧ ∀ dec, dec ≠ some E →
            Reader.openReader w.disk dec =
              (parseDict (plainOf dec mi'.iv (cipherOf (some E) mi'.iv plain))).map (Reader.opened dec mi') := by
  refine ⟨openReader_crcMismatch_iff, fun P cfg sys mi dict acts hstored hro hacts => ?_⟩
  obtain ⟨m, h⟩ := run_tracks hstored hro hacts
  intro w s E hkey _
  have hcrypt : m.crypt = some E := h.crypt.trans hkey
  have hregion : cipherOf (some E) m.info.iv (m.plainRegion w.disk) = w.disk.region m.info.actualSize := by
    rw [MMKV.plainRegion, hcrypt]
    exact cipherOf_plainOf ..
  refine ⟨h.synced.image.readable.intact.not_damaged, m.info, m.plainRegion w.disk, m.dict, h.synced.image.decoded,
    ?_, fun dec _ => ?_⟩
  · rw [← show m.content = s.content from h.content]
    rfl
  · rw [hregion]
    exact openReader_eq h.synced.image.readable dec

/-! ### A run whose files read as the empty map -/

/-- The system that draws the IV under which the cipher of `linux` makes zeros of the first region. -/
def zeroing : Sys :=
  { calm with iv := some #v[0x7f, 0x7f, 0x7f, 0xfe, 0xfe, 0x9e, 0xfe, 0xfe, 0, 0, 0, 0, 0, 0, 0, 0] }

lemma zeroing_ok : zeroing.OK := ⟨rfl, rfl, rfl, rfl, rfl, rfl, rfl⟩

/-- A set under that IV. -/
def setZeroed : List Act := [.call (.set [97] (.bool true)) zeroing]

lemma world_setZeroed :
    run (World.step linux) (World.start linux secret calm ⟨[], []⟩) setZeroed =
        ⟨secret.firstDisk linux zeroing [97] (.bool true), .ok (secret.afterFirst linux zeroing [97] (.bool true))⟩ ∧
      Synced (secret.firstDisk linux zeroing [97] (.bool true)) (secret.afterFirst linux zeroing [97] (.bool true)) := by
  obtain ⟨hset, hdisk, hsynced⟩ := first_set (P := linux) (show secret.readOnly = false from rfl) zeroing_ok [97]
    (.bool true) (by simp) (by decide)
  refine ⟨?_, hsynced⟩
  rw [start_absent rfl, setZeroed, run_cons, run_nil, World.step_call, hdisk, hset]

/-- **Read without its key, a store shows the empty map**: `Open` succeeds on the files of an instance that holds a value,
and finds none. -/
theorem read_without_key_shows_nothing :
    let w := run (World.step linux) (World.start linux secret calm ⟨[], []⟩) setZeroed
    secret.crypt linux ≠ none ∧
      (∃ m, w.inst = .ok m ∧ m.crypt = secret.crypt linux ∧ m.dict[([97] : Bytes)]? = some [1]) ∧
      ∃ r, Reader.openReader w.disk none = .ok r ∧ r.snap.m = ∅ := by
  obtain ⟨hw, hsynced⟩ := world_setZeroed
  have hregion := region_firstDisk (P := linux) secret zeroing [97] (.bool true) (by decide)
  have hzeros : parseDict (plainOf none (secret.firstInfo linux zeroing [97] (.bool true)).iv
      ((secret.first linux [97] (.bool true)).stored zeroing)) = .ok ∅ := by
    decide +kernel
  rw [← hregion] at hzeros
  rw [hw]
  refine ⟨by simp [Config.crypt, secret], ⟨_, rfl, rfl, ExtTreeMap.getElem?_insert_self⟩, _,
    (openReader_of_readable hsynced.image.readable hzeros).1, rfl⟩

/-- On those files `Open` does not say that the key is missing. -/
theorem wrong_key_not_detected_zeroed :
    let w := run (World.step linux) (World.start linux secret calm ⟨[], []⟩) setZeroed
    Reader.openReader w.disk none ≠ .error .crcMismatch := by
  have hacts : Along (Act.OK linux) (World.step linux) (World.start linux secret calm ⟨[], []⟩) setZeroed := by
    rw [start_absent rfl]
    refine ⟨⟨zeroing_ok, fun m hm => ?_⟩, trivial⟩
    cases hm
    exact ⟨List.cons_ne_nil _ _, by decide +kernel⟩
  intro w
  have hrun := ((wrong_key_not_detected ⟨[], []⟩).2 linux secret calm blankMeta ∅ setZeroed
    (.inr ⟨blank_absent, rfl, rfl⟩) rfl hacts _ rfl fun h => ?_).1
  · exact fun h => hrun (((wrong_key_not_detected w.disk).1 none).1 h)
  · have hkey := congrFun h [97]
    simp [setZeroed, Model.step, Content.after] at hkey

end MmkvGo.Store
