import MmkvGo.Store.EmptyKey

/-!
Salvage: a writable open with `WithRecoverOnError` of files neither of whose snapshots is valid.  The map is what
`parseDictGreedy` makes of the region, clamped to the file, and the open writes it back before anything else runs.  From
then on the store is `Steady`: with expiration on, the slots that were salvaged may lack their timestamps, which sets and
removals do not ask for.
-/

namespace MmkvGo.Store

open MmkvGo.Lib MmkvGo.Wire MmkvGo.Crypt Std

/-- A snapshot that loading accepts: it lies in the file and has its CRC. -/
def Disk.Validates (d : Disk) (size crc : UInt32) : Prop :=
  4 + size.toNat ≤ d.data.length ∧ Crc32.checksum (d.region size) = crc

/-- Files of at least a page and less than 4 GiB, neither of whose snapshots is valid. -/
structure Corrupt (P : Platform) (d : Disk) (mi : MetaInfo) : Prop where
  parse : parseMeta d.crc = .ok mi
  version : mi.version = versionFlag ∨ mi.version = versionActualSize ∧ mi.flags = 0
  page : P.pageSize ≤ d.data.length
  small : d.data.length < 2 ^ 32
  current : ¬ d.Validates mi.actualSize mi.crcDigest
  last : ¬ d.Validates mi.lastActualSize mi.lastCRCDigest

/-- The size of the region, clamped to the file. -/
def Disk.clamped (d : Disk) (mi : MetaInfo) : UInt32 :=
  if d.data.length < mi.actualSize.toNat + 4 then UInt32.ofNat (d.data.length - 4) else mi.actualSize

/-- What can be salvaged of the files. -/
def salvageDict (crypt : Option Cipher) (d : Disk) (mi : MetaInfo) : Dict :=
  parseDictGreedy (plainOf crypt mi.iv (d.region (d.clamped mi)))

/-- The instance that an open has salvaged, before it is written back. -/
def Config.salvaged (P : Platform) (cfg : Config) (d : Disk) (mi : MetaInfo) : MMKV :=
  { cfg.instance P ⟨d.data.length, true⟩ with
    info := mi
    enableExpire := expiresOf mi
    dict := salvageDict (cfg.crypt P) d mi
    actualSize := mi.actualSize
    crcDigest := mi.crcDigest
    needFullWriteback := true }

section Salvage

variable {P : Platform} {sys : Sys} {d : Disk} {mi : MetaInfo} {cfg : Config}

lemma Corrupt.supported (h : Corrupt P d mi) : mi.version ≤ maxSupportedVersion := by
  rcases h.version with hv | ⟨hv, -⟩ <;> rw [hv] <;> decide

lemma Corrupt.sized (h : Corrupt P d mi) : versionActualSize ≤ mi.version := by
  rcases h.version with hv | ⟨hv, -⟩ <;> rw [hv] <;> decide

lemma Corrupt.expiresOf_eq (h : Corrupt P d mi) : expiresOf mi = mi.expireEnabled := by
  rw [expiresOf]
  rcases h.version with hv | ⟨-, hf⟩
  · rw [hv]
    simp
  · rw [MetaInfo.expireEnabled, hf]
    simp

lemma Disk.clamped_le (h : Corrupt P d mi) : 4 + (d.clamped mi).toNat ≤ d.data.length := by
  have hp := P.four_le_pageSize
  have hpage := h.page
  have hsmall := h.small
  rw [Disk.clamped]
  split
  · rw [toNat_ofNat32 (by omega)]
    omega
  · omega

lemma length_regionOf_salvageDict (h : Corrupt P d mi) (crypt : Option Cipher) :
    (regionOf (salvageDict crypt d mi)).length ≤ d.data.length := by
  have hle := Disk.clamped_le h
  have hlen := length_regionOf_parseDictGreedy (plainOf crypt mi.iv (d.region (d.clamped mi)))
  have hregion : (d.region (d.clamped mi)).length = (d.clamped mi).toNat := by
    rw [Disk.region, length_slice hle]
    omega
  rw [length_plainOf, hregion] at hlen
  rw [salvageDict]
  omega

lemma MMKV.not_accepts {m : MMKV} {size crc : UInt32} (hdata : m.data = ⟨d.data.length, true⟩)
    (hsmall : d.data.length < 2 ^ 32) (h : ¬ d.Validates size crc) : m.accepts d size crc = false := by
  by_contra hacc
  rw [Bool.not_eq_false] at hacc
  have hn : 4 + size.toNat ≤ d.data.length := by
    by_contra hlt
    rw [not_accepts_of_lt hdata (by omega)] at hacc
    cases hacc
  exact h ((accepts_iff hdata (by omega)).1 hacc)

theorem Corrupt.loadData (h : Corrupt P d mi) (hrecover : cfg.recover = true) :
    (cfg.instance P ⟨d.data.length, true⟩).loadData d = (cfg.salvaged P d mi, none) := by
  have hle := Disk.clamped_le h
  have hsmall := h.small
  have hlimit : ¬ maxSupportedVersion < mi.version := UInt32.not_lt.2 h.supported
  generalize hm : ({ cfg.instance P ⟨d.data.length, true⟩ with info := mi, enableExpire := expiresOf mi } : MMKV) = m
  have hinfo : m.info = mi := by rw [← hm]
  have hdata : m.data = ⟨d.data.length, true⟩ := by rw [← hm]; rfl
  have hcrypt : m.crypt = cfg.crypt P := by rw [← hm]; rfl
  have hrec : m.recover = true := by rw [← hm]; exact hrecover
  have hactual : m.readActualSize d = mi.actualSize := by rw [MMKV.readActualSize, hinfo, if_pos h.sized]
  have hregion := MMKV.region_eq (d := d) hdata hle (by omega)
  have hclamped : (if m.data.len < mi.actualSize.toNat + 4 then
      if 4 ≤ m.data.len then UInt32.ofNat (m.data.len - 4) else 0
      else mi.actualSize) = d.clamped mi := by
    rw [hdata, MemoryFile.len_mapped, if_pos (show 4 ≤ d.data.length by omega), Disk.clamped]
  have hsalvage : m.salvage d = cfg.salvaged P d mi := by
    simp only [MMKV.salvage, hclamped, hregion, MMKV.plain_eq, hinfo, hcrypt]
    rw [Config.salvaged, salvageDict, ← hm]
    rfl
  rw [MMKV.loadData, h.parse]
  simp only [if_neg hlimit]
  rw [← expiresOf, hm, MMKV.loadRegion]
  simp only [hinfo, hactual, MMKV.not_accepts hdata hsmall h.current, MMKV.not_accepts hdata hsmall h.last, hrec,
    Bool.false_eq_true, if_false, if_true, hsalvage]

lemma Corrupt.data_openWrites (h : Corrupt P d mi) : (d.apply (openWrites P d)).data = d.data := by
  have hpage := h.page
  rw [apply_openWrites, pageRoundUp_zero, Nat.sub_eq_zero_of_le hpage, List.replicate_zero, List.append_nil]

lemma Corrupt.openWrites (h : Corrupt P d mi) : Corrupt P (d.apply (openWrites P d)) mi := by
  have hdata := h.data_openWrites
  have hmeta := congrArg Disk.crc (apply_openWrites P d)
  refine ⟨parseMeta_append h.parse hmeta, h.version, ?_, ?_, ?_, ?_⟩
  · rw [hdata]
    exact h.page
  · rw [hdata]
    exact h.small
  · rw [Disk.Validates, Disk.region, hdata]
    exact h.current
  · rw [Disk.Validates, Disk.region, hdata]
    exact h.last

lemma Config.salvaged_congr {d' : Disk} (hdata : d'.data = d.data) :
    cfg.salvaged P d' mi = cfg.salvaged P d mi := by
  rw [Config.salvaged, Config.salvaged, salvageDict, salvageDict, Disk.clamped, Disk.clamped, Disk.region, Disk.region,
    hdata]

/-- **An open of corrupt files that returns nil** wrote what it salvaged back. -/
theorem Corrupt.start {m : MMKV} (h : Corrupt P d mi) (hro : cfg.readOnly = false) (hrecover : cfg.recover = true)
    (hopen : (World.start P cfg sys d).inst = .ok m) :
    let d₁ := d.apply (Store.openWrites P d)
    let r := (cfg.salvaged P d mi).fullWriteback P sys.mended d₁
    (World.start P cfg sys d).disk = d₁.apply r.writes ∧ m = r.m := by
  have hload := h.openWrites.loadData hrecover
  rw [Config.salvaged_congr h.data_openWrites] at hload
  have hneed : (cfg.salvaged P d mi).needFullWriteback = true := rfl
  have hwritable : (cfg.salvaged P d mi).readOnly = false := hro
  intro d₁ r
  have hres : openMMKV P sys cfg d = (Store.openWrites P d ++ ((cfg.salvaged P d mi).fullWriteback P sys d₁).writes,
      ((cfg.salvaged P d mi).fullWriteback P sys d₁).err.elim (.ok ((cfg.salvaged P d mi).fullWriteback P sys d₁).m)
        .error) := by
    simp only [openMMKV, hro, Bool.false_eq_true, if_false, MMKV.load, hload, hneed, hwritable, Bool.not_false,
      Bool.and_self, if_true]
    cases ((cfg.salvaged P d mi).fullWriteback P sys d₁).err <;> rfl
  simp only [World.start, hres] at hopen ⊢
  cases herr : ((cfg.salvaged P d mi).fullWriteback P sys d₁).err with
  | some e =>
    rw [herr] at hopen
    cases hopen
  | none =>
    rw [herr] at hopen
    have hmended : (cfg.salvaged P d mi).fullWriteback P sys d₁ = r := MMKV.fullWritebackGrow_mended herr
    rw [hmended] at hopen ⊢
    exact ⟨Disk.apply_append .., (Except.ok.inj hopen).symm⟩

lemma Corrupt.data_salvaged (h : Corrupt P d mi) (cfg : Config) :
    (cfg.salvaged P d mi).data = ⟨(d.apply (Store.openWrites P d)).data.length, true⟩ := by
  rw [h.data_openWrites]
  rfl

lemma Corrupt.parse_salvaged (h : Corrupt P d mi) (cfg : Config) :
    parseDict (regionOf (cfg.salvaged P d mi).dict) = .ok (cfg.salvaged P d mi).dict :=
  parseDict_regionOf (parseDictGreedy_wf _) (Nat.lt_of_le_of_lt (length_regionOf_salvageDict h _) h.small)

theorem Corrupt.repaired {m : MMKV} (h : Corrupt P d mi) (hro : cfg.readOnly = false) (hrecover : cfg.recover = true)
    (hopen : (World.start P cfg sys d).inst = .ok m) :
    m = (cfg.salvaged P d mi).written (World.start P cfg sys d).disk.data.length m.info
        (salvageDict (cfg.crypt P) d mi) ∧
      m.info.version = versionFlag ∧ m.info.sequence = mi.sequence + 1 ∧ m.info.flags = mi.flags ∧
      parseMeta (World.start P cfg sys d).disk.crc = .ok m.info ∧
      (regionOf (salvageDict (cfg.crypt P) d mi)).length + 4 ≤ (World.start P cfg sys d).disk.data.length := by
  obtain ⟨hdisk, rfl⟩ := h.start hro hrecover hopen
  have hcrc := le_length_of_parseMeta h.openWrites.parse
  have hdata := h.data_salvaged cfg
  have hroom : 4 + (regionOf (cfg.salvaged P d mi).dict).length + 0 <
      (cfg.salvaged P d mi).grownSize P (4 + (regionOf (cfg.salvaged P d mi).dict).length + 0) true 0 :=
    MMKV.lt_grownSize ..
  have heq := MMKV.fullWritebackGrow_eq (P := P) hdata sys.mended_ok true 0
  rw [h.parse_salvaged] at heq
  rw [hdisk, MMKV.fullWriteback, heq]
  simp only [MMKV.apply_fullWriteback, MMKV.length_rewritten]
  refine ⟨rfl, rfl, rfl, rfl, parseMeta_patch_marshal _ hcrc, ?_⟩
  change (regionOf (cfg.salvaged P d mi).dict).length + 4 ≤ _
  omega

/-- **The repaired files are readable** when 32 bits can address what was salvaged. -/
theorem Corrupt.readable {m : MMKV} (h : Corrupt P d mi) (hro : cfg.readOnly = false) (hrecover : cfg.recover = true)
    (hopen : (World.start P cfg sys d).inst = .ok m)
    (hlen : 4 + (regionOf (salvageDict (cfg.crypt P) d mi)).length < 2 ^ 32) :
    Readable (World.start P cfg sys d).disk m.info ∧
      parseDict (plainOf (cfg.crypt P) m.info.iv ((World.start P cfg sys d).disk.region m.info.actualSize)) =
        .ok (salvageDict (cfg.crypt P) d mi) := by
  obtain ⟨hdisk, rfl⟩ := h.start hro hrecover hopen
  have hcrc := le_length_of_parseMeta h.openWrites.parse
  have hdata := h.data_salvaged cfg
  obtain ⟨-, hm, hsealed, hdec, -, -⟩ := MMKV.fullWritebackGrow_decoded (P := P) hdata hcrc (parseDictGreedy_wf _)
    sys.mended_ok hlen true 0
  rw [hdisk, MMKV.fullWriteback, hm]
  exact ⟨hsealed.readable, hdec⟩

/-- **The repaired files are those of a store at work**, then. -/
theorem Corrupt.steady {m : MMKV} (h : Corrupt P d mi) (hro : cfg.readOnly = false) (hrecover : cfg.recover = true)
    (hopen : (World.start P cfg sys d).inst = .ok m)
    (hlen : 4 + (regionOf (salvageDict (cfg.crypt P) d mi)).length < 2 ^ 32) :
    Steady (World.start P cfg sys d).disk m := by
  obtain ⟨hm, hver, -, hflags, -⟩ := h.repaired hro hrecover hopen
  obtain ⟨hreadable, hdec⟩ := h.readable hro hrecover hopen hlen
  have hexp : m.enableExpire = m.info.expireEnabled := by
    rw [MetaInfo.expireEnabled, hflags, hm]
    exact h.expiresOf_eq
  refine ⟨⟨hreadable.parse, .inl hver, hreadable.fits, hreadable.bounded, hreadable.crc⟩, ?_, ?_, ?_, ?_, hexp, ?_, ?_, ?_, ?_⟩
  all_goals rw [hm]
  · exact hdec
  all_goals first
    | rfl
    | exact hro

end Salvage

/-! ### Sets and removals after the repair -/

/-- The condition on what runs after the repair: sets under non-empty keys and removals whose region stays below 4 GiB, and
opens of the plaintext store for writing. -/
def Act.Edits (w : World) : Act → Prop
  | .call op sys =>
    sys.OK ∧ (∀ m, w.inst = .ok m → 4 + (op.regionAfter sys w.disk m).length < 2 ^ 32) ∧
      match op with
      | .set key _ => key ≠ []
      | .removeValueForKey _ | .removeValuesForKeys _ => True
      | _ => False
  | .reopen cfg _ => cfg.readOnly = false ∧ cfg.cryptKey = []

/-- What such an action does to the content; an instance starts with no default duration. -/
def Content.edit (c : Content) : Act → Content
  | .call op sys => c.after sys 0 op
  | .reopen _ _ => c

/-- The plaintext files and the instance on them have the content `c`. -/
def Serves (w : World) (c : Content) : Prop :=
  ∃ m, w.inst = .ok m ∧ Steady w.disk m ∧ m.crypt = none ∧ m.expiredSeconds = 0 ∧ m.content = c

section Edits

variable {P : Platform} {w : World} {c : Content}

lemma Outcome.serves {sys : Sys} {d : Disk} {m : MMKV} {dict : Dict} {op : Op} {r : Result} (h : Outcome P d m dict r)
    (hexec : m.exec P sys d op = r) (hcrypt : m.crypt = none) (hsec : m.expiredSeconds = 0)
    (hc : c = ⟨OrdMap.lookup dict, m.enableExpire⟩) : Serves ((⟨d, .ok m⟩ : World).step P (.call op sys)) c := by
  rw [World.step_call, hexec]
  refine ⟨_, rfl, h.steady, h.crypt.trans hcrypt, h.seconds.trans hsec, ?_⟩
  rw [hc, MMKV.content, h.dict, h.enableExpire]

/-- **A store at work opens to its content.** -/
theorem Serves.start {cfg : Config} (h : Serves w c) (hro : cfg.readOnly = false) (hkey : cfg.cryptKey = [])
    (sys : Sys) : Serves (World.start P cfg sys w.disk) c ∧
      ∃ m, (World.start P cfg sys w.disk).inst = .ok m ∧ parseMeta w.disk.crc = .ok m.info := by
  obtain ⟨m, -, hsteady, hnone, -, rfl⟩ := h
  have hcrypt : cfg.crypt P = none := by simp [Config.crypt, hkey]
  have hdec := hsteady.decoded
  rw [hnone, ← hcrypt] at hdec
  have hopen := apply_openWrites P w.disk
  have hregion := Disk.region_append (congrArg Disk.data hopen) hsteady.fits
  have hsealed : Sealed (w.disk.apply (openWrites P w.disk)) m.info :=
    hsteady.toSealed.extend (congrArg Disk.data hopen) (congrArg Disk.crc hopen)
  rw [World.start, openMMKV_of_readable sys hsteady.readable hro hdec]
  rw [← hregion] at hdec
  refine ⟨⟨_, rfl, ⟨hsealed, hdec, rfl, rfl, rfl, rfl, rfl, rfl, rfl, hro⟩, hcrypt, rfl, ?_⟩, _, rfl, hsteady.parse⟩
  exact Content.ext rfl hsteady.enableExpire.symm

theorem Serves.step {a : Act} (h : Serves w c) (ha : a.Edits w) : Serves (w.step P a) (c.edit a) := by
  cases a with
  | reopen cfg sys => exact (h.start ha.1 ha.2 sys).1
  | call op sys =>
    obtain ⟨m, hinst, hsteady, hcrypt, hsec, rfl⟩ := h
    obtain ⟨hsys, hregion, hop⟩ := ha
    obtain ⟨d, inst⟩ := w
    cases hinst
    have hlt := hregion m rfl
    cases op with
    | set key v =>
      have hexec : m.exec P sys d (.set key v) = m.setValueLocked P sys d key v.blob :=
        MMKV.mutate_of_steady hsteady fun m => m.setValueLocked P sys d key v.blob
      refine (set_outcome hsteady hsys hop v.blob_ne_nil hlt).serves hexec hcrypt hsec ?_
      rw [OrdMap.lookup_insert, hsec]
      rfl
    | removeValueForKey key =>
      have hexec : m.exec P sys d (.removeValueForKey key) = m.removeValueForKey P sys d key :=
        MMKV.mutate_of_steady hsteady fun m => m.removeValueForKey P sys d key
      refine (remove_outcome hsteady hsys (.inl hcrypt) hlt).serves hexec hcrypt hsec ?_
      rw [OrdMap.lookup_erase]
      rfl
    | removeValuesForKeys keys =>
      have hexec : m.exec P sys d (.removeValuesForKeys keys) = m.removeValuesForKeys P sys d keys :=
        MMKV.mutate_of_steady hsteady fun m => m.removeValuesForKeys P sys d keys
      refine (removeMany_outcome hsteady hsys hlt).serves hexec hcrypt hsec ?_
      refine Content.ext (funext fun k => ?_) rfl
      simp [Content.edit, Content.after, MMKV.content]
    | _ => exact hop.elim

/-- **Salvage repairs the store**: the instance holds what was salvaged, under a new sequence number and the expiration
flag that the files had; a later open finds the same, and so does one after further sets and removals on plaintext. -/
theorem salvage_repairs {cfg : Config} {sys : Sys} {d : Disk} {mi : MetaInfo} {m : MMKV} (h : Corrupt P d mi)
    (hro : cfg.readOnly = false) (hrecover : cfg.recover = true) (hopen : (World.start P cfg sys d).inst = .ok m) :
    let w := World.start P cfg sys d
    let dict := salvageDict (cfg.crypt P) d mi
    (m.dict = dict ∧ m.info.sequence = mi.sequence + 1 ∧ m.enableExpire = mi.expireEnabled ∧
      m.info.flags = mi.flags ∧ parseMeta w.disk.crc = .ok m.info) ∧
    (4 + (regionOf dict).length < 2 ^ 32 → ∀ (cfg' : Config) (sys' : Sys), cfg'.readOnly = false →
      cfg'.cryptKey = cfg.cryptKey → ∃ m', (World.start P cfg' sys' w.disk).inst = .ok m' ∧ m'.dict = dict ∧
        m'.enableExpire = mi.expireEnabled ∧ m'.info = m.info) ∧
    (cfg.cryptKey = [] → 4 + (regionOf dict).length < 2 ^ 32 → ∀ acts, Along Act.Edits (World.step P) w acts →
      ∀ (cfg' : Config) (sys' : Sys), cfg'.readOnly = false → cfg'.cryptKey = [] →
        ∃ m', (World.start P cfg' sys' (run (World.step P) w acts).disk).inst = .ok m' ∧
          m'.content = run Content.edit ⟨OrdMap.lookup dict, mi.expireEnabled⟩ acts ∧
          parseMeta (run (World.step P) w acts).disk.crc = .ok m'.info) := by
  obtain ⟨hm, -, hseq, hflags, hparse, -⟩ := h.repaired hro hrecover hopen
  have hexp : m.enableExpire = mi.expireEnabled := by
    rw [hm]
    exact h.expiresOf_eq
  have hdict : m.dict = salvageDict (cfg.crypt P) d mi := by rw [hm]; rfl
  intro w dict
  refine ⟨⟨hdict, hseq, hexp, hflags, hparse⟩, ?_, ?_⟩
  · intro hlen cfg' sys' hro' hkey
    obtain ⟨hreadable, hdec⟩ := h.readable hro hrecover hopen hlen
    have hcrypt : cfg'.crypt P = cfg.crypt P := by rw [Config.crypt, Config.crypt, hkey]
    rw [World.start, openMMKV_of_readable sys' hreadable hro' (by rw [hcrypt]; exact hdec)]
    exact ⟨_, rfl, rfl, congrArg (· &&& flagEnableExpire != 0) hflags, rfl⟩
  · intro hkey hlen acts hacts cfg' sys' hro' hkey'
    have hcrypt : m.crypt = none := by
      rw [hm]
      exact show cfg.crypt P = none by simp [Config.crypt, hkey]
    have hserves : Serves w ⟨OrdMap.lookup dict, mi.expireEnabled⟩ := by
      refine ⟨m, hopen, h.steady hro hrecover hopen hlen, hcrypt, by rw [hm]; rfl, ?_⟩
      rw [MMKV.content, hdict, hexp]
    obtain ⟨⟨m', hinst', -, -, -, hcontent⟩, m'', hinst'', hparse'⟩ :=
      (hacts.simulation (fun _ _ _ => Serves.step) hserves).start hro' hkey' sys'
    cases hinst'.symm.trans hinst''
    exact ⟨m', hinst', hcontent, hparse'⟩

end Edits

/-! ### A scrambled store -/

/-- The meta of a store whose CRCs are wrong. -/
def scrambledInfo : MetaInfo :=
  { blankMeta with crcDigest := 1, version := versionFlag, actualSize := 8, lastCRCDigest := 1 }

/-- The region still holds one key. -/
def scrambled : Disk :=
  ⟨[0, 0, 0, 0] ++ itemSizeHolderBytes ++ pairBytes [97] [1] ++ List.replicate 4084 0, scrambledInfo.marshal⟩

/-- The options of an open that salvages. -/
def salvaging : Config := { defaults with recover := true }

lemma scrambled_corrupt : Corrupt linux scrambled scrambledInfo where
  parse := by decide +kernel
  version := .inl rfl
  page := by decide +kernel
  small := by decide +kernel
  current := by rw [Disk.Validates]; decide +kernel
  last := by rw [Disk.Validates]; decide +kernel

/-- The scrambled store is salvaged, opened again by default, and set under another key. -/
theorem scrambled_repaired :
    let acts : List Act := [.reopen defaults calm, .call (.set [98] (.bool false)) calm]
    ∃ m, (World.start linux defaults calm
        (run (World.step linux) (World.start linux salvaging calm scrambled) acts).disk).inst = .ok m ∧
      m.dict[([97] : Bytes)]? = some [1] ∧ m.dict[([98] : Bytes)]? = some [0] := by
  intro acts
  have hok : (World.start linux salvaging calm scrambled).inst.isOk = true := by decide +kernel
  obtain ⟨m, hopen⟩ : ∃ m, (World.start linux salvaging calm scrambled).inst = .ok m := by
    cases hinst : (World.start linux salvaging calm scrambled).inst with
    | ok m => exact ⟨m, rfl⟩
    | error e =>
      rw [hinst] at hok
      cases hok
  have hacts : Along Act.Edits (World.step linux) (World.start linux salvaging calm scrambled) acts := by
    have hsize : (let w := run (World.step linux) (World.start linux salvaging calm scrambled) [.reopen defaults calm]
        w.inst.toOption.all fun m =>
          decide (4 + ((Op.set [98] (.bool false)).regionAfter calm w.disk m).length < 2 ^ 32)) = true := by decide +kernel
    refine ⟨⟨rfl, rfl⟩, ⟨calm_ok, fun m hm => ?_, by simp⟩, trivial⟩
    dsimp only at hsize
    rw [run_cons, run_nil, hm] at hsize
    exact of_decide_eq_true hsize
  obtain ⟨-, -, hedits⟩ := salvage_repairs scrambled_corrupt rfl rfl hopen
  obtain ⟨m', hinst', hcontent, -⟩ := hedits rfl (by decide +kernel) acts hacts defaults calm rfl rfl
  have hslots := congrFun (congrArg Content.slots hcontent)
  exact ⟨m', hinst', (hslots [97]).trans (by decide +kernel), (hslots [98]).trans (by decide +kernel)⟩

/-- After the repair a set of the empty key returns nil, and the store cannot be opened any more. -/
theorem empty_key_after_salvage :
    let w := run (World.step linux) (World.start linux salvaging calm scrambled) [.reopen defaults calm]
    Corrupt linux scrambled scrambledInfo ∧ ∃ m, w.inst = .ok m ∧
      (m.exec linux calm w.disk (.set [] (.bool true))).err = none ∧
      (World.start linux defaults calm
        (w.disk.apply (m.exec linux calm w.disk (.set [] (.bool true))).writes)).inst.isOk = false := by
  intro w
  have hcheck : (w.inst.toOption.any fun m => decide ((m.exec linux calm w.disk (.set [] (.bool true))).err = none ∧
      (World.start linux defaults calm
        (w.disk.apply (m.exec linux calm w.disk (.set [] (.bool true))).writes)).inst.isOk = false)) = true := by
    decide +kernel
  refine ⟨scrambled_corrupt, ?_⟩
  cases hinst : w.inst with
  | error e =>
    rw [hinst] at hcheck
    cases hcheck
  | ok m =>
    rw [hinst] at hcheck
    exact ⟨m, rfl, of_decide_eq_true hcheck⟩

end MmkvGo.Store
