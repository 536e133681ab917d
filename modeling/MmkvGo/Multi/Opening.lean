import MmkvGo.Multi.Restore
import MmkvGo.Store.Aliases
import MmkvGo.Store.Failed

/-!
A multi-process open among writers.  `open` takes no lock before its repair, so calls of the other processes fall between
its steps: the mapping of the data file, that of the ".crc" file, the read of the meta, the CRC checks, the decoding and
the repair.  `Opening.advance` takes one of them; taken in a row they are `openMMKV` (`start_eq_run`).

A call of another process may also cut the data file down under the mapping of the open.  To touch a page of the mapping
that the file no longer has is a bus error, which kills the process: `Opening.killed`.

What ties a half-opened instance to the files is `Reads`: it read their meta `k` write-backs ago, and if that is none, the
region it read of is the start of theirs.  Once it has decoded that region the instance `Follows` the files as any other.
A mapping that is older than the meta is what breaks this.
-/

namespace MmkvGo.Multi

open MmkvGo.Lib MmkvGo.Wire MmkvGo.Crypt MmkvGo.Store Std

/-! ### The steps of an open -/

/-- What the CRC checks of `loadData` settle on: the current snapshot, with the size it was read to have, the last-confirmed
one, or none. -/
inductive Choice where
  | current (actual : UInt32)
  | last
  | neither

/-- Whether the file still has the first `n` bytes of the region, so that a mapping that holds them can be read there. -/
def backed (d : Disk) (n : ℕ) : Bool := decide (n = 0 ∨ 4 + n ≤ d.data.length)

/-- One of the checks of `loadData`: the bounds, which are those of the mapping, and the CRC.  `none` is a fault. -/
def checkRegion (d : Disk) (m : MMKV) (actual want : UInt32) : Option Bool :=
  if actual.toNat < m.data.len ∧ actual.toNat + 4 ≤ m.data.len then
    if backed d actual.toNat then some (m.crcValid d actual want) else none
  else some false

/-- The CRC checks of `loadData`; `none` is a fault. -/
def choose (d : Disk) (m : MMKV) : Option Choice :=
  match checkRegion d m (m.readActualSize d) m.info.crcDigest with
  | none => none
  | some true => some (.current (m.readActualSize d))
  | some false =>
    match checkRegion d m m.info.lastActualSize m.info.lastCRCDigest with
    | none => none
    | some true => some .last
    | some false => some .neither

/-- The size that `salvage` reads, which it clamps to the mapping. -/
def salvageSize (m : MMKV) : UInt32 :=
  if m.data.len < m.info.actualSize.toNat + 4 then
    if 4 ≤ m.data.len then UInt32.ofNat (m.data.len - 4) else 0
  else m.info.actualSize

/-- The bytes of the region that `loadData` reads after its CRC checks. -/
def Choice.touched (m : MMKV) : Choice → ℕ
  | .current actual => actual.toNat
  | .last => m.info.lastActualSize.toNat
  | .neither => if m.recover then (salvageSize m).toNat else 0

/-- What `loadData` does after its CRC checks. -/
def settle (d : Disk) (m : MMKV) : Choice → MMKV × Option Err
  | .current actual => m.decodeRegion d actual m.info.crcDigest
  | .last =>
    { m with info := { m.info with actualSize := m.info.lastActualSize, crcDigest := m.info.lastCRCDigest } }.decodeRegion d
      m.info.lastActualSize m.info.lastCRCDigest
  | .neither => if m.recover then (m.salvage d, none) else ({ m with dict := ∅, actualSize := 0, crcDigest := 0 }, none)

/-- The slices that it makes the dict of. -/
def settleViews (d : Disk) (m : MMKV) : Choice → Views
  | .current actual => Views.decodeRegion d m ⟨∅, 0⟩ actual
  | .last => Views.decodeRegion d m ⟨∅, 0⟩ m.info.lastActualSize
  | .neither => if m.recover then Views.salvage d m ⟨∅, 0⟩ else ⟨∅, 0⟩

/-- Whether a store is to a page that its file has.  No call makes the ".crc" file shorter. -/
def inFile (d : Disk) : Write → Bool
  | .data off _ => decide (off < d.data.length)
  | _ => true

/-- The stores of `ws` that are made up to the first one past the end of the data file, and whether they are all. -/
def reach (d : Disk) : List Write → List Write × Bool
  | [] => ([], true)
  | w :: ws =>
    if inFile d w then (w :: (reach (d.write w) ws).1, (reach (d.write w) ws).2) else ([], false)

/-- How far an open for writing has come; `killed` is a fault. -/
inductive Opening where
  | begun
  | dataMapped (data : MemoryFile)
  | metaMapped (data : MemoryFile)
  | metaRead (m : MMKV)
  | checked (m : MMKV) (choice : Choice)
  | loaded (a : Aliased)
  | done (res : Except Err MMKV)
  | killed

/-- The write-back of a store that was salvaged.  The dict that it writes is what its slices show by now. -/
def Opening.repair (P : Platform) (sys : Sys) (d : Disk) (a : Aliased) : List Write × Opening :=
  match a.sees d with
  | none => ([], .killed)
  | some m =>
    let r := m.fullWriteback P sys d
    let stores := reach d r.writes
    (stores.1, if stores.2 then .done (match r.err with
      | some e => .error e
      | none => .ok r.m) else .killed)

/-- One step of an open for writing, with the stores it makes. -/
def Opening.advance (P : Platform) (cfg : Config) (sys : Sys) (d : Disk) : Opening → List Write × Opening
  | .begun =>
    (if d.data.length < pageRoundUp P 0 then [.resize (pageRoundUp P 0)] else [],
      .dataMapped ⟨max d.data.length (pageRoundUp P 0), true⟩)
  -- from here on the size of the mapping may not be the size of the file
  | .dataMapped data =>
    (if d.crc.length < pageRoundUp P metaSize then [.resizeCrc (pageRoundUp P metaSize)] else [], .metaMapped data)
  | .metaMapped data =>
    match parseMeta d.crc with
    | .error e => ([], .done (.error e))
    | .ok mi =>
      if maxSupportedVersion < mi.version then ([], .done (.error (.unsupportedVersion mi.version)))
      else ([], .metaRead { cfg.instance P data with info := mi, enableExpire := expiresOf mi })
  | .metaRead m =>
    match choose d m with
    | none => ([], .killed)
    | some choice => ([], .checked m choice)
  | .checked m choice =>
    if backed d (choice.touched m) then
      match settle d m choice with
      | (_, some e) => ([], .done (.error e))
      | (m', none) => ([], .loaded ⟨m', settleViews d m choice⟩)
    else ([], .killed)
  | .loaded a =>
    if a.m.needFullWriteback then Opening.repair P sys d a else ([], .done (.ok a.m))
  | .done res => ([], .done res)
  | .killed => ([], .killed)

/-- The steps that are left. -/
def Opening.left : Opening → ℕ
  | .begun => 6
  | .dataMapped _ => 5
  | .metaMapped _ => 4
  | .metaRead _ => 3
  | .checked _ _ => 2
  | .loaded _ => 1
  | .done _ | .killed => 0

/-- The other processes, the open, and the number of write-backs since it read the meta. -/
structure Race (ι : Type) where
  others : Cluster ι
  opening : Opening
  missed : ℕ

/-- What happens next: a step of another process, or one of the open. -/
inductive Event (ι : Type) where
  | other (a : Move ι)
  | advance (sys : Sys)

section Step

variable {ι : Type} [DecidableEq ι]

/-- The cluster after stores of a process that is not part of it. -/
def Cluster.stored (w : Cluster ι) (d : Disk) : Cluster ι :=
  { w with disk := d, behind := fun j => if sequenceOf d = sequenceOf w.disk then w.behind j else w.behind j + 1 }

def Race.step (P : Platform) (cfg : Config) (r : Race ι) : Event ι → Race ι
  | .other a =>
    let w := r.others.step P a
    ⟨w, r.opening, if sequenceOf w.disk = sequenceOf r.others.disk then r.missed else r.missed + 1⟩
  | .advance sys =>
    let t := r.opening.advance P cfg sys r.others.disk
    ⟨r.others.stored (r.others.disk.apply t.1), t.2, match t.2 with
      | .metaRead _ => 0
      | _ => r.missed⟩

/-- What an event does to the one map: an open does nothing to it. -/
def Board.follow (s : Board ι) : Event ι → Board ι
  | .other a => s.step a
  | .advance _ => s

/-- The condition on an event.  The others make calls and read, as they may without the open.  When the open reads the
meta, the data file has the size that it mapped; when it checks and when it decodes a region that its mapping holds, the
file still has it; and if the open is to salvage what it cannot load, then no write-back falls between the read of the
meta and the CRC checks. -/
def Event.OK (P : Platform) (cfg : Config) (crypt : Option Cipher) (r : Race ι) : Event ι → Prop
  | .other a => a.OK P crypt r.others ∧ ((∃ i op sys, a = .call i op sys) ∨ ∃ i sys, a = .read i sys)
  | .advance _ =>
    match r.opening with
    | .metaMapped data => data = ⟨r.others.disk.data.length, true⟩
    | .metaRead m => (cfg.recover = true → r.missed = 0) ∧ ∀ n ∈ [m.readActualSize r.others.disk, m.info.lastActualSize],
        n.toNat + 4 ≤ m.data.len → n.toNat + 4 ≤ r.others.disk.data.length
    | .checked m choice => backed r.others.disk (choice.touched m)
    | _ => True

end Step

section Advance

variable {P : Platform} {cfg : Config} {sys : Sys} {d : Disk} {m : MMKV}

lemma checkRegion_eq {actual : UInt32} (want : UInt32)
    (h : actual.toNat + 4 ≤ m.data.len → actual.toNat + 4 ≤ d.data.length) :
    checkRegion d m actual want = some (m.accepts d actual want) := by
  by_cases hbounds : actual.toNat < m.data.len ∧ actual.toNat + 4 ≤ m.data.len
  · have hbacks : backed d actual.toNat = true := decide_eq_true (.inr (by have := h hbounds.2; omega))
    rw [checkRegion, if_pos hbounds, if_pos hbacks, MMKV.accepts, decide_eq_true hbounds.1, decide_eq_true hbounds.2]
    rfl
  · rw [checkRegion, if_neg hbounds, MMKV.accepts, ← Bool.decide_and, decide_eq_false hbounds]
    rfl

lemma salvageSize_le (h : 4 ≤ m.data.len) : (salvageSize m).toNat + 4 ≤ m.data.len := by
  rw [salvageSize]
  split
  · have := Nat.mod_le (m.data.len - 4) (2 ^ 32)
    simp only [UInt32.toNat_ofNat']
    omega
  · omega

/-- **The CRC checks** of a mapping that the file has, and what they settle on. -/
lemma choose_spec (h : ∀ n ∈ [m.readActualSize d, m.info.lastActualSize], n.toNat + 4 ≤ m.data.len →
    n.toNat + 4 ≤ d.data.length) :
    ∃ c, choose d m = some c ∧ m.loadRegion d = settle d m c ∧ (4 ≤ m.data.len → c.touched m + 4 ≤ m.data.len) := by
  have hcurrent := checkRegion_eq m.info.crcDigest (h (m.readActualSize d) (by simp))
  have hlast := checkRegion_eq m.info.lastCRCDigest (h m.info.lastActualSize (by simp))
  have hbound : ∀ {a w}, m.accepts d a w = true → a.toNat + 4 ≤ m.data.len := by
    intro a w ha
    simp only [MMKV.accepts, Bool.and_eq_true, decide_eq_true_eq] at ha
    exact ha.1.2
  rw [choose, hcurrent, hlast, MMKV.loadRegion]
  cases hc : m.accepts d (m.readActualSize d) m.info.crcDigest with
  | true => exact ⟨_, rfl, rfl, fun _ => hbound hc⟩
  | false =>
    cases hl : m.accepts d m.info.lastActualSize m.info.lastCRCDigest with
    | true => exact ⟨_, rfl, rfl, fun _ => hbound hl⟩
    | false =>
      refine ⟨_, rfl, rfl, fun h4 => ?_⟩
      rw [Choice.touched]
      split
      · exact salvageSize_le h4
      · omega

lemma decodeRegion_done {m' : MMKV} {actual crc : UInt32} (h : m.decodeRegion d actual crc = (m', none)) :
    ∃ dict, m' = { m with dict := dict, actualSize := actual, crcDigest := crc } := by
  rw [MMKV.decodeRegion, MMKV.plain_eq] at h
  simp only at h
  split at h
  · cases h
  · next dict _ =>
    cases h
    exact ⟨dict, rfl⟩

/-- What a load that succeeds can change: the map, the size and the CRC, and of the meta no more than those, or else the
instance was salvaged. -/
lemma settle_done {m' : MMKV} {c : Choice} (h : settle d m c = (m', none)) :
    (∃ dict info size crc, info.sequence = m.info.sequence ∧
      m' = { m with info := info, dict := dict, actualSize := size, crcDigest := crc }) ∨
    c = .neither ∧ m.recover = true ∧ m' = m.salvage d := by
  cases c with
  | current actual =>
    obtain ⟨dict, rfl⟩ := decodeRegion_done h
    exact .inl ⟨dict, m.info, _, _, rfl, rfl⟩
  | last =>
    obtain ⟨dict, rfl⟩ := decodeRegion_done h
    exact .inl ⟨dict, lastConfirmed m.info, _, _, rfl, rfl⟩
  | neither =>
    rw [settle] at h
    split at h
    · next hrecover =>
      cases h
      exact .inr ⟨rfl, hrecover, rfl⟩
    · cases h
      exact .inl ⟨∅, m.info, 0, 0, rfl, rfl⟩

lemma Opening.left_repair (a : Aliased) : (repair P sys d a).2.left = 0 := by
  rw [repair]
  split
  · rfl
  · dsimp only
    split <;> rfl

lemma Opening.left_advance (o : Opening) : (o.advance P cfg sys d).2.left ≤ o.left - 1 := by
  cases o with
  | begun | dataMapped data | done res | killed => exact Nat.le_refl _
  | metaMapped data =>
    rw [advance]
    split
    · simp [left]
    · split <;> simp [left]
  | metaRead m =>
    rw [advance]
    split <;> simp [left]
  | checked m choice =>
    rw [advance]
    split
    · split <;> simp [left]
    · simp [left]
  | loaded a =>
    rw [advance]
    split
    · rw [left_repair]
      exact Nat.zero_le _
    · simp [left]

/-! #### A mapping that the file has

Without another process in between there is no fault. -/

lemma reach_append {ws vs : List Write} (h : reach d ws = (ws, true)) :
    reach d (ws ++ vs) = (ws ++ (reach (d.apply ws) vs).1, (reach (d.apply ws) vs).2) := by
  induction ws generalizing d with
  | nil => rfl
  | cons w ws ih =>
    rw [reach] at h
    split at h
    · next hw =>
      simp only [Prod.mk.injEq, List.cons.injEq, true_and] at h
      rw [List.cons_append, reach, if_pos hw, ih (Prod.ext h.1 h.2)]
      rfl
    · simp at h

lemma reach_dataWrites {off : ℕ} {bs : Bytes} (h : off + bs.length ≤ d.data.length) :
    reach d (dataWrites off bs) = (dataWrites off bs, true) := by
  induction bs generalizing d off with
  | nil => rfl
  | cons b bs ih =>
    rw [List.length_cons] at h
    have hfile : inFile d (.data off b) = true := decide_eq_true (by omega)
    have hrest : reach (d.write (.data off b)) (dataWrites (off + 1) bs) = (dataWrites (off + 1) bs, true) :=
      ih (by simp only [Disk.write, List.length_set]; omega)
    rw [dataWrites, reach, if_pos hfile, hrest]

lemma reach_crcWrites (d : Disk) (off : ℕ) (bs : Bytes) : reach d (crcWrites off bs) = (crcWrites off bs, true) := by
  induction bs generalizing d off with
  | nil => rfl
  | cons b bs ih =>
    have hfile : inFile d (.crc off b) = true := rfl
    rw [crcWrites, reach, if_pos hfile, ih]

lemma grow_reach {lenNeeded incoming : ℕ} {needSync : Bool} {grown : List Write} {data : MemoryFile} {err : Option Err}
    (h : m.grow P sys lenNeeded needSync incoming = (grown, data, err)) (hle : m.data.size ≤ d.data.length) :
    reach d grown = (grown, true) ∧ (err = none → lenNeeded < (d.apply grown).data.length) := by
  rw [MMKV.grow] at h
  cases hg : growth m.data.size m.dict.size lenNeeded needSync incoming with
  | none =>
    rw [hg] at h
    cases h
    exact ⟨rfl, fun _ => Nat.lt_of_lt_of_le (lt_of_growth_none hg) hle⟩
  | some newSize =>
    rw [hg] at h
    have hlt := Nat.lt_of_lt_of_le (lt_of_growth_some hg) (le_pageRoundUp P newSize)
    have hresized : (d.apply [.resize (pageRoundUp P newSize)]).data.length = pageRoundUp P newSize := by
      simp [Disk.write]
    -- the truncate leaves the file, fails before or after its store, or succeeds
    simp only [MemoryFile.truncate] at h
    split at h
    · next hsize =>
      cases h
      exact ⟨rfl, fun _ => by rw [Disk.apply_nil]; omega⟩
    · split at h
      · cases h
        exact ⟨rfl, fun he => by cases he⟩
      · split at h
        · cases h
          exact ⟨rfl, fun he => by cases he⟩
        · cases h
          exact ⟨rfl, fun _ => by rw [hresized]; exact hlt⟩
      · cases h
        exact ⟨rfl, fun he => by cases he⟩
      · cases h
        exact ⟨rfl, fun _ => by rw [hresized]; exact hlt⟩

/-- **A write-back through a mapping that the file has** makes all its stores. -/
lemma reach_fullWriteback (P : Platform) (sys : Sys) (hle : m.data.size ≤ d.data.length) :
    reach d (m.fullWriteback P sys d).writes = ((m.fullWriteback P sys d).writes, true) := by
  rw [MMKV.fullWriteback]
  rcases m.fullWritebackGrow_cases P sys d true 0 with
    ⟨e, -, hr⟩ | ⟨ct, iv, -, ⟨grown, data, e, hgrow, hr⟩ | ⟨grown, data, info, hgrow, -, -, hr⟩⟩
  · rw [hr]
    rfl
  · rw [hr]
    exact (grow_reach hgrow hle).1
  · obtain ⟨hgrown, hroom⟩ := grow_reach hgrow hle
    have hlt := hroom rfl
    have hzeros : (d.apply grown).apply (dataWrites 0 (List.replicate 4 0)) =
        ⟨patch (d.apply grown).data 0 (List.replicate 4 0), (d.apply grown).crc⟩ := Disk.apply_dataWrites ..
    rw [hr, List.append_assoc, List.append_assoc, reach_append hgrown,
      reach_append (reach_dataWrites (by simp only [List.length_replicate]; omega)), hzeros,
      reach_append (reach_dataWrites (by rw [length_patch]; omega)), reach_crcWrites]

/-- **What a salvage makes its dict of** shows what it salvaged. -/
lemma salvage_sees (hdata : m.data.mapped = true) (h4 : 4 ≤ m.data.size) (hle : m.data.size ≤ d.data.length)
    (hsmall : m.data.size < 2 ^ 32) :
    (⟨m.salvage d, Views.salvage d m ⟨∅, 0⟩⟩ : Aliased).sees d = some (m.salvage d) := by
  have hlen : m.data.len = m.data.size := by rw [MemoryFile.len, if_pos hdata]
  have hmem : (m.data.memory d).length = m.data.size := by
    rw [MemoryFile.memory, if_pos hdata, List.length_take]
    omega
  have hsize := salvageSize_le (m := m) (by omega)
  have hregion : slice (m.data.memory d) 4 (4 + (salvageSize m).toNat) = m.region d (salvageSize m) := by
    rw [MMKV.region]
    congr 1
    rw [UInt32.toNat_add]
    exact (Nat.mod_eq_of_lt (show 4 + (salvageSize m).toNat < 2 ^ 32 by omega)).symm
  have hmapped : (Slice.mapped 0 4 (salvageSize m).toNat).Shows 0 (m.data.memory d) m.data.size
      (m.region d (salvageSize m)) := ⟨rfl, by omega, hregion⟩
  have hshows : ∃ slices, Views.salvage d m ⟨∅, 0⟩ = ⟨slices, 0⟩ ∧
      OrdMap.Related (Slice.Shows 0 (m.data.memory d) m.data.size) slices (m.salvage d).dict := by
    rw [Views.salvage, MMKV.salvage]
    simp only [← salvageSize.eq_1]
    -- the slices are of the mapping, or with a key of the buffer it was decrypted into
    cases hplain : m.plain (m.region d (salvageSize m)) with
    | error e => exact ⟨_, rfl, slicesOfGreedy_shows hmapped⟩
    | ok plain =>
      refine ⟨_, rfl, slicesOfGreedy_shows ?_⟩
      rw [Views.plainBuffer]
      rw [MMKV.plain] at hplain
      cases hcrypt : m.crypt with
      | none =>
        rw [hcrypt] at hplain
        cases hplain
        exact hmapped
      | some E => rfl
  obtain ⟨slices, hslices, hrelated⟩ := hshows
  have hread : Views.resolve ⟨slices, 0⟩ (m.data.memory d) = some (m.salvage d).dict :=
    OrdMap.Related.readAll_eq hrelated fun s val hs => hs.read (by omega)
  rw [Aliased.sees, hslices]
  change Option.map _ (Views.resolve ⟨slices, 0⟩ (m.data.memory d)) = _
  rw [hread]
  rfl

lemma loadRegion_eq_advance (P : Platform) (cfg : Config) (sys : Sys) (hro : m.readOnly = false)
    (hfull : m.needFullWriteback = false) (hmapped : m.data.mapped = true) (h4 : 4 ≤ m.data.size)
    (hle : m.data.size ≤ d.data.length) (hsmall : m.data.size < 2 ^ 32) :
    let o₂ := (Opening.metaRead m).advance P cfg sys d
    let o₃ := o₂.2.advance P cfg sys d
    let load : List Write × Except Err MMKV := match m.loadRegion d with
      | (_, some e) => ([], .error e)
      | (m', none) =>
        if m'.needFullWriteback && !m'.readOnly then
          match (m'.fullWriteback P sys d).err with
          | some e => ((m'.fullWriteback P sys d).writes, .error e)
          | none => ((m'.fullWriteback P sys d).writes, .ok (m'.fullWriteback P sys d).m)
        else ([], .ok m')
    o₂.1 = [] ∧ o₃.1 = [] ∧ o₃.2.advance P cfg sys d = (load.1, .done load.2) := by
  intro o₂ o₃ load
  have hlen : m.data.len = m.data.size := by rw [MemoryFile.len, if_pos hmapped]
  obtain ⟨c, hchoose, hload, htouched⟩ := choose_spec (d := d) (m := m) fun n _ hn => by omega
  have hbacked : backed d (c.touched m) = true := decide_eq_true (.inr (by have := htouched (by omega); omega))
  have h₂ : o₂ = ([], .checked m c) := by simp only [o₂, Opening.advance, hchoose]
  cases hset : settle d m c with
  | mk m' err =>
    cases err with
    | some e =>
      have h₃ : o₃ = ([], .done (.error e)) := by simp only [o₃, h₂, Opening.advance, hbacked, hset, if_true]
      simp [h₂, h₃, Opening.advance, load, hload, hset]
    | none =>
      have h₃ : o₃ = ([], .loaded ⟨m', settleViews d m c⟩) := by
        simp only [o₃, h₂, Opening.advance, hbacked, hset, if_true]
      refine ⟨by rw [h₂], by rw [h₃], ?_⟩
      simp only [h₃, Opening.advance, load, hload, hset]
      rcases settle_done hset with ⟨dict, info, size, crc, -, rfl⟩ | ⟨rfl, hrecover, rfl⟩
      · simp [hfull]
      · -- the slices of the salvaged dict show it still, and the file has every page that is stored to
        have hsees := salvage_sees hmapped h4 hle hsmall
        have hviews : settleViews d m .neither = Views.salvage d m ⟨∅, 0⟩ := by rw [settleViews, if_pos hrecover]
        have hreach := reach_fullWriteback (m := m.salvage d) (d := d) P sys hle
        have hwrites : ((m.salvage d).needFullWriteback && !(m.salvage d).readOnly) = true := by
          simp [MMKV.salvage, hro]
        rw [if_pos (show (m.salvage d).needFullWriteback = true from rfl), if_pos hwrites, hviews, Opening.repair, hsees]
        simp only [hreach, if_true]
        cases ((m.salvage d).fullWriteback P sys d).err <;> rfl

lemma load_eq_advance (P : Platform) (sys : Sys) (hro : cfg.readOnly = false) {data : MemoryFile}
    (hmapped : data.mapped = true) (h4 : 4 ≤ data.size) (hle : data.size ≤ d.data.length) (hsmall : data.size < 2 ^ 32) :
    let o₁ := (Opening.metaMapped data).advance P cfg sys d
    let o₂ := o₁.2.advance P cfg sys d
    let o₃ := o₂.2.advance P cfg sys d
    let load := (cfg.instance P data).load P sys d
    o₁.1 = [] ∧ o₂.1 = [] ∧ o₃.1 = [] ∧ o₃.2.advance P cfg sys d = (load.1, .done load.2) := by
  intro o₁ o₂ o₃ load
  have hload : load = (cfg.instance P data).load P sys d := rfl
  rw [MMKV.load, MMKV.loadData] at hload
  cases hparse : parseMeta d.crc with
  | error e =>
    have h₁ : o₁ = ([], .done (.error e)) := by simp only [o₁, Opening.advance, hparse]
    simp only [hparse] at hload
    simp [o₂, o₃, h₁, Opening.advance, hload]
  | ok mi =>
    by_cases hver : maxSupportedVersion < mi.version
    · have h₁ : o₁ = ([], .done (.error (.unsupportedVersion mi.version))) := by
        simp only [o₁, Opening.advance, hparse, if_pos hver]
      simp only [hparse, if_pos hver] at hload
      simp [o₂, o₃, h₁, Opening.advance, hload]
    · simp only [hparse, if_neg hver] at hload
      rw [← expiresOf] at hload
      have h₁ : o₁ = ([], .metaRead { cfg.instance P data with info := mi, enableExpire := expiresOf mi }) := by
        simp only [o₁, Opening.advance, hparse, if_neg hver]
      obtain ⟨h₂, h₃, hlast⟩ := loadRegion_eq_advance (d := d)
        (m := { cfg.instance P data with info := mi, enableExpire := expiresOf mi }) P cfg sys hro rfl hmapped h4 hle hsmall
      have ho₂ : o₂ = (Opening.metaRead { cfg.instance P data with info := mi, enableExpire := expiresOf mi }).advance P
          cfg sys d := by simp only [o₂, h₁]
      refine ⟨by rw [h₁], by rw [ho₂]; exact h₂, by simp only [o₃, ho₂]; exact h₃, ?_⟩
      simp only [o₃, ho₂, hload]
      exact hlast

lemma openWrites_eq_advance (P : Platform) (cfg : Config) (sys : Sys) (d : Disk) :
    let o₁ := Opening.begun.advance P cfg sys d
    let o₂ := o₁.2.advance P cfg sys (d.apply o₁.1)
    (d.apply o₁.1).apply o₂.1 = d.apply (openWrites P d) ∧
      o₂.2 = .metaMapped ⟨(d.apply (openWrites P d)).data.length, true⟩ := by
  have hlen := length_openWrites P d
  have hcrc : (d.apply (Opening.begun.advance P cfg sys d).1).crc = d.crc := by
    rw [Opening.advance]
    split <;> rfl
  refine ⟨?_, ?_⟩
  · simp only [Opening.advance] at hcrc ⊢
    simp only [hcrc, openWrites, Disk.apply_append]
  · simp only [Opening.advance, hlen, pageRoundUp_zero]

section Rows

variable {ι : Type} [DecidableEq ι]

lemma run_load (sys : Sys) (hro : cfg.readOnly = false) (w : Cluster ι) (data : MemoryFile) (hmapped : data.mapped = true)
    (h4 : 4 ≤ data.size) (hle : data.size ≤ w.disk.data.length) (hsmall : data.size < 2 ^ 32) (k : ℕ) :
    let r := run (Race.step P cfg) ⟨w, .metaMapped data, k⟩ (List.replicate 4 (.advance sys))
    let load := (cfg.instance P data).load P sys w.disk
    r.others.disk = w.disk.apply load.1 ∧ r.opening = .done load.2 ∧ r.others.inst = w.inst := by
  have hdisk : ∀ r : Race ι, (r.step P cfg (.advance sys)).others.disk =
      r.others.disk.apply (r.opening.advance P cfg sys r.others.disk).1 := fun _ => rfl
  have hopening : ∀ r : Race ι, (r.step P cfg (.advance sys)).opening =
      (r.opening.advance P cfg sys r.others.disk).2 := fun _ => rfl
  obtain ⟨h₁, h₂, h₃, hlast⟩ := load_eq_advance (d := w.disk) P sys hro hmapped h4 hle hsmall
  simp only [List.replicate, run_cons, run_nil]
  simp only [hdisk, hopening]
  rw [h₁, Disk.apply_nil, h₂, Disk.apply_nil, h₃, Disk.apply_nil, hlast]
  exact ⟨rfl, rfl, rfl⟩

/-- **The steps of an open taken in a row** are the open. -/
theorem start_eq_run (hro : cfg.readOnly = false) (w : Cluster ι)
    (hsmall : (w.disk.apply (openWrites P w.disk)).data.length < 2 ^ 32) :
    let r := run (Race.step P cfg) ⟨w, .begun, 0⟩ (List.replicate 6 (.advance sys))
    r.others.disk = (World.start P cfg sys w.disk).disk ∧ r.opening = .done (World.start P cfg sys w.disk).inst := by
  obtain ⟨hfiles, hmapped⟩ := openWrites_eq_advance P cfg sys w.disk
  have hsplit : (List.replicate 6 (.advance sys) : List (Event ι)) = .advance sys :: .advance sys ::
      List.replicate 4 (.advance sys) := rfl
  rw [hsplit, run_cons, run_cons]
  generalize hr : ((⟨w, .begun, 0⟩ : Race ι).step P cfg (.advance sys)).step P cfg (.advance sys) = r
  have hdisk : r.others.disk = w.disk.apply (openWrites P w.disk) := by
    rw [← hr, ← hfiles]
    rfl
  have hopening : r.opening = .metaMapped ⟨(w.disk.apply (openWrites P w.disk)).data.length, true⟩ := by
    rw [← hr, ← hmapped]
    rfl
  obtain ⟨others, opening, k⟩ := r
  subst hopening
  have hothers : others.disk = w.disk.apply (openWrites P w.disk) := hdisk
  have hpage := P.four_le_pageSize
  have hfloor : P.pageSize ≤ (w.disk.apply (openWrites P w.disk)).data.length := by
    rw [length_openWrites]
    exact Nat.le_max_right ..
  obtain ⟨hdisk', hopening', -⟩ := run_load (P := P) sys hro others
    ⟨(w.disk.apply (openWrites P w.disk)).data.length, true⟩ rfl (hpage.trans hfloor) (by rw [hothers]) hsmall k
  rw [hothers] at hdisk' hopening'
  refine ⟨hdisk'.trans ?_, hopening'.trans ?_⟩ <;>
    simp only [World.start, openMMKV, hro, Bool.false_eq_true, if_false, Disk.apply_append]

end Rows

end Advance

/-! ### What a half-opened instance knows -/

/-- The region that the instance read of is the start of that of the files, through a mapping of all of them. -/
structure Snapshot (d : Disk) (mi : MetaInfo) (m : MMKV) : Prop where
  data : m.data = ⟨d.data.length, true⟩
  readActualSize : m.readActualSize d = m.info.actualSize
  le : m.info.actualSize.toNat ≤ mi.actualSize.toNat
  crc : Crc32.checksum (d.region m.info.actualSize) = m.info.crcDigest
  decoded : ∃ dict, parseDict (plainOf m.crypt m.info.iv (d.region m.info.actualSize)) = .ok dict
  same : m.info.actualSize = mi.actualSize → m.info = mi

/-- The instance, which is opened for writing, read the meta `k` write-backs ago. -/
structure Reads (crypt : Option Cipher) (d : Disk) (mi : MetaInfo) (m : MMKV) (k : ℕ) : Prop
    extends Shared crypt m where
  readOnly : m.readOnly = false
  needLoad : m.needLoad = false
  expiredSeconds : m.expiredSeconds = 0
  enableExpire : m.enableExpire = m.info.expireEnabled
  sequence : mi.sequence = m.info.sequence + UInt32.ofNat k
  snapshot : k = 0 → Snapshot d mi m

section Reads

variable {crypt : Option Cipher} {d d' : Disk} {mi mi' : MetaInfo} {dict : Dict} {m : MMKV} {k : ℕ}

lemma readActualSize_congr {n : ℕ} (hdata : m.data = ⟨n, true⟩) (h : slice d'.data 0 4 = slice d.data 0 4) :
    m.readActualSize d' = m.readActualSize d := by
  rw [MMKV.readActualSize, MMKV.readActualSize, hdata, MemoryFile.len_mapped]
  split
  · rfl
  · split
    · next hn =>
      rw [getUint32_eq_slice, getUint32_eq_slice, MemoryFile.memory, MemoryFile.memory, if_pos rfl, if_pos rfl,
        slice_take hn, slice_take hn, h]
    · rfl

lemma Snapshot.appended {pair : Bytes} (h : Snapshot d mi m) (hpair : pair ≠ [])
    (hdata : d'.data = patch d.data (4 + mi.actualSize.toNat) pair)
    (hsize : mi'.actualSize.toNat = mi.actualSize.toNat + pair.length) : Snapshot d' mi' m := by
  have hle := h.le
  have hpos := List.length_pos_iff.2 hpair
  have hregion : d'.region m.info.actualSize = d.region m.info.actualSize := by
    rw [Disk.region, hdata, slice_patch_of_le pair (by omega), Disk.region]
  refine ⟨?_, ?_, by omega, by rw [hregion]; exact h.crc, by rw [hregion]; exact h.decoded, fun he => ?_⟩
  · rw [hdata, length_patch]
    exact h.data
  · rw [← h.readActualSize]
    refine readActualSize_congr h.data ?_
    rw [hdata, slice_patch_of_le pair (by omega)]
  · rw [he] at hle
    omega

theorem Reads.evolves (h : Reads crypt d mi m k) (hev : Evolves true d mi d' mi') :
    Reads crypt d' mi' m (if mi'.sequence = mi.sequence then k else k + 1) := by
  cases hev with
  | unchanged hd hmi =>
    subst hd hmi
    rw [if_pos rfl]
    exact h
  | appended pair hpair hdata hroom hsize hmi =>
    have hseq : mi'.sequence = mi.sequence := by rw [hmi]
    rw [if_pos hseq]
    exact ⟨h.toShared, h.readOnly, h.needLoad, h.expiredSeconds, h.enableExpire, hseq.trans h.sequence,
      fun h0 => (h.snapshot h0).appended hpair hdata hsize⟩
  | overridden hsingle _ _ => cases hsingle
  | rewritten hseq _ _ =>
    rw [if_neg (by rw [hseq]; simp)]
    refine ⟨h.toShared, h.readOnly, h.needLoad, h.expiredSeconds, h.enableExpire, ?_, fun h0 => by omega⟩
    rw [hseq, h.sequence, UInt32.ofNat_add, UInt32.add_assoc]
    rfl

lemma Snapshot.choose_eq (h : Snapshot d mi m) (himage : Image crypt d mi dict) :
    choose d m = some (.current m.info.actualSize) := by
  have hfits := himage.fits
  have hbounded := himage.bounded
  have hle := h.le
  have haccepts : m.accepts d m.info.actualSize m.info.crcDigest = true :=
    (MMKV.accepts_iff h.data (by omega)).2 ⟨by omega, h.crc⟩
  rw [choose, h.readActualSize, checkRegion_eq m.info.crcDigest (fun _ => by omega), haccepts]

/-- **The decoding** of the region that was read of, after which the instance follows the files. -/
lemma Reads.follows_zero (h : Reads crypt d mi m 0) (himage : Image crypt d mi dict) :
    ∃ m', settle d m (.current m.info.actualSize) = (m', none) ∧ Follows crypt d mi m' 0 false ∧
      m'.expiredSeconds = 0 ∧ m'.readOnly = false := by
  have hfits := himage.fits
  have hbounded := himage.bounded
  have hs := h.snapshot rfl
  have hle := hs.le
  obtain ⟨dict', hdec⟩ := hs.decoded
  have hregion : m.region d m.info.actualSize = d.region m.info.actualSize :=
    MMKV.region_eq hs.data (by omega) (by omega)
  refine ⟨_, MMKV.decodeRegion_ok _ hregion hdec, ?_, h.expiredSeconds, h.readOnly⟩
  refine ⟨⟨h.crypt, h.multiProcess, h.closed, h.needFullWriteback⟩, fun _ _ => h.sequence,
    fun _ _ => hs.data, fun _ _ => hle, fun _ _ he => ?_⟩
  -- nothing was appended since the meta was read
  have hinfo := hs.same he
  have hown : parseDict (plainOf crypt mi.iv (d.region mi.actualSize)) = .ok dict' := by
    rw [← h.crypt, ← hinfo]
    exact hdec
  obtain rfl := Except.ok.inj (himage.decoded.symm.trans hown)
  have himage' : Image m.crypt d m.info dict := by
    rw [h.crypt, hinfo]
    exact himage
  exact ⟨himage', hs.data, rfl, rfl, h.enableExpire, h.needLoad, h.needFullWriteback, h.closed, rfl⟩

/-- **An open that a write-back overtook** is behind the files, whatever it loaded. -/
lemma Reads.follows_of_done {c : Choice} {m' : MMKV} (h : Reads crypt d mi m k) (hk : k ≠ 0)
    (hset : settle d m c = (m', none)) (hc : m.recover = true → c ≠ .neither) :
    Follows crypt d mi m' k false ∧ m'.expiredSeconds = 0 ∧ m'.readOnly = false := by
  rcases settle_done hset with ⟨dict, info, size, crc, hseq, rfl⟩ | ⟨hn, hr, -⟩
  · refine ⟨⟨⟨h.crypt, h.multiProcess, h.closed, h.needFullWriteback⟩, fun _ _ => ?_, ?_, ?_, ?_⟩,
      h.expiredSeconds, h.readOnly⟩
    · rw [hseq]
      exact h.sequence
    all_goals exact fun _ h0 => absurd h0 hk
  · exact absurd hn (hc hr)

end Reads

/-! ### One event -/

/-- What an open that came so far knows of the files, `k` write-backs after it read their meta. -/
def Opening.Knows (cfg : Config) (crypt : Option Cipher) (d : Disk) (mi : MetaInfo) (k : ℕ) : Opening → Prop
  | .begun | .dataMapped _ | .metaMapped _ => True
  | .metaRead m => Reads crypt d mi m k ∧ m.recover = cfg.recover
  | .checked m c => Reads crypt d mi m k ∧ (k = 0 → c = .current m.info.actualSize) ∧ (m.recover = true → c ≠ .neither)
  | .loaded ⟨m, _⟩ | .done (.ok m) => Follows crypt d mi m k false ∧ m.expiredSeconds = 0 ∧ m.readOnly = false
  | .done (.error _) => k ≠ 0
  | .killed => False

section Event

variable {ι : Type} [DecidableEq ι] {P : Platform} {cfg : Config} {crypt : Option Cipher} {r : Race ι} {s : Board ι}
  {d d' : Disk} {mi mi' : MetaInfo} {dict : Dict} {o : Opening} {k : ℕ}

omit [DecidableEq ι] in
lemma Opening.Knows.evolves (h : o.Knows cfg crypt d mi k) (hev : Evolves true d mi d' mi') :
    o.Knows cfg crypt d' mi' (if mi'.sequence = mi.sequence then k else k + 1) := by
  cases o with
  | begun | dataMapped data | metaMapped data => trivial
  | metaRead m => exact ⟨h.1.evolves hev, h.2⟩
  | checked m c =>
    refine ⟨h.1.evolves hev, fun h0 => h.2.1 ?_, h.2.2⟩
    split at h0 <;> omega
  | loaded a => exact ⟨h.1.evolves hev, h.2⟩
  | done res =>
    cases res with
    | ok m => exact ⟨h.1.evolves hev, h.2⟩
    | error e =>
      have hk : k ≠ 0 := h
      show (if mi'.sequence = mi.sequence then k else k + 1) ≠ 0
      split <;> omega
  | killed => exact h

theorem Opening.Knows.advance {sys : Sys} (h : o.Knows cfg crypt d mi k) (himage : Image crypt d mi dict)
    (hmulti : cfg.multiProcess = true) (hro : cfg.readOnly = false) (hkey : cfg.crypt P = crypt)
    (hmapped : ∀ data, o = .metaMapped data → data = ⟨d.data.length, true⟩)
    (hchecks : ∀ m, o = .metaRead m → (cfg.recover = true → k = 0) ∧ ∀ n ∈ [m.readActualSize d, m.info.lastActualSize],
      n.toNat + 4 ≤ m.data.len → n.toNat + 4 ≤ d.data.length)
    (hbacked : ∀ m c, o = .checked m c → backed d (c.touched m)) :
    (o.advance P cfg sys d).2.Knows cfg crypt (d.apply (o.advance P cfg sys d).1) mi (match (o.advance P cfg sys d).2 with
      | .metaRead _ => 0
      | _ => k) := by
  cases o with
  | begun | dataMapped data => trivial
  | metaMapped data =>
    obtain rfl := hmapped data rfl
    have hp := himage.fits
    have hlimit : ¬ maxSupportedVersion < mi.version := UInt32.not_lt.2 himage.readable.current.version_le
    simp only [Opening.advance, himage.parse, if_neg hlimit]
    refine ⟨⟨⟨hkey, hmulti, rfl, rfl⟩, hro, rfl, rfl, himage.readable.current.expire_eq, by simp, fun _ => ?_⟩, rfl⟩
    refine ⟨rfl, MMKV.readActualSize_of_versioned himage.readable.current rfl (by omega), le_rfl, himage.crc,
      ⟨dict, ?_⟩, fun _ => rfl⟩
    rw [← himage.decoded, ← hkey]
    rfl
  | metaRead m =>
    obtain ⟨hreads, hrecover⟩ := h
    obtain ⟨hsalvage, hin⟩ := hchecks m rfl
    obtain ⟨c, hchoose, -⟩ := choose_spec hin
    simp only [Opening.advance, hchoose]
    refine ⟨hreads, fun h0 => ?_, fun hr hn => ?_⟩
    · exact Option.some.inj (hchoose.symm.trans ((hreads.snapshot h0).choose_eq himage))
    · have h0 := hsalvage (hrecover.symm.trans hr)
      rw [(hreads.snapshot h0).choose_eq himage, hn] at hchoose
      cases hchoose
  | checked m c =>
    obtain ⟨hreads, hcurrent, hneither⟩ := h
    have hb := hbacked m c rfl
    by_cases h0 : k = 0
    · subst h0
      obtain ⟨m', hset, hfollows⟩ := hreads.follows_zero himage
      rw [← hcurrent rfl] at hset
      simp only [Opening.advance, hb, if_true, hset]
      exact hfollows
    · cases hset : settle d m c with
      | mk m' err =>
        cases err with
        | some e =>
          simp only [Opening.advance, hb, if_true, hset]
          exact h0
        | none =>
          simp only [Opening.advance, hb, if_true, hset]
          exact hreads.follows_of_done h0 hset hneither
  | loaded a =>
    have hfull : a.m.needFullWriteback = false := h.1.needFullWriteback
    simp only [Opening.advance, hfull, Bool.false_eq_true, if_false]
    exact h
  | done res => exact h
  | killed => exact h

/-- All that an open which does not repair stores is zeros at the end of the ".crc" file. -/
lemma Opening.Knows.stores (h : o.Knows cfg crypt d mi k) (hfloor : P.pageSize ≤ d.data.length) (sys : Sys) :
    ∃ b, d.apply (o.advance P cfg sys d).1 = ⟨d.data, d.crc ++ b⟩ := by
  have hnone : d = ⟨d.data, d.crc ++ []⟩ := by rw [List.append_nil]
  cases o with
  | begun =>
    rw [Opening.advance, pageRoundUp_zero, if_neg (by omega)]
    exact ⟨[], hnone⟩
  | dataMapped data =>
    rw [Opening.advance]
    split
    · next hlt => exact ⟨List.replicate (pageRoundUp P metaSize - d.crc.length) 0, by
        simp only [Disk.apply_cons, Disk.apply_nil, Disk.write, resize_of_le (Nat.le_of_lt hlt)]⟩
    · exact ⟨[], hnone⟩
  | metaMapped data =>
    refine ⟨[], ?_⟩
    rw [Opening.advance]
    split
    · exact hnone
    · split <;> exact hnone
  | metaRead m =>
    refine ⟨[], ?_⟩
    rw [Opening.advance]
    split <;> exact hnone
  | done res => exact ⟨[], hnone⟩
  | checked m c =>
    refine ⟨[], ?_⟩
    rw [Opening.advance]
    split
    · split <;> exact hnone
    · exact hnone
  | loaded a =>
    -- what was not salvaged is not repaired
    have hfull : a.m.needFullWriteback = false := h.1.needFullWriteback
    rw [Opening.advance, if_neg (by rw [hfull]; decide)]
    exact ⟨[], hnone⟩
  | killed => exact h.elim

omit [DecidableEq ι] in
lemma Served.padded {w : Cluster ι} (h : Served P crypt w s mi dict) (hopen : ∃ i m, w.inst i = some m) (b : Bytes) :
    Served P crypt (w.stored ⟨w.disk.data, w.disk.crc ++ b⟩) s mi dict := by
  obtain ⟨i, m, hm⟩ := hopen
  obtain ⟨himage, hfloor⟩ := h.holds i m hm
  have himage' : Image crypt ⟨w.disk.data, w.disk.crc ++ b⟩ mi dict :=
    himage.extend (List.append_nil _).symm rfl
  refine ⟨.inl himage', h.content, fun _ _ _ => ⟨himage', hfloor⟩, fun j mj hj => ?_, h.seconds, h.backup⟩
  simp only [Cluster.stored, sequenceOf_image himage', sequenceOf_image himage, if_true]
  exact (h.follows j mj hj).congr himage himage' rfl

lemma Served.other {w : Cluster ι} {a : Move ι} (h : Served P crypt w s mi dict) (hok : a.OK P crypt w)
    (ha : (∃ i op sys, a = .call i op sys) ∨ ∃ i sys, a = .read i sys) :
    ∃ mi' dict', Served P crypt (w.step P a) (s.step a) mi' dict' ∧ Evolves true w.disk mi (w.step P a).disk mi' ∧
      ∃ i m, (w.step P a).inst i = some m := by
  rcases ha with ⟨i, op, sys, rfl⟩ | ⟨i, sys, rfl⟩
  · obtain ⟨m, hm, -⟩ := hok.2.2.2
    have hinst : (w.step P (.call i op sys)).inst i = some (m.exec P sys w.disk op).m := by
      rw [Cluster.step_call_eq P hm, Cluster.put_inst_self]
    cases hop : accesses op with
    | true =>
      obtain ⟨mi', dict', h', hev⟩ := step_call h hop hok
      exact ⟨mi', dict', h', hev, i, _, hinst⟩
    | false =>
      obtain ⟨hwrites, -⟩ := (h.follows i m hm).setting hop P sys
      have hdisk : (w.step P (.call i op sys)).disk = w.disk := by
        rw [Cluster.step_call_eq P hm, hwrites]
        rfl
      exact ⟨mi, dict, step_setting h hop hok, .unchanged hdisk rfl, i, _, hinst⟩
  · obtain ⟨m, hm⟩ := hok.2.2
    have hread : w.step P (.read i sys) = w.put i w.disk (some (m.get sys w.disk (fun _ => ()) ()).1) true := by
      rw [Cluster.step, hm]
    refine ⟨mi, dict, step_read h hok, .unchanged (by rw [hread]; rfl) rfl, i, (m.get sys w.disk (fun _ => ()) ()).1, ?_⟩
    rw [hread, Cluster.put_inst_self]

/-- The files hold the one map, the other instances follow them, and the open knows what it may. -/
def Racing (P : Platform) (cfg : Config) (crypt : Option Cipher) (r : Race ι) (s : Board ι) : Prop :=
  ∃ mi dict, Served P crypt r.others s mi dict ∧ (∃ i m, r.others.inst i = some m) ∧
    r.opening.Knows cfg crypt r.others.disk mi r.missed

theorem step_racing {a : Event ι} (h : Racing P cfg crypt r s) (hmulti : cfg.multiProcess = true)
    (hro : cfg.readOnly = false) (hkey : cfg.crypt P = crypt) (hok : a.OK P cfg crypt r) :
    Racing P cfg crypt (r.step P cfg a) (s.follow a) := by
  obtain ⟨mi, dict, hserved, hopen, hknows⟩ := h
  obtain ⟨i, m, hm⟩ := hopen
  obtain ⟨himage, hfloor⟩ := hserved.holds i m hm
  cases a with
  | other a =>
    obtain ⟨mi', dict', hserved', hev, j, mj, hj⟩ := hserved.other hok.1 hok.2
    refine ⟨mi', dict', hserved', ⟨j, mj, hj⟩, ?_⟩
    have hknows' := hknows.evolves hev
    rw [← sequenceOf_image himage, ← sequenceOf_image (hserved'.holds j mj hj).1] at hknows'
    exact hknows'
  | advance sys =>
    obtain ⟨b, hstores⟩ := hknows.stores hfloor sys
    have hserved' := hserved.padded ⟨i, m, hm⟩ b
    rw [← hstores] at hserved'
    refine ⟨mi, dict, hserved', ⟨i, m, hm⟩, ?_⟩
    have hcond : Event.OK P cfg crypt r (.advance sys) := hok
    rw [Event.OK] at hcond
    refine hknows.advance himage hmulti hro hkey (fun data ho => ?_) (fun m' ho => ?_) fun m' c ho => ?_
    all_goals
      rw [ho] at hcond
      exact hcond

/-- Whether an event is a step of the open. -/
def Event.isAdvance : Event ι → Bool
  | .other _ => false
  | .advance _ => true

lemma left_run (acts : List (Event ι)) :
    (run (Race.step P cfg) r acts).opening.left ≤ r.opening.left - acts.countP Event.isAdvance := by
  induction acts generalizing r with
  | nil => exact le_rfl
  | cons a acts ih =>
    rw [run_cons]
    refine Nat.le_trans (ih (r := r.step P cfg a)) ?_
    cases a with
    | other a => exact le_rfl
    | advance sys =>
      have hleft : (r.step P cfg (.advance sys)).opening.left ≤ r.opening.left - 1 := r.opening.left_advance
      rw [List.countP_cons_of_pos rfl]
      omega

lemma missed_run_le (P : Platform) (cfg : Config) (r : Race ι) (acts : List (Event ι)) :
    (run (Race.step P cfg) r acts).missed ≤ r.missed + acts.length := by
  induction acts generalizing r with
  | nil => exact le_rfl
  | cons a acts ih =>
    have hstep : (r.step P cfg a).missed ≤ r.missed + 1 := by
      cases a with
      | other a =>
        simp only [Race.step]
        split <;> omega
      | advance sys =>
        simp only [Race.step]
        split <;> omega
    have hrun := ih (r.step P cfg a)
    rw [run_cons, List.length_cons]
    omega

/-- The files are mapped, and the mapping is that of the file as it is now. -/
def Opening.InFile (d : Disk) : Opening → Prop
  | .begun | .dataMapped _ => False
  | .metaMapped data => data = ⟨d.data.length, true⟩ ∧ 4 ≤ d.data.length
  | .metaRead m => m.data = ⟨d.data.length, true⟩ ∧ 4 ≤ d.data.length
  | .checked m c => backed d (c.touched m)
  | .loaded _ | .done _ | .killed => True

lemma Opening.InFile.advance {sys : Sys} (h : o.InFile d) :
    (o.advance P cfg sys d).2.InFile (d.apply (o.advance P cfg sys d).1) := by
  cases o with
  | begun | dataMapped data => exact h.elim
  | metaMapped data =>
    rw [Opening.advance]
    split
    · trivial
    · split
      · trivial
      · exact h
  | metaRead m =>
    obtain ⟨hdata, h4⟩ : m.data = ⟨d.data.length, true⟩ ∧ 4 ≤ d.data.length := h
    have hlen : m.data.len = d.data.length := by rw [hdata]; rfl
    obtain ⟨c, hchoose, -, htouched⟩ := choose_spec (d := d) (m := m) fun n _ hn => by omega
    have hle : 4 + c.touched m ≤ d.data.length := by have := htouched (by omega); omega
    simp only [Opening.advance, hchoose]
    exact decide_eq_true (.inr hle)
  | checked m c =>
    have hb : backed d (c.touched m) = true := h
    simp only [Opening.advance, hb, if_true]
    split <;> trivial
  | loaded a =>
    rw [Opening.advance, Opening.repair]
    split
    · split
      · trivial
      · dsimp only
        split <;> trivial
    · trivial
  | done res | killed => trivial

lemma ok_advances {sys : Sys} (hrecover : cfg.recover = false) (h : r.opening.InFile r.others.disk) (n : ℕ) :
    Along (Event.OK P cfg crypt) (Race.step P cfg) r (List.replicate n (.advance sys)) := by
  induction n generalizing r with
  | zero => trivial
  | succ n ih =>
    refine ⟨?_, ih h.advance⟩
    rw [Event.OK]
    cases ho : r.opening with
    | metaMapped data =>
      rw [ho] at h
      exact h.1
    | metaRead m =>
      rw [ho] at h
      refine ⟨fun hr => ?_, fun k _ hk => ?_⟩
      · rw [hrecover] at hr
        cases hr
      · rw [h.1] at hk
        exact hk
    | checked m c =>
      rw [ho] at h
      exact h
    | _ => trivial

omit [DecidableEq ι] in
/-- **The first set** through an instance that follows the files. -/
lemma Follows.first_set {m : MMKV} {sys : Sys} {key : Bytes} {v : Value} (h : Follows crypt d mi m k false)
    (hk : k < 2 ^ 32) (himage : Image crypt d mi dict) (hro : m.readOnly = false) (hsys : sys.OK) (hne : key ≠ [])
    (hlt : 4 + ((Op.set key v).regionAfter sys d (m.checkLoadData d sys)).length < 2 ^ 32) :
    (m.exec P sys d (.set key v)).err = none ∧ ∃ mi' dict',
      Image crypt (d.apply (m.exec P sys d (.set key v)).writes) mi' dict' ∧
      (⟨OrdMap.lookup dict, mi.expireEnabled⟩ : Content).after sys m.expiredSeconds (.set key v) =
        ⟨OrdMap.lookup dict', mi'.expireEnabled⟩ := by
  have hup := checkLoadData_upToDate himage h.toShared (h.recognises (h.tells hk)) hsys.remap
  have hsynced := hup.synced_of_writable hro
  rw [exec_of_accesses h.toShared hro hsynced rfl]
  have heffect := exec_effect (P := P) hsynced hsys (show (Op.set key v).Good _ from hne) hlt (by simp)
  have himage' := heffect.synced.image
  rw [heffect.crypt] at himage'
  refine ⟨heffect.err, _, _, by rw [← hup.crypt]; exact himage', ?_⟩
  have hafter := heffect.content
  rw [hup.content, hup.expiredSeconds] at hafter
  rw [← hafter, MMKV.content, heffect.synced.enableExpire]

/-- **A multi-process open among writers**: it changes nothing that the store holds, it fails only if a write-back overtook
it, and the first call on its instance has the map that the others made. -/
theorem open_among_writers {acts₀ : List (Move ι)} {acts : List (Event ι)} (hstored : Stored crypt d mi dict)
    (hacts₀ : Along (Move.OK P crypt) (Cluster.step P) (Cluster.init d) acts₀) (hmulti : cfg.multiProcess = true)
    (hro : cfg.readOnly = false) (hkey : cfg.crypt P = crypt)
    (hopen : ∃ i m, (run (Cluster.step P) (Cluster.init d) acts₀).inst i = some m)
    (hacts : Along (Event.OK P cfg crypt) (Race.step P cfg) ⟨run (Cluster.step P) (Cluster.init d) acts₀, .begun, 0⟩
      acts) :
    let r := run (Race.step P cfg) ⟨run (Cluster.step P) (Cluster.init d) acts₀, .begun, 0⟩ acts
    let board := run Board.follow (run Board.step (Board.init ⟨OrdMap.lookup dict, mi.expireEnabled⟩) acts₀) acts
    (6 ≤ acts.countP Event.isAdvance → ∃ res, r.opening = .done res) ∧
    (∀ e, r.opening = .done (.error e) → r.missed ≠ 0) ∧
    ∃ mi' dict', Image crypt r.others.disk mi' dict' ∧ board.content = ⟨OrdMap.lookup dict', mi'.expireEnabled⟩ ∧
      ∀ m sys, r.opening = .done (.ok m) → r.missed < 2 ^ 32 → sys.OK →
        (m.checkLoadData r.others.disk sys).content = board.content ∧
        (∀ (α : Type) (getter : View → α) (zero : α),
          (m.get sys r.others.disk getter zero).2 = getter ⟨dict', board.content.expire, sys.now⟩) ∧
        ∀ key v, key ≠ [] →
          4 + ((Op.set key v).regionAfter sys r.others.disk (m.checkLoadData r.others.disk sys)).length < 2 ^ 32 →
          (m.exec P sys r.others.disk (.set key v)).err = none ∧ ∃ mi'' dict'',
            Image crypt (r.others.disk.apply (m.exec P sys r.others.disk (.set key v)).writes) mi'' dict'' ∧
            board.content.after sys 0 (.set key v) = ⟨OrdMap.lookup dict'', mi''.expireEnabled⟩ := by
  obtain ⟨mi₀, dict₀, hserved₀⟩ : ∃ mi₀ dict₀, Served P crypt (run (Cluster.step P) (Cluster.init d) acts₀)
      (run Board.step (Board.init ⟨OrdMap.lookup dict, mi.expireEnabled⟩) acts₀) mi₀ dict₀ :=
    hacts₀.simulation (R := fun w s => ∃ mi dict, Served P crypt w s mi dict)
      (fun _ _ _ ⟨_, _, h⟩ hok => step_served h hok) ⟨mi, dict, served_init hstored⟩
  intro r board
  have hracing : Racing P cfg crypt r board :=
    hacts.simulation (fun _ _ _ h hok => step_racing h hmulti hro hkey hok) ⟨mi₀, dict₀, hserved₀, hopen, trivial⟩
  obtain ⟨mi', dict', hserved, ⟨i, mi₁, hi⟩, hknows⟩ := hracing
  have himage := (hserved.holds i mi₁ hi).1
  refine ⟨fun hsix => ?_, fun e he => ?_, mi', dict', himage, hserved.content, fun m sys hm hmissed hsys => ?_⟩
  · have hleft : r.opening.left ≤ 6 - acts.countP Event.isAdvance := left_run acts
    cases ho : r.opening with
    | done res => exact ⟨res, rfl⟩
    | killed =>
      rw [ho] at hknows
      exact hknows.elim
    | _ =>
      rw [ho] at hleft
      simp only [Opening.left] at hleft
      omega
  · rw [he] at hknows
    exact hknows
  · rw [hm] at hknows
    obtain ⟨hfollows, hsec, hwritable⟩ := hknows
    have hup := checkLoadData_upToDate himage hfollows.toShared (hfollows.recognises (hfollows.tells hmissed)) hsys.remap
    rw [hserved.content]
    refine ⟨hup.content, fun _ getter zero => hup.get hfollows.closed getter zero, fun key v hne hlt => ?_⟩
    rw [← hsec]
    exact hfollows.first_set hmissed himage hwritable hsys hne hlt

end Event

/-! ### One writer and one open -/

/-- One process has opened an absent store. -/
def oneOpen : Cluster Unit := ⟨freshDisk linux, fun _ => some (shared.fresh linux), fun _ => 0, none, false⟩

lemma open_one : run (Cluster.step linux) (Cluster.init ⟨[], []⟩) [.start () shared calm] = oneOpen := by
  rw [run_cons, run_nil, Cluster.step_start_eq _ rfl (start_absent rfl)]
  simp only [Cluster.put, Cluster.init, oneOpen, Cluster.mk.injEq, true_and, and_true]
  constructor <;> funext j <;> simp

/-- Another process maps the files of the store, then the first one sets a key, then the open is completed. -/
def setWhileOpening (key : Bytes) (v : Value) : List (Event Unit) :=
  .advance calm :: .advance calm :: .other (.call () (.set key v) calm) :: List.replicate 4 (.advance calm)

lemma stored_self (w : Cluster Unit) : w.stored w.disk = w := by simp [Cluster.stored]

lemma mapped_oneOpen : ((⟨oneOpen, .begun, 0⟩ : Race Unit).step linux shared (.advance calm)).step linux shared
    (.advance calm) = ⟨oneOpen, .metaMapped ⟨4096, true⟩, 0⟩ := by
  have hdata : oneOpen.disk.data.length = 4096 := List.length_replicate
  have hcrc : oneOpen.disk.crc.length = pageRoundUp linux metaSize := List.length_replicate
  have hfirst : (⟨oneOpen, .begun, 0⟩ : Race Unit).step linux shared (.advance calm) =
      ⟨oneOpen, .dataMapped ⟨4096, true⟩, 0⟩ := by
    have hpage : pageRoundUp linux 0 = 4096 := pageRoundUp_zero linux
    rw [Race.step]
    simp only [Opening.advance, hdata, hpage, Nat.lt_irrefl, if_false, Disk.apply_nil, stored_self, Nat.max_self]
  rw [hfirst, Race.step]
  simp only [Opening.advance, hcrc, Nat.lt_irrefl, if_false, Disk.apply_nil, stored_self]

lemma load_ok {P : Platform} {s : Sys} {d : Disk} {m m' : MMKV} (h : m.loadData d = (m', none))
    (hfull : m'.needFullWriteback = false) : m.load P s d = ([], .ok m') := by
  simp [MMKV.load, h, hfull]

lemma set_mapped (key : Bytes) (v : Value) :
    let res := (shared.fresh linux).exec linux calm (freshDisk linux) (.set key v)
    ∃ w k, (⟨oneOpen, .metaMapped ⟨4096, true⟩, 0⟩ : Race Unit).step linux shared (.other (.call () (.set key v) calm)) =
        ⟨w, .metaMapped ⟨4096, true⟩, k⟩ ∧
      w.disk = (freshDisk linux).apply res.writes ∧ w.inst () = some res.m := by
  have hcall := Cluster.step_call_eq linux (show oneOpen.inst () = some (shared.fresh linux) from rfl) (.set key v) calm
  rw [show oneOpen.disk = freshDisk linux from rfl] at hcall
  have hput : ∀ (w : Cluster Unit) d m, (w.put () d m true).disk = d := fun _ _ _ => rfl
  rw [Race.step, hcall]
  exact ⟨_, _, rfl, hput .., Cluster.put_inst_self ..⟩

lemma run_setWhileOpening (key : Bytes) (v : Value) (hpage : 4096 ≤ ((freshDisk linux).apply
    ((shared.fresh linux).exec linux calm (freshDisk linux) (.set key v)).writes).data.length) :
    let r := run (Race.step linux shared) ⟨oneOpen, .begun, 0⟩ (setWhileOpening key v)
    let res := (shared.fresh linux).exec linux calm (freshDisk linux) (.set key v)
    let load := (shared.instance linux ⟨4096, true⟩).load linux calm ((freshDisk linux).apply res.writes)
    r.others.disk = ((freshDisk linux).apply res.writes).apply load.1 ∧ r.opening = .done load.2 ∧
      r.others.inst () = some res.m := by
  intro r res load
  obtain ⟨w, k, hw, hdisk, hinst⟩ := set_mapped key v
  have hr : r = run (Race.step linux shared) ⟨w, .metaMapped ⟨4096, true⟩, k⟩ (List.replicate 4 (.advance calm)) := by
    simp only [r, setWhileOpening, run_cons, mapped_oneOpen, hw]
  obtain ⟨hdisk', hopening, hinst'⟩ := run_load (P := linux) calm
    (show shared.readOnly = false from rfl) w ⟨4096, true⟩ rfl (by decide) (by rw [hdisk]; exact hpage) (by decide) k
  rw [hdisk] at hdisk' hopening
  rw [hr]
  exact ⟨hdisk', hopening, by rw [hinst', hinst]⟩

lemma setWhileOpening_ok : Along (Event.OK linux shared none) (Race.step linux shared) ⟨oneOpen, .begun, 0⟩
    (setWhileOpening [97] (.bool true)) := by
  obtain ⟨-, hfirst, -⟩ := first_set (P := linux) (show shared.readOnly = false from rfl) calm_ok [97]
    (.bool true) (by simp) (by decide)
  obtain ⟨w, k, hw, hdisk, -⟩ := set_mapped [97] (.bool true)
  rw [hfirst] at hdisk
  have hlen : w.disk.data.length = 4096 := by
    rw [hdisk]
    exact MMKV.length_rewritten ..
  have htells : oneOpen.Tells () := fun _ _ _ _ => .inr (.inl rfl)
  refine ⟨trivial, trivial, ?_⟩
  rw [mapped_oneOpen]
  refine ⟨⟨⟨calm_ok, by simp, fun _ => htells, _, rfl, by simp [Op.Good], fun _ => ⟨rfl, set_fresh_bounded rfl⟩⟩,
    .inl ⟨_, _, _, rfl⟩⟩, ?_⟩
  rw [hw]
  have hin : (Opening.metaMapped ⟨4096, true⟩).InFile w.disk := ⟨by rw [hlen], by rw [hlen]; decide⟩
  exact ok_advances rfl hin 4

/-- A set of a value that fits the first page, between the mapping of the data file and the read of the meta. -/
theorem set_seen_by_open :
    let r := run (Race.step linux shared)
      ⟨run (Cluster.step linux) (Cluster.init ⟨[], []⟩) [.start () shared calm], .begun, 0⟩
      (setWhileOpening [97] (.bool true))
    ∃ m, r.opening = .done (.ok m) ∧ (m.get calm r.others.disk (fun v => v.getBool [97]) none).2 = some true := by
  have hstart : Along (Move.OK linux none) (Cluster.step linux) (Cluster.init ⟨[], []⟩ : Cluster Unit)
      [.start () shared calm] := ⟨⟨rfl, rfl, rfl, by simp [shared]⟩, trivial⟩
  obtain ⟨-, hfirst, hsynced⟩ := first_set (P := linux) (show shared.readOnly = false from rfl) calm_ok [97]
    (.bool true) (by simp) (by decide)
  have himage := hsynced.image
  have hlen : (shared.firstDisk linux calm [97] (.bool true)).data.length = 4096 := MMKV.length_rewritten ..
  obtain ⟨-, hopening, -⟩ := run_setWhileOpening [97] (.bool true) (by rw [hfirst, hlen])
  have hfits := himage.fits
  rw [hlen] at hfits
  have hload := MMKV.loadData_of_image (m := shared.instance linux ⟨4096, true⟩) himage rfl hfits
  rw [hfirst, load_ok hload rfl] at hopening
  obtain ⟨-, -, mi, dict, -, hcontent, hcalls⟩ := open_among_writers (.inr ⟨blank_absent, rfl, rfl⟩) hstart
    (show shared.multiProcess = true from rfl) rfl rfl (by rw [open_one]; exact ⟨(), _, rfl⟩)
    (by rw [open_one]; exact setWhileOpening_ok)
  have hmissed := missed_run_le linux shared ⟨oneOpen, .begun, 0⟩ (setWhileOpening [97] (.bool true))
  rw [open_one] at hcalls ⊢
  obtain ⟨-, hget, -⟩ := hcalls _ calm hopening (Nat.lt_of_le_of_lt hmissed (by decide)) calm_ok
  refine ⟨_, hopening, (hget _ _ _).trans ?_⟩
  have hslot : dict[([97] : Bytes)]? = some [1] := (congrFun (congrArg Content.slots hcontent) [97]).symm
  exact Value.readAs_of_value (v := .bool true) (by decide) (by simp only [View.value, hslot]; rfl)

/-- The set of the large value falls between the mapping of the data file and the read of the meta.  The open maps the first
page and knows the new sequence number, so it discards the map, and no access maps the file again. -/
theorem stale_mapping_hides_updates :
    let r := run (Race.step linux shared)
      ⟨run (Cluster.step linux) (Cluster.init ⟨[], []⟩) [.start () shared calm], .begun, 0⟩ (setWhileOpening [98] big)
    (∃ m, r.others.inst () = some m ∧ m.dict[([98] : Bytes)]? = some big.blob) ∧
      ∃ m, r.opening = .done (.ok m) ∧ (m.get calm r.others.disk (fun v => v.contains [98]) true).2 = false := by
  obtain ⟨mi, hr, hact⟩ := first_set_big
  have hlong := hr.image.fits
  obtain ⟨hdisk, hopening, hinst⟩ := run_setWhileOpening [98] big (by omega)
  have hdict := congrArg MMKV.dict hr.instance_eq
  rw [open_one]
  generalize (shared.fresh linux).exec linux calm (freshDisk linux) (.set [98] big) = res at hr hdict hdisk hopening hinst
  have hshort : 4096 < 4 + mi.actualSize.toNat := by omega
  have hlast : 4096 < 4 + mi.lastActualSize.toNat := by rw [hr.lastActualSize]; omega
  have hload := MMKV.loadData_discard (m := shared.instance linux ⟨4096, true⟩) hr.image.parse hr.version rfl
    (MMKV.not_accepts_of_lt rfl hshort) (MMKV.not_accepts_of_lt rfl hlast)
  have hopen := load_ok (P := linux) (s := calm) hload rfl
  rw [hopen, Disk.apply_nil] at hdisk
  rw [hopen] at hopening
  refine ⟨⟨_, hinst, ?_⟩, _, hopening, ?_⟩
  · rw [hdict]
    exact ExtTreeMap.getElem?_insert_self
  · rw [hdisk]
    refine get_contains_of_empty rfl (checkLoadData_discard hr.image.parse hr.version rfl rfl rfl rfl ?_ rfl hshort hlast)
    intro he
    have : mi.actualSize.toNat = 0 := congrArg UInt32.toNat he
    omega

end MmkvGo.Multi
