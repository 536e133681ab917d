import MmkvGo.Crash.Lapsed

/-!
The processes of a plaintext store, any of which may be killed in the middle of a call on the append path, any number of
times; the others go on, and a killed one may open the store again.  A kill leaves the map before the call, the map
after it, or, between the two meta words, the map of the last write-back; the processes that go on see that map from
their next access on (`killed_run_serves`).

What is asked of the CRC is that an instance that is behind is told (`Cluster.Tells`), and that torn files do not become
valid by the bytes of another append that was cut.
-/

namespace MmkvGo.Crash

open MmkvGo.Lib MmkvGo.Wire MmkvGo.Crypt MmkvGo.Store MmkvGo.Multi Std

/-! ### The system -/

/-- What happens to the processes of a store. -/
inductive Incident (ι : Type) where
  | move (a : Move ι)
  /-- The process is killed after the first `n` stores of a call. -/
  | kill (i : ι) (op : Op) (sys : Sys) (n : ℕ)

/-- The processes and their files, the map that they are to serve, and the last write-back. -/
structure Chronicle (ι : Type) where
  cluster : Cluster ι
  board : Board ι
  last : Snapshot

section System

variable {ι : Type} [DecidableEq ι] (P : Platform)

/-- The processes after `i` was killed and left the files `d`.  Where that tore them, the others are a step behind, and the
sequence number does not count it. -/
def killed (w : Cluster ι) (i : ι) (d : Disk) : Cluster ι :=
  if torn d && !torn w.disk then ⟨d, Function.update w.inst i none, fun j => w.behind j + 1, w.backup, true⟩
  else w.put i d none true

def Chronicle.step (l : Chronicle ι) : Incident ι → Chronicle ι
  | .move a =>
    ⟨l.cluster.step P a, l.board.step a,
      l.last.after l.cluster.disk (l.cluster.step P a).disk (l.board.step a).content⟩
  | .kill i op sys n =>
    match l.cluster.inst i with
    | none => l
    | some m =>
      let stores := (m.exec P sys l.cluster.disk op).writes
      let d := l.cluster.disk.apply (stores.take n)
      let content :=
        if stores.length ≤ n then l.board.content.after sys (l.board.seconds i) op
        else if torn d then l.last.content
        else l.board.content
      ⟨killed l.cluster i d, { l.board with content := content }, l.last⟩

/-- No process has opened the files yet. -/
def Chronicle.init (d : Disk) : Chronicle ι := ⟨Cluster.init d, Board.init .empty, .empty⟩

/-- The condition on an incident: a step as in a run without kills, that copies no files; or a kill in a call on the append
path, of an instance that is open for writing, that sets no empty key and leaves a region below 4 GiB, where the cut
stores of two appends do not have the CRC of one. -/
def Incident.OK (l : Chronicle ι) : Incident ι → Prop
  | .move a => a.OK P none l.cluster ∧ a ≠ .backup ∧ ∀ i, a ≠ .restore i
  | .kill i op sys n => sys.OK ∧ (∀ v, op ≠ .set [] v) ∧ l.cluster.Tells i ∧
      ∃ m, l.cluster.inst i = some m ∧ m.readOnly = false ∧ Appends sys (m.checkLoadData l.cluster.disk sys) op ∧
        4 + (op.regionAfter sys l.cluster.disk (m.checkLoadData l.cluster.disk sys)).length < 2 ^ 32 ∧
        (torn l.cluster.disk = true → (m.exec P sys l.cluster.disk op).writes.length ≤ n ∨
          torn (l.cluster.disk.apply ((m.exec P sys l.cluster.disk op).writes.take n)) = true)

/-- The processes, as if the files were `d`. -/
def asIf (w : Cluster ι) (d : Disk) : Cluster ι := { w with disk := d }

/-- The processes serve the map, and the files have the last write-back. -/
structure Upheld (w : Cluster ι) (s : Board ι) (last : Snapshot) (mi : MetaInfo) (dict : Dict) : Prop where
  served : Served P none w s mi dict
  confirmed : Confirmed none mi last
  standing : Standing w.disk mi last
  stamped : ∀ dict, parseDict last.region = .ok dict → Stamped mi dict

/-- The same of the files that the accesses work on, which have the last write-back alone where the files are torn. -/
structure Sound (l : Chronicle ι) (d : Disk) (mi : MetaInfo) (dict : Dict) : Prop where
  loads : LoadsAs l.cluster.disk d mi
  upheld : Upheld P (asIf l.cluster d) l.board l.last mi dict
  fallen : torn l.cluster.disk = true → Holds P none d mi dict ∧ l.board.content = l.last.content

/-- There are such files. -/
def Chronicle.Kept (l : Chronicle ι) : Prop := ∃ d mi dict, Sound P l d mi dict

end System

lemma torn_of_stored {crypt : Option Cipher} {d : Disk} {mi : MetaInfo} {dict : Dict} (h : Stored crypt d mi dict) :
    torn d = false := by
  rcases h with himage | ⟨hblank, -, -⟩
  · exact torn_of_image himage
  · rcases parseMeta_blank hblank with hparse | hparse
    · rw [Bool.eq_false_iff, ne_eq, torn_of_parse hparse, not_not, show blankMeta.actualSize = 0 from rfl,
        Disk.region_zero]
      decide
    · rw [torn, hparse]

section Steps

variable {ι : Type} {P : Platform} {w : Cluster ι} {s : Board ι} {last : Snapshot} {d : Disk} {mi : MetaInfo}
  {dict : Dict} {l : Chronicle ι} {i : ι} {m : MMKV}

/-- **A step that evolves the files** keeps the last write-back, or makes a new one. -/
theorem Upheld.evolves {w' : Cluster ι} {s' : Board ι} {mi' : MetaInfo} {dict' : Dict} (h : Upheld P w s last mi dict)
    (h' : Served P none w' s' mi' dict') (himage : Image none w'.disk mi' dict') (hev : Evolves true w.disk mi w'.disk mi') :
    Upheld P w' s' (last.after w.disk w'.disk s'.content) mi' dict' := by
  have hseq := h.served.stored.sequenceOf_eq
  refine ⟨h', ?_, h.standing.evolves hseq himage hev _, fun dict₀ hdec => ?_⟩
  · rw [h'.content]
    exact h.confirmed.next hseq himage (hev.last.imp_left fun hkeep => ⟨rfl, hkeep.1⟩)
  · rw [Snapshot.after, sequenceOf_image himage, hseq] at hdec
    rcases hev.last with ⟨hkeep, -⟩ | hconfirms
    · rw [KeepsLast] at hkeep
      rw [hkeep, if_pos rfl] at hdec
      have hstamped := h.stamped dict₀ hdec
      rw [hkeep]
      exact hstamped
    · rw [hconfirms.sequence, if_neg (by simp), currentRegion_of_parse himage.parse] at hdec
      obtain rfl : dict' = dict₀ := Except.ok.inj (himage.decoded.symm.trans hdec)
      exact himage.stamped

lemma Sound.upToDate {sys : Sys} (h : Sound P l d mi dict) (hm : l.cluster.inst i = some m) (htells : l.cluster.Tells i)
    (hsys : sys.remap = none) : UpToDate none d mi dict m (m.checkLoadData l.cluster.disk sys) :=
  h.loads.upToDate (h.upheld.served.holds i m hm).1 (h.upheld.served.follows i m hm)
    (fun mi₀ hparse => htells m mi₀ hm hparse) hsys

lemma after_loadsAs (last : Snapshot) {d₀ d₁ d₁' : Disk} {mi₁ : MetaInfo} (h : LoadsAs d₀ d mi) (h₁ : LoadsAs d₁ d₁' mi₁)
    (htorn : torn d₁ = true → sequenceOf d₁' = sequenceOf d) (c : Content) : last.after d₀ d₁ c = last.after d d₁' c := by
  rw [Snapshot.after, Snapshot.after, ← h.sequenceOf_eq, ← h₁.sequenceOf_eq]
  cases h₁ with
  | whole => rfl
  | lapsed hl => rw [if_pos (htorn hl.torn), if_pos (htorn hl.torn)]

lemma Sound.evolved {w' : Cluster ι} {s' : Board ι} {d' : Disk} {mi' : MetaInfo} {dict' : Dict} (h : Sound P l d mi dict)
    (hloads : LoadsAs w'.disk d' mi') (htorn : torn w'.disk = true → torn l.cluster.disk = true ∧ d' = d)
    (himage : Image none d' mi' dict') (hev : Evolves true d mi d' mi') (h' : Served P none (asIf w' d') s' mi' dict')
    (hlast : l.last.after l.cluster.disk w'.disk s'.content = last) : Sound P ⟨w', s', last⟩ d' mi' dict' := by
  rw [← hlast, after_loadsAs l.last h.loads hloads fun ht => by rw [(htorn ht).2]]
  refine ⟨hloads, h.upheld.evolves h' himage hev, fun ht => ?_⟩
  -- nothing was stored, so the map is the one before
  obtain ⟨hbefore, rfl⟩ := htorn ht
  obtain ⟨hholds, hfallen⟩ := h.fallen hbefore
  obtain ⟨rfl, rfl⟩ := himage.unique hholds.1
  refine ⟨hholds, ?_⟩
  rw [Snapshot.after_self, ← hfallen, h'.content, h.upheld.served.content]

variable [DecidableEq ι]

lemma asIf_put {d₁ d' : Disk} (hd : sequenceOf d = sequenceOf w.disk) (hd' : sequenceOf d' = sequenceOf d₁)
    (i : ι) (m : Option MMKV) (seen : Bool) : asIf (w.put i d₁ m seen) d' = (asIf w d).put i d' m seen := by
  simp only [asIf, Cluster.put, hd, hd']

lemma put_close (w : Cluster ι) (i : ι) (d : Disk) (m : Option MMKV) :
    (w.put i d m true).step P (.close i) = w.put i d none true := by
  simp only [Cluster.step, Cluster.put, Function.update_idem, Cluster.mk.injEq, true_and, and_true]
  funext j
  simp

lemma Sound.quiet {a : Move ι} (h : Sound P l d mi dict) (hdisk : (l.cluster.step P a).disk = l.cluster.disk)
    (hcontent : (l.board.step a).content = l.board.content)
    (h' : Served P none (asIf (l.cluster.step P a) d) (l.board.step a) mi dict) : Sound P (l.step P (.move a)) d mi dict := by
  rw [Chronicle.step, hdisk, Snapshot.after_self]
  refine ⟨by rw [hdisk]; exact h.loads, ⟨h', h.upheld.confirmed, h.upheld.standing, h.upheld.stamped⟩, fun ht => ?_⟩
  rw [hdisk] at ht
  exact ⟨(h.fallen ht).1, hcontent.trans (h.fallen ht).2⟩

lemma Sound.called {op : Op} {sys : Sys} (h : Sound P l d mi dict) (hm : l.cluster.inst i = some m)
    (htells : l.cluster.Tells i) (hsys : sys.OK) (hkey : ∀ newKey, op ≠ .reKey newKey) (hop : accesses op = true)
    (hro : m.readOnly = false) (hgood : op.Good (m.checkLoadData l.cluster.disk sys))
    (hlt : 4 + (op.regionAfter sys l.cluster.disk (m.checkLoadData l.cluster.disk sys)).length < 2 ^ 32) :
    let r := m.exec P sys l.cluster.disk op
    ∃ mi' dict', (LoadsAs (l.cluster.disk.apply r.writes) (d.apply r.writes) mi' ∧
        (torn (l.cluster.disk.apply r.writes) = true → torn l.cluster.disk = true ∧ d.apply r.writes = d)) ∧
      Image none (d.apply r.writes) mi' dict' ∧ Evolves true d mi (d.apply r.writes) mi' ∧
      Served P none ((asIf l.cluster d).put i (d.apply r.writes) (some r.m) true) (l.board.step (.call i op sys)) mi'
        dict' := by
  intro r
  have hup := h.upToDate hm htells hsys.remap
  have hshaped : Shaped (m.exec P sys l.cluster.disk op).writes := shaped_exec op
  have hexec : m.exec P sys l.cluster.disk op = _ :=
    exec_loadsAs (P := P) h.loads.data (h.upheld.served.follows i m hm).toShared hro (hup.synced_of_writable hro) hop
  have hcache : op ≠ .clearMemoryCache := by
    rintro rfl
    cases hop
  have heffect := Store.exec_effect (P := P) (hup.synced_of_writable hro) hsys hgood
    (by rw [Op.regionAfter_congr h.loads.data]; exact hlt) hcache
  rw [← hexec] at heffect
  have hin : (asIf l.cluster d).inst i = some m := hm
  obtain ⟨hserved, hev⟩ := h.upheld.served.called hin hup hkey heffect
  have himage := (hserved.holds i _ (Cluster.put_inst_self ..)).1
  exact ⟨_, _, h.loads.apply hshaped himage hev, himage, hev, hserved⟩

/-! ### Steps of the processes -/

/-- **A process opens the store**, for writing or for reading only. -/
lemma sound_start {cfg : Config} {sys : Sys} (h : Sound P l d mi dict)
    (hok : (Move.start i cfg sys).OK P none l.cluster) :
    Sound P (l.step P (.move (.start i cfg sys))) (d.apply (cfg.openStores P d)) mi dict := by
  obtain ⟨hnone, hmulti, hkey, hro⟩ := hok
  -- the files that are accessed have the sizes that the open asks for
  have hok' : (Move.start i cfg sys).OK P none (asIf l.cluster d) :=
    ⟨hnone, hmulti, hkey, by rw [show (asIf l.cluster d).disk = d from rfl, h.loads.data, h.loads.length_crc]; exact hro⟩
  have hserved := step_start h.upheld.served hok'
  obtain ⟨hvirtual, hholds, -⟩ := h.upheld.served.opened hok'
  have hstored : Stored (cfg.crypt P) d mi dict := by rw [hkey]; exact h.upheld.served.stored
  have hp4 := P.four_le_pageSize
  obtain ⟨hopen, hloads, htorn⟩ := h.loads.opened hstored (fun hc => ⟨hp4.trans (hro hc).1, (hro hc).2⟩) sys
  have hstart : l.cluster.step P (.start i cfg sys) =
      l.cluster.put i (l.cluster.disk.apply (cfg.openStores P l.cluster.disk))
        (some (cfg.opened P (d.apply (cfg.openStores P d)) mi dict)) true := by
    rw [Cluster.step, hnone]
    simp only [hopen, Except.toOption]
  have hover : asIf (l.cluster.step P (.start i cfg sys)) (d.apply (cfg.openStores P d)) =
      (asIf l.cluster d).step P (.start i cfg sys) := by
    rw [hstart, hvirtual]
    exact asIf_put h.loads.sequenceOf_eq hloads.sequenceOf_eq ..
  have hlast : l.last.after l.cluster.disk (l.cluster.step P (.start i cfg sys)).disk
      (l.board.step (.start i cfg sys)).content = l.last := by
    refine if_pos ?_
    rw [hstart]
    exact hloads.sequenceOf_eq.symm.trans ((sequenceOf_image hholds.1).trans
      (h.upheld.served.stored.sequenceOf_eq.symm.trans h.loads.sequenceOf_eq))
  rw [Chronicle.step, hlast]
  refine ⟨by rw [hstart]; exact hloads, ⟨by rw [hover]; exact hserved, h.upheld.confirmed, ?_, h.upheld.stamped⟩, ?_⟩
  · exact h.upheld.standing.opened h.upheld.served.stored cfg
  · intro ht
    rw [hstart] at ht
    exact ⟨hholds, (h.fallen (htorn ht)).2⟩

lemma sound_call {op : Op} {sys : Sys} (h : Sound P l d mi dict) (hop : accesses op = true)
    (hok : (Move.call i op sys).OK P none l.cluster) :
    (l.step P (.move (.call i op sys))).Kept P := by
  obtain ⟨hsys, hkey, htells, m, hm, hgood, hlt⟩ := hok
  obtain ⟨mi', dict', ⟨hloads, htorn⟩, himage, hev, hserved⟩ :=
    h.called hm (htells hop) hsys hkey hop (hlt hop).1 hgood (hlt hop).2
  rw [Chronicle.step, Cluster.step_call_eq P hm, hop]
  refine ⟨_, mi', dict', h.evolved hloads htorn himage hev ?_ rfl⟩
  rw [asIf_put h.loads.sequenceOf_eq hloads.sequenceOf_eq]
  exact hserved

lemma sound_setting {op : Op} {sys : Sys} (h : Sound P l d mi dict) (hop : accesses op = false)
    (hok : (Move.call i op sys).OK P none l.cluster) : Sound P (l.step P (.move (.call i op sys))) d mi dict := by
  obtain ⟨hsys, hkey, -, m, hm, -⟩ := hok
  have hwrites : (m.exec P sys d op).writes = [] := ((h.upheld.served.follows i m hm).setting hop P sys).1
  -- it does not look at the files
  have hexec : m.exec P sys l.cluster.disk op = m.exec P sys d op := by
    cases op with
    | sync | clearMemoryCache | enableCompareBeforeSet | disableCompareBeforeSet => rfl
    | _ => cases hop
  have hgood : op.Good (m.checkLoadData d sys) := by
    cases op with
    | sync | clearMemoryCache | enableCompareBeforeSet | disableCompareBeforeSet => trivial
    | _ => cases hop
  have hsame : (l.board.step (.call i op sys)).content = l.board.content := by
    cases op with
    | sync | clearMemoryCache | enableCompareBeforeSet | disableCompareBeforeSet => rfl
    | _ => cases hop
  have hstep : l.cluster.step P (.call i op sys) = l.cluster.put i l.cluster.disk (some (m.exec P sys d op).m) false := by
    rw [Cluster.step_call_eq P hm, hexec, hwrites, hop]
    rfl
  have hin : (asIf l.cluster d).inst i = some m := hm
  have hok' : (Move.call i op sys).OK P none (asIf l.cluster d) :=
    ⟨hsys, hkey, by simp [hop], m, hin, hgood, by simp [hop]⟩
  have hvirtual := step_setting h.upheld.served hop hok'
  refine h.quiet (by rw [hstep]; rfl) hsame ?_
  rw [hstep, asIf_put h.loads.sequenceOf_eq h.loads.sequenceOf_eq]
  rw [Cluster.step_call_eq P hin, show (asIf l.cluster d).disk = d from rfl, hwrites, hop] at hvirtual
  exact hvirtual

theorem sound_move {a : Move ι} (h : Sound P l d mi dict) (hok : (Incident.move a).OK P l) :
    (l.step P (.move a)).Kept P := by
  obtain ⟨hok, hbackup, hrestore⟩ := hok
  have hover := asIf_put h.loads.sequenceOf_eq h.loads.sequenceOf_eq
  cases a with
  | backup => exact absurd rfl hbackup
  | restore i => exact absurd rfl (hrestore i)
  | start i cfg sys => exact ⟨_, _, _, sound_start h hok⟩
  | close i =>
    refine ⟨d, mi, dict, h.quiet rfl rfl ?_⟩
    rw [Cluster.step, hover]
    exact step_close h.upheld.served
  | read i sys =>
    obtain ⟨hsys, htells, m, hm⟩ := hok
    have hget : (m.get sys l.cluster.disk (fun _ => ()) ()).1 = m.checkLoadData l.cluster.disk sys := by
      simp [MMKV.get, (h.upheld.served.follows i m hm).closed]
    have hstep : l.cluster.step P (.read i sys) =
        l.cluster.put i l.cluster.disk (some (m.checkLoadData l.cluster.disk sys)) true := by
      rw [Cluster.step, hm]
      simp only [hget]
    refine ⟨d, mi, dict, h.quiet (by rw [hstep]; rfl) rfl ?_⟩
    rw [hstep, hover]
    exact h.upheld.served.probed hm (h.upToDate hm htells hsys)
  | call i op sys =>
    cases hop : accesses op with
    | true => exact sound_call h hop hok
    | false => exact ⟨d, mi, dict, sound_setting h hop hok⟩

/-! ### Kills -/

omit [DecidableEq ι] in
/-- The files after some of the stores of an append, but not all: some bytes after the region, and perhaps another CRC. -/
lemma apply_cut {mi₀ : MetaInfo} (hparse : parseMeta d.crc = .ok mi₀) (m : MMKV) {pair : Bytes} {n : ℕ}
    (hn : n < (m.appendRaw pair).1.length) :
    ∃ bs c, (d.apply ((m.appendRaw pair).1.take n)).data = patch d.data (4 + m.actualSize.toNat) bs ∧
      parseMeta (d.apply ((m.appendRaw pair).1.take n)).crc = .ok { mi₀ with crcDigest := c } := by
  rcases apply_cut_appendRaw d m hn with ht | ht <;> rw [ht]
  · exact ⟨pair.take n, mi₀.crcDigest, rfl, hparse⟩
  · exact ⟨pair, _, rfl, parseMeta_putUint32_crc hparse _⟩

omit [DecidableEq ι] in
lemma region_after {d₁ : Disk} {bs : Bytes} {n : ℕ} {size : UInt32} (hdata : d₁.data = patch d.data (4 + n) bs)
    (hle : size.toNat ≤ n) : d₁.region size = d.region size := by
  rw [Disk.region, hdata]
  exact slice_patch_of_le bs (by omega)

lemma Upheld.patched {d₁ : Disk} {bs : Bytes} (h : Upheld P w s last mi dict) (hm : w.inst i = some m)
    (hver : mi.version = versionFlag) (hdata : d₁.data = patch w.disk.data (4 + mi.actualSize.toNat) bs)
    (hparse : parseMeta d₁.crc = .ok mi) :
    Holds P none d₁ mi dict ∧ Upheld P (w.put i d₁ none true) s last mi dict := by
  obtain ⟨himage, hfloor⟩ := h.served.holds i m hm
  have hlen : d₁.data.length = w.disk.data.length := by rw [hdata, length_patch]
  have hregion := region_after hdata (Nat.le_refl mi.actualSize.toNat)
  have himage₁ : Image none d₁ mi dict :=
    ⟨⟨hparse, .inl hver, by rw [hlen]; exact himage.fits, himage.bounded, by rw [hregion, himage.crc]⟩,
      by rw [hregion, himage.decoded], himage.stamped⟩
  have hbehind : ∀ j, j ≠ i → (w.put i d₁ none true).behind j = w.behind j := by
    intro j hij
    simp [Cluster.put, hij, sequenceOf_image himage₁, sequenceOf_image himage]
  have hinst : ∀ j mj, (w.put i d₁ none true).inst j = some mj → j ≠ i ∧ w.inst j = some mj := by
    intro j mj hj
    rcases put_inst hj with ⟨rfl, ⟨⟩⟩ | hother
    exact hother
  have hholds : Holds P none d₁ mi dict := ⟨himage₁, by rw [hlen]; exact hfloor⟩
  refine ⟨hholds, ⟨.inl himage₁, h.served.content, fun _ _ _ => hholds, fun j mj hj => ?_,
    fun j mj hj => h.served.seconds j mj (hinst j mj hj).2, h.served.backup⟩, h.confirmed, ?_, h.stamped⟩
  · obtain ⟨hij, hmj⟩ := hinst j mj hj
    rw [hbehind j hij]
    exact (h.served.follows j mj hmj).congr himage himage₁ hlen
  · refine ⟨?_, h.standing.le⟩
    rw [← h.standing.region]
    exact region_after hdata h.standing.le

/-- **A kill between the two words**: the files have the last write-back, which is news to every process. -/
lemma Upheld.tears {d₁ : Disk} {bs : Bytes} {c : UInt32} (h : Upheld P w s last mi dict) (hm : w.inst i = some m)
    (hver : mi.version = versionFlag) (hdata : d₁.data = patch w.disk.data (4 + mi.actualSize.toNat) bs)
    (hparse : parseMeta d₁.crc = .ok { mi with crcDigest := c }) (htorn : torn d₁ = true) :
    Lapsed d₁ { mi with crcDigest := c } ∧ ∃ dict', Holds P none (rolledBack d₁ { mi with crcDigest := c })
        (lastConfirmed { mi with crcDigest := c }) dict' ∧
      Upheld P ⟨rolledBack d₁ { mi with crcDigest := c }, Function.update w.inst i none, fun j => w.behind j + 1, w.backup,
        true⟩ { s with content := last.content } last (lastConfirmed { mi with crcDigest := c }) dict' := by
  obtain ⟨himage, hfloor⟩ := h.served.holds i m hm
  have hlen : d₁.data.length = w.disk.data.length := by rw [hdata, length_patch]
  have hlapsed : Lapsed d₁ { mi with crcDigest := c } :=
    ⟨hparse, hver, by rw [hlen]; exact himage.fits, himage.bounded, (torn_of_parse hparse).1 htorn,
      h.standing.le⟩
  have hregion : d₁.region mi.lastActualSize = last.region := by
    rw [← h.standing.region]
    exact region_after hdata h.standing.le
  obtain ⟨dict', hdec, hcontent⟩ := h.confirmed.map
  have himage' := image_rolledBack hlapsed (h.confirmed.congr rfl rfl rfl) hregion hdec (h.stamped dict' hdec)
  have hholds : Holds P none (rolledBack d₁ { mi with crcDigest := c }) _ dict' :=
    ⟨himage', by rw [show (rolledBack d₁ _).data = d₁.data from rfl, hlen]; exact hfloor⟩
  have hinst : ∀ j mj, Function.update w.inst i none j = some mj → w.inst j = some mj := by
    intro j mj hj
    by_cases hij : j = i
    · subst hij
      rw [Function.update_self] at hj
      cases hj
    · rwa [Function.update_of_ne hij] at hj
  refine ⟨hlapsed, dict', hholds, ⟨.inl himage', hcontent, fun _ _ _ => hholds, fun j mj hj => ?_,
    fun j mj hj => h.served.seconds j mj (hinst j mj hj), h.served.backup⟩, h.confirmed.congr rfl rfl rfl, ⟨hregion, le_rfl⟩,
    fun dict₀ hdec => h.stamped dict₀ hdec⟩
  exact (h.served.follows j mj (hinst j mj hj)).restore

theorem Sound.cut {d₁ : Disk} {bs : Bytes} {mi₀ : MetaInfo} {c : UInt32} (h : Sound P l d mi dict)
    (hm : l.cluster.inst i = some m) (hver : mi.version = versionFlag) (hparse₀ : parseMeta l.cluster.disk.crc = .ok mi₀)
    (hdata : d₁.data = patch l.cluster.disk.data (4 + mi.actualSize.toNat) bs)
    (hparse : parseMeta d₁.crc = .ok { mi₀ with crcDigest := c })
    (htorn : torn l.cluster.disk = true → torn d₁ = true) :
    (Chronicle.mk (killed l.cluster i d₁)
      { l.board with content := if torn d₁ then l.last.content else l.board.content } l.last).Kept P := by
  have hlen : d₁.data.length = l.cluster.disk.data.length := by rw [hdata, length_patch]
  cases hloads : h.loads with
  | whole =>
    have himage : Image none l.cluster.disk mi dict := (h.upheld.served.holds i m hm).1
    obtain rfl : mi₀ = mi := Except.ok.inj (hparse₀.symm.trans himage.parse)
    have hbefore : torn l.cluster.disk = false := torn_of_image himage
    by_cases ht : torn d₁ = true
    · obtain ⟨hlapsed, dict', hholds, hupheld⟩ := h.upheld.tears hm hver hdata hparse ht
      have hkilled : killed l.cluster i d₁ =
          ⟨d₁, Function.update l.cluster.inst i none, fun j => l.cluster.behind j + 1, l.cluster.backup, true⟩ :=
        if_pos (by simp [ht, hbefore])
      rw [hkilled, if_pos ht]
      exact ⟨_, _, dict', .lapsed hlapsed, hupheld, fun _ => ⟨hholds, rfl⟩⟩
    · -- the CRC word is the one that was there
      have hcrc : c = mi₀.crcDigest := by
        have hregion := region_after hdata (Nat.le_refl mi₀.actualSize.toNat)
        rw [torn_of_parse hparse, not_not] at ht
        exact ht.symm.trans ((congrArg Crc32.checksum hregion).trans himage.crc)
      have hkilled : killed l.cluster i d₁ = l.cluster.put i d₁ none true := if_neg (by simp [ht])
      rw [hcrc] at hparse
      rw [hkilled, if_neg ht]
      exact ⟨d₁, mi₀, dict, .whole, (h.upheld.patched hm hver hdata hparse).2, fun ht' => absurd ht' ht⟩
  | @lapsed mi' hold =>
    obtain rfl : mi₀ = mi' := Except.ok.inj (hparse₀.symm.trans hold.parse)
    have ht := htorn hold.torn
    have hlapsed : Lapsed d₁ { mi₀ with crcDigest := c } :=
      ⟨hparse, hold.version, by rw [hlen]; exact hold.fits, hold.bounded,
        (torn_of_parse hparse).1 ht, hold.le⟩
    have hkilled : killed l.cluster i d₁ = l.cluster.put i d₁ none true := if_neg (by simp [hold.torn])
    have hboard : { l.board with content := l.last.content } = l.board := by rw [← (h.fallen hold.torn).2]
    have hdata' : (rolledBack d₁ { mi₀ with crcDigest := c }).data =
        patch (rolledBack l.cluster.disk mi₀).data (4 + (lastConfirmed mi₀).actualSize.toNat) bs := hdata
    obtain ⟨hholds, hupheld⟩ := h.upheld.patched hm hver hdata' (parseMeta_rolledBack hparse)
    rw [← asIf_put h.loads.sequenceOf_eq (LoadsAs.lapsed hlapsed).sequenceOf_eq] at hupheld
    rw [hkilled, if_pos ht, hboard]
    exact ⟨_, _, dict, .lapsed hlapsed, hupheld, fun _ => ⟨hholds, (h.fallen hold.torn).2⟩⟩

omit [DecidableEq ι] in
lemma LoadsAs.parse {d₀ : Disk} {crypt : Option Cipher} (h : LoadsAs d₀ d mi) (himage : Image crypt d mi dict) :
    ∃ mi₀, parseMeta d₀.crc = .ok mi₀ := by
  cases h with
  | whole => exact ⟨mi, himage.parse⟩
  | lapsed h => exact ⟨_, h.parse⟩

omit [DecidableEq ι] in
lemma sequenceOf_appends {ws : List Write} {mi₀ : MetaInfo} (hparse : parseMeta d.crc = .ok mi₀)
    (hws : ws = [] ∨ ∃ pair, ws = (m.appendRaw pair).1) : sequenceOf (d.apply ws) = sequenceOf d := by
  rcases hws with rfl | ⟨pair, rfl⟩
  · rfl
  · have hwords := parseMeta_putUint32_crc_size hparse (Crc32.update m.crcDigest pair)
      (m.actualSize + UInt32.ofNat pair.length)
    have hcrc : (d.apply (m.appendRaw pair).1).crc = putUint32 (putUint32 d.crc offCRC (Crc32.update m.crcDigest pair))
        offActualSize (m.actualSize + UInt32.ofNat pair.length) := by
      rw [MMKV.appendRaw, Disk.apply_append, Disk.apply_dataWrites]
      rfl
    rw [sequenceOf, sequenceOf, hcrc, hwords, hparse]

omit [DecidableEq ι] in
lemma Appends.not_settings {sys : Sys} {op : Op} (h : Appends sys m op) :
    (∀ newKey, op ≠ .reKey newKey) ∧ ∀ expire seconds, op.secondsAfter expire seconds = seconds := by
  cases op with
  | set key v | removeValueForKey key => exact ⟨fun newKey he => (by cases he), fun _ _ => rfl⟩
  | _ => cases h

theorem sound_kill {op : Op} {sys : Sys} {n : ℕ} (h : Sound P l d mi dict) (hok : (Incident.kill i op sys n).OK P l) :
    (l.step P (.kill i op sys n)).Kept P := by
  obtain ⟨hsys, hset, htells, m, hm, hro, happends, hlt, hcollide⟩ := hok
  have hup := h.upToDate hm htells hsys.remap
  have himage : Image none d mi dict := (h.upheld.served.holds i m hm).1
  obtain ⟨mi₀, hparse₀⟩ := h.loads.parse himage
  have hop := happends.accesses
  have hsynced := hup.synced_of_writable hro
  obtain ⟨hpos, hwrites⟩ := happends.writes (P := P) hsynced hup.multiProcess
  obtain ⟨hkey, hseconds⟩ := happends.not_settings
  rw [← exec_loadsAs h.loads.data (h.upheld.served.follows i m hm).toShared hro hsynced hop] at hwrites
  simp only [Chronicle.step, hm]
  by_cases hn : (m.exec P sys l.cluster.disk op).writes.length ≤ n
  · -- the call was done
    obtain ⟨mi', dict', ⟨hloads, htorn⟩, himage', hev, hserved⟩ :=
      h.called hm htells hsys hkey hop hro (Op.good_of_plaintext hset hup.crypt) hlt
    rw [List.take_of_length_le hn, if_pos hn]
    generalize m.exec P sys l.cluster.disk op = r at *
    have hkilled : killed l.cluster i (l.cluster.disk.apply r.writes) =
        l.cluster.put i (l.cluster.disk.apply r.writes) none true := by
      refine if_neg fun hnew => ?_
      rw [Bool.and_eq_true, Bool.not_eq_true'] at hnew
      rw [(htorn hnew.1).1] at hnew
      cases hnew.2
    have hboard : l.board.step (.call i op sys) =
        { l.board with content := l.board.content.after sys (l.board.seconds i) op } := by
      rw [Board.step, hseconds, Function.update_eq_self]
    have hclosed := step_close (i := i) hserved
    rw [put_close, show (l.board.step (.call i op sys)).step (.close i) = l.board.step (.call i op sys) from rfl, hboard,
      ← asIf_put h.loads.sequenceOf_eq hloads.sequenceOf_eq] at hclosed
    rw [hkilled]
    exact ⟨_, mi', dict', h.evolved hloads htorn himage' hev hclosed (if_pos (sequenceOf_appends hparse₀ hwrites))⟩
  · rw [if_neg hn]
    obtain ⟨pair, he⟩ := hwrites.resolve_left fun he => hn (by rw [he]; exact Nat.zero_le n)
    rw [he] at hn hcollide ⊢
    obtain ⟨bs, c, hdata, hparse⟩ := apply_cut hparse₀ (m.checkLoadData l.cluster.disk sys) (Nat.lt_of_not_le hn)
    rw [hsynced.actualSize, hup.info] at hdata
    rw [hup.info] at hpos
    exact h.cut hm (himage.version_eq hpos) hparse₀ hdata hparse fun ht => (hcollide ht).resolve_left hn

/-! ### Runs -/

theorem step_kept {e : Incident ι} (h : l.Kept P) (hok : e.OK P l) : (l.step P e).Kept P := by
  obtain ⟨d, mi, dict, h⟩ := h
  cases e with
  | move a => exact sound_move h hok
  | kill i op sys n => exact sound_kill h hok

omit [DecidableEq ι] in
lemma kept_init (hblank : Blank d) : (Chronicle.init d : Chronicle ι).Kept P := by
  have hback : Backed P (Cluster.init d : Cluster ι) (Board.init .empty) .empty := backed_init hblank
  obtain ⟨⟨mi, dict, hserved, hlast, hstanding⟩, -, -⟩ := hback
  refine ⟨d, mi, dict, .whole, ⟨hserved, hlast, hstanding, fun dict₀ hdec => ?_⟩, fun ht => ?_⟩
  · have hempty : parseDict (Snapshot.empty.region) = .ok ∅ := rfl
    obtain rfl : ∅ = dict₀ := Except.ok.inj (hempty.symm.trans hdec)
    intro _ k v hv
    simp at hv
  · cases (torn_of_stored hserved.stored).symm.trans ht

/-- **Processes that are killed.**  After any run of any number of processes, any of which was killed in the middle of an
append any number of times, the processes that are left serve the map that the calls and the kills left, and so does
every process that opens the store. -/
theorem killed_run_serves {incidents : List (Incident ι)} (hblank : Blank d)
    (hincidents : Along (Incident.OK P) (Chronicle.step P) (Chronicle.init d) incidents) :
    let l := run (Chronicle.step P) (Chronicle.init d) incidents
    (∃ dict, OrdMap.lookup dict = l.board.content.slots ∧ ∀ i m sys, l.cluster.inst i = some m → sys.remap = none →
      l.cluster.Tells i → (m.checkLoadData l.cluster.disk sys).content = l.board.content ∧
        ∀ (α : Type) (getter : View → α) (zero : α),
          (m.get sys l.cluster.disk getter zero).2 = getter ⟨dict, l.board.content.expire, sys.now⟩) ∧
      ∀ cfg sys, cfg.readOnly = false → cfg.cryptKey = [] →
        ∃ m, (World.start P cfg sys l.cluster.disk).inst = .ok m ∧ m.content = l.board.content := by
  obtain ⟨d', mi, dict, h⟩ := hincidents.invariant (fun _ _ => step_kept) (kept_init hblank)
  intro l
  have hcontent := h.upheld.served.content
  refine ⟨⟨dict, by rw [hcontent], fun i m sys hm hsys htells => ?_⟩, fun cfg sys hro hplain => ?_⟩
  · have hup := h.upToDate hm htells hsys
    rw [hcontent]
    exact ⟨hup.content, fun _ getter zero => hup.get (h.upheld.served.follows i m hm).closed getter zero⟩
  · have hcfg : cfg.crypt P = none := by rw [Config.crypt, if_pos hplain]
    have hstored : Stored (cfg.crypt P) d' mi dict := by rw [hcfg]; exact h.upheld.served.stored
    refine ⟨_, congrArg Prod.snd (h.loads.opened hstored (by simp [hro]) sys).1, ?_⟩
    rw [hcontent]
    rfl

lemma along_moves {acts : List (Move ι)} (h : Linear P l.cluster s)
    (hacts : Along (Move.Plain P) (Cluster.step P) l.cluster acts) :
    Along (Incident.OK P) (Chronicle.step P) l (acts.map .move) ∧
      (run (Chronicle.step P) l (acts.map .move)).cluster = run (Cluster.step P) l.cluster acts := by
  induction acts generalizing l s with
  | nil => exact ⟨trivial, rfl⟩
  | cons a acts ih =>
    obtain ⟨hplain, hacts⟩ := hacts
    obtain ⟨⟨mi, dict, hserved⟩, hr, hbehind⟩ := id h
    have hcopies : a ≠ .backup ∧ ∀ i, a ≠ .restore i := by
      cases a with
      | backup | restore i => cases hplain.2
      | _ => simp
    obtain ⟨hrest, hcluster⟩ := ih (l := l.step P (.move a)) (step_linear h hplain) hacts
    exact ⟨⟨⟨hplain.ok hserved hr hbehind, hcopies⟩, hrest⟩, hcluster⟩

end Steps

/-! ### A kill between the two words -/

/-- Two processes open an absent store, and the first one sets a key and is killed while it appends a second. -/
def setThenKilled : List (Incident Bool) := openBothAndSet.map .move ++ [.kill true (.set [98] (.bool true)) calm 5]

lemma along_setThenKilled : Along (Incident.OK linux) (Chronicle.step linux) (Chronicle.init ⟨[], []⟩) setThenKilled := by
  have hback : Backed linux (Chronicle.init ⟨[], []⟩ : Chronicle Bool).cluster (Board.init .empty) .empty :=
    backed_init blank_absent
  have hlinear : Linear linux (Chronicle.init ⟨[], []⟩ : Chronicle Bool).cluster (Board.init .empty) := by
    obtain ⟨⟨mi, dict, hserved, -⟩, hr, hbehind⟩ := hback
    exact ⟨⟨mi, dict, hserved⟩, hr, hbehind⟩
  obtain ⟨hmoves, hcluster⟩ := along_moves hlinear openBothAndSet_plain
  obtain ⟨⟨mi, dict, hserved⟩, hr, hbehind⟩ :=
    Along.simulation (fun _ _ _ => step_linear) hlinear openBothAndSet_plain
  rw [show (Chronicle.init ⟨[], []⟩ : Chronicle Bool).cluster = Cluster.init ⟨[], []⟩ from rfl, run_openBothAndSet] at *
  refine along_append.2 ⟨hmoves, ⟨calm_ok, by simp, ?_, shared.afterFirst linux calm [97] (.bool true), ?_, rfl, ?_,
    ?_, ?_⟩, trivial⟩
  · rw [hcluster]
    exact tells_of_behind hserved hr (hbehind true)
  · rw [hcluster]
    rfl
  · rw [hcluster]
    exact appends_afterFirst [98] (by decide +kernel)
  · rw [hcluster]
    exact appendB_bounded
  · intro ht
    rw [hcluster, torn_of_stored hserved.stored] at ht
    cases ht

theorem setThenKilled_serves :
    let l := run (Chronicle.step linux) (Chronicle.init ⟨[], []⟩) setThenKilled
    ∃ m, (World.start linux defaults calm l.cluster.disk).inst = .ok m ∧ m.content = l.board.content := by
  obtain ⟨-, hopen⟩ := killed_run_serves blank_absent along_setThenKilled
  exact hopen defaults calm rfl rfl

end MmkvGo.Crash
