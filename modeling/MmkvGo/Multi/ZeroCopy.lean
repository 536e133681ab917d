import MmkvGo.Multi.Linear
import MmkvGo.Store.Aliases

/-!
Slices of a file that other processes write.  Between two accesses of an instance another process may store through its
own mapping what it likes: into the region that the slices of this instance lie in, and past a new end of the file.  The
slices then show something else or nothing at all, and it is the freshness probe that keeps them from being read.

`Current` says what is left in between: an instance that has seen every write-back, and whose region has the size of
that of the files, has slices that show its dict.  An append of another process makes the sizes differ, a write-back
puts the instance behind, and a probe that finds neither has nothing to load (`checkLoadData_showsMap`).
-/

namespace MmkvGo.Multi

open MmkvGo.Lib MmkvGo.Wire MmkvGo.Crypt MmkvGo.Store Std

section Probe

variable {crypt : Option Cipher} {d : Disk} {mi : MetaInfo} {dict : Dict} {m : MMKV} {k : ℕ} {restored : Bool}
  {sys : Sys}

/-- The slices show the map of the files. -/
def ShowsMap (d : Disk) (mi : MetaInfo) (dict : Dict) (v : Views) : Prop :=
  OrdMap.Related (Slice.Shows v.mapping d.data (4 + mi.actualSize.toNat)) v.slices dict

lemma UpToDate.points {m' : MMKV} {v : Views} (h : UpToDate crypt d mi dict m m') :
    Points d m' v ↔ ShowsMap d mi dict v := by
  rw [Points, ShowsMap, show m'.actualSize = _ from h.synced.actualSize, show m'.writable.info = _ from h.info, h.dict]

/-- **The probe of an instance that is told of what it missed** leaves slices that show the map of the files: those that
it has made anew, or those that it had where it has missed nothing. -/
theorem checkLoadData_showsMap (v : Views) (himage : Image crypt d mi dict) (hf : Follows crypt d mi m k restored)
    (htells : Tells d mi m k) (hsys : sys.remap = none)
    (hcurrent : m.needLoad = false → k = 0 → m.actualSize = mi.actualSize → Points d m v) :
    ShowsMap d mi dict (v.checkLoadData sys d m) := by
  have himage' : Image m.crypt d mi dict := by
    rw [hf.crypt]
    exact himage
  rw [Views.checkLoadData]
  by_cases hload : m.needLoad = true
  · rw [if_pos hload]
    exact v.reload_points (m := { m with needLoad := false }) himage' hsys
  have hfalse : m.needLoad = false := by simpa using hload
  rw [if_neg hload, hf.multiProcess, himage.parse]
  simp only [Bool.not_true, Bool.false_eq_true, if_false]
  by_cases hseq : mi.sequence = m.info.sequence
  · rw [if_neg (not_not.2 hseq)]
    by_cases hnew : mi.crcDigest ≠ m.crcDigest ∨ mi.actualSize ≠ m.actualSize
    · -- the files only grew, so the mapping is still the whole file
      have hdata : m.data = ⟨d.data.length, true⟩ := by
        rcases hf.recognises htells with h | h | h | h
        · exact absurd h hload
        · exact absurd hseq h
        · exact h.1
        · exact h.data
      rw [if_pos hnew, Views.reloadBestEffort, if_neg (by decide)]
      exact v.loadData_points himage' hdata himage.fits
    · rw [if_neg hnew]
      obtain ⟨-, hsize⟩ := not_or.1 hnew
      have hzero : k = 0 := by
        rcases htells with h | h | h | h
        · exact absurd h hload
        · exact h
        · exact absurd hseq h
        · exact absurd h.2 hnew
      have hsize' : m.actualSize = mi.actualSize := (not_not.1 hsize).symm
      have hup := upToDate_self (hf.synced hfalse hzero hsize') hf.toShared himage
      exact hup.points.1 (hcurrent hfalse hzero hsize')
  · rw [if_pos hseq]
    exact v.reload_points himage' hsys

end Probe

/-! ### The processes with their slices -/

/-- The cluster, and the slices of each of its instances. -/
structure AliasedCluster (ι : Type) where
  cluster : Cluster ι
  views : ι → Views

section Step

variable {ι : Type} [DecidableEq ι] (P : Platform)

/-- The cluster after a step of `i` that left the files `d` and the instance `a`. -/
def AliasedCluster.put (w : AliasedCluster ι) (i : ι) (d : Disk) (a : Aliased) (seen : Bool) : AliasedCluster ι :=
  ⟨w.cluster.put i d (some a.m) seen, Function.update w.views i a.v⟩

/-- One step, on the slices; `none` is a fault. -/
def AliasedCluster.step (w : AliasedCluster ι) : Move ι → Option (AliasedCluster ι)
  | .start i cfg sys =>
    match w.cluster.inst i with
    | some _ => some w
    | none =>
      (openAliased P sys cfg w.cluster.disk).map fun r =>
        match r.2 with
        | .error _ => ⟨w.cluster.put i (w.cluster.disk.apply r.1) none true, w.views⟩
        | .ok a => w.put i (w.cluster.disk.apply r.1) a true
  | .call i op sys =>
    match w.cluster.inst i with
    | none => some w
    | some m =>
      ((⟨m, w.views i⟩ : Aliased).exec P sys w.cluster.disk op).map fun r =>
        w.put i (w.cluster.disk.apply r.1.writes) ⟨r.1.m, r.2⟩ (accesses op)
  | .read i sys =>
    match w.cluster.inst i with
    | none => some w
    | some m =>
      ((⟨m, w.views i⟩ : Aliased).get sys w.cluster.disk (fun _ => ()) ()).map fun r => w.put i w.cluster.disk r.1 true
  -- these touch no dict of an open instance
  | .close i => some ⟨w.cluster.step P (.close i), w.views⟩
  | .backup => some ⟨w.cluster.step P .backup, w.views⟩
  | .restore i => some ⟨w.cluster.step P (.restore i), w.views⟩

lemma AliasedCluster.step_call_eq {w : AliasedCluster ι} {i : ι} {m : MMKV} {op : Op} {sys : Sys} {r : Result}
    {v : Views} (hm : w.cluster.inst i = some m)
    (hexec : (⟨m, w.views i⟩ : Aliased).exec P sys w.cluster.disk op = some (r, v)) :
    w.step P (.call i op sys) = some (w.put i (w.cluster.disk.apply r.writes) ⟨r.m, v⟩ (accesses op)) := by
  simp only [AliasedCluster.step, hm, hexec, Option.map_some]

/-- The files before any process has opened them. -/
def AliasedCluster.init (d : Disk) : AliasedCluster ι := ⟨Cluster.init d, fun _ => ⟨∅, 0⟩⟩

/-- Every instance that has missed nothing has slices that show its dict. -/
def Current (w : AliasedCluster ι) (mi : MetaInfo) : Prop :=
  ∀ i m, w.cluster.inst i = some m → m.needLoad = false → w.cluster.behind i = 0 → m.actualSize = mi.actualSize →
    Points w.cluster.disk m (w.views i)

/-- The two clusters are the same, their instances follow the files, and the slices of those that have missed nothing
show what they should. -/
structure Keeps (crypt : Option Cipher) (w : AliasedCluster ι) (w' : Cluster ι) : Prop where
  cluster : w.cluster = w'
  served : ∃ s mi dict, Served P crypt w' s mi dict ∧ Current w mi

end Step

section Keep

variable {ι : Type} {P : Platform} {crypt : Option Cipher} {w : AliasedCluster ι} {s : Board ι} {mi : MetaInfo}
  {dict : Dict} {i : ι} {m : MMKV} {sys : Sys}

/-- **The access of an instance that is told of what it missed**: its slices show the one map. -/
theorem Current.probed (h : Current w mi) (hserved : Served P crypt w.cluster s mi dict)
    (hm : w.cluster.inst i = some m) (htells : w.cluster.Tells i) (hsys : sys.remap = none) :
    Probed sys w.cluster.disk ⟨m, w.views i⟩ (m.checkLoadData w.cluster.disk sys) := by
  have hup := hserved.upToDate hm htells hsys
  have hf := hserved.follows i m hm
  have himage := (hserved.holds i m hm).1
  refine ⟨hup.synced, hf.closed, hup.readOnly.symm, rfl, hup.points.2 ?_⟩
  exact checkLoadData_showsMap _ himage hf (htells m mi hm himage.parse) hsys (h i m hm)

variable [DecidableEq ι]

/-- **A step of one instance leaves the slices of the others current**: it leaves the files alone, makes their region
shorter than that of the files, or puts them behind. -/
lemma Current.put {d' : Disk} {mi' : MetaInfo} {a : Aliased} {seen : Bool} (h : Current w mi)
    (hserved : Served P crypt w.cluster s mi dict) (hm : w.cluster.inst i = some m)
    (hev : Evolves true w.cluster.disk mi d' mi') (hparse : parseMeta d'.crc = .ok mi')
    (hself : a.m.needLoad = false → ((w.put i d' a seen).cluster.behind i = 0) → a.m.actualSize = mi'.actualSize →
      Points d' a.m a.v) : Current (w.put i d' a seen) mi' := by
  intro j mj hj hload hbehind hsize
  rcases put_inst hj with ⟨rfl, ⟨⟩⟩ | ⟨hij, hmj⟩
  · simp only [AliasedCluster.put, Function.update_self] at hbehind ⊢
    exact hself hload hbehind hsize
  · have hf := hserved.follows j mj hmj
    have hold := (hserved.holds i m hm).1.parse
    simp only [AliasedCluster.put, Function.update_of_ne hij]
    simp only [AliasedCluster.put, Cluster.put, hij, false_and, if_false, sequenceOf, hparse, hold] at hbehind
    cases hev with
    | unchanged hd hmi =>
      subst hd hmi
      rw [if_pos rfl] at hbehind
      exact h j mj hmj hload hbehind hsize
    | appended pair hpair hdata hroom hgrown hmi =>
      have hseq : mi'.sequence = mi.sequence := by rw [hmi]
      rw [if_pos hseq] at hbehind
      have hle := hf.actualSize hload hbehind
      have hpos := List.length_pos_iff.2 hpair
      rw [hsize] at hle
      omega
    | overridden hsingle _ _ => cases hsingle
    | rewritten hseq _ _ =>
      rw [if_neg (by rw [hseq]; simp)] at hbehind
      omega

lemma step_call_keeps {op : Op} (h : Current w mi) (hserved : Served P crypt w.cluster s mi dict)
    (hop : accesses op = true) (hok : (Move.call i op sys).OK P crypt w.cluster) :
    ∃ w₁, w.step P (.call i op sys) = some w₁ ∧ Keeps P crypt w₁ (w.cluster.step P (.call i op sys)) := by
  obtain ⟨mi', dict', hserved', hev⟩ := step_call hserved hop hok
  obtain ⟨hsys, -, htells, m, hm, hgood, hlt⟩ := hok
  obtain ⟨hro, hlt⟩ := hlt hop
  have hprobed := h.probed hserved hm (htells hop) hsys.remap
  have hsynced := (hserved.upToDate hm (htells hop) hsys.remap).synced_of_writable hro
  have hne : ∀ op', accesses op' = false → op ≠ op' := by
    rintro op' hop' rfl
    rw [hop] at hop'
    cases hop'
  obtain ⟨hvalue, v', hexec, hpoints⟩ := hprobed.exec (P := P) hsynced hsys hgood hlt (hne _ rfl) (hne _ rfl)
    (hne _ rfl) (hne _ rfl)
  change m.exec P sys w.cluster.disk op = _ at hvalue
  rw [← hvalue] at hexec hpoints
  have hstep := Cluster.step_call_eq P hm op sys
  rw [hstep] at hserved' hev ⊢
  refine ⟨_, AliasedCluster.step_call_eq P hm hexec, rfl, _, mi', dict', hserved', ?_⟩
  exact h.put hserved hm hev (hserved'.holds i _ (Cluster.put_inst_self ..)).1.parse fun _ _ _ => hpoints

/-- A call that sets the instance's own settings leaves the slices, or drops them together with the dict. -/
lemma exec_setting {op : Op} (d : Disk) (v : Views) (sys : Sys) (hclosed : m.closed = false)
    (hop : accesses op = false) :
    ∃ v', (⟨m, v⟩ : Aliased).exec P sys d op = some (m.exec P sys d op, v') ∧
      ((m.exec P sys d op).m.needLoad = false → m.needLoad = false ∧
        (m.exec P sys d op).m.actualSize = m.actualSize ∧ (m.exec P sys d op).m.dict = m.dict ∧ v' = v) := by
  cases op with
  | sync =>
    have hm : (m.exec P sys d .sync).m = m := by
      rw [MMKV.exec, MMKV.syncFlush, hclosed, if_neg (by decide)]
      split <;> rfl
    rw [hm]
    exact ⟨v, rfl, fun hload => ⟨hload, rfl, rfl, rfl⟩⟩
  | clearMemoryCache =>
    refine ⟨_, rfl, fun hload => ?_⟩
    rw [MMKV.exec, MMKV.clearMemoryCache_eq hclosed] at hload
    cases hload
  | enableCompareBeforeSet =>
    refine ⟨v, rfl, fun hload => ?_⟩
    rw [MMKV.exec, MMKV.enableCompareBeforeSet] at hload ⊢
    split at hload
    · next he => exact ⟨hload, by simp [he]⟩
    · next he => exact ⟨hload, by simp [he]⟩
  | disableCompareBeforeSet => exact ⟨v, rfl, fun hload => ⟨hload, rfl, rfl, rfl⟩⟩
  | _ => cases hop

lemma step_setting_keeps {op : Op} (h : Current w mi) (hserved : Served P crypt w.cluster s mi dict)
    (hop : accesses op = false) (hok : (Move.call i op sys).OK P crypt w.cluster) :
    ∃ w₁, w.step P (.call i op sys) = some w₁ ∧ Keeps P crypt w₁ (w.cluster.step P (.call i op sys)) := by
  have hserved' := step_setting hserved hop hok
  obtain ⟨-, -, -, m, hm, -⟩ := hok
  have hf := hserved.follows i m hm
  obtain ⟨hwrites, -, -⟩ := hf.setting hop P sys
  obtain ⟨v', hexec, hkept⟩ := exec_setting (P := P) w.cluster.disk (w.views i) sys hf.closed hop
  have hstep := Cluster.step_call_eq P hm op sys
  rw [hstep] at hserved' ⊢
  refine ⟨_, AliasedCluster.step_call_eq P hm hexec, rfl, _, mi, dict, hserved', ?_⟩
  rw [hwrites, Disk.apply_nil]
  refine h.put hserved hm (.unchanged rfl rfl) (hserved.holds i m hm).1.parse fun hload hbehind hsize => ?_
  obtain ⟨hload', hsize', hdict, hv⟩ := hkept hload
  simp only [AliasedCluster.put, Cluster.put, hop, Bool.false_eq_true, and_false, if_false, if_true] at hbehind
  rw [Points, hsize', hdict, hv]
  exact h i m hm hload' hbehind (hsize'.symm.trans hsize)

lemma step_read_keeps (h : Current w mi) (hserved : Served P crypt w.cluster s mi dict)
    (hok : (Move.read i sys).OK P crypt w.cluster) :
    ∃ w₁, w.step P (.read i sys) = some w₁ ∧ Keeps P crypt w₁ (w.cluster.step P (.read i sys)) := by
  have hserved' := step_read hserved hok
  obtain ⟨hsys, htells, m, hm⟩ := hok
  have hprobed := h.probed hserved hm htells hsys
  have hget : (m.get sys w.cluster.disk (fun _ => ()) ()).1 = m.checkLoadData w.cluster.disk sys := by
    simp [MMKV.get, (hserved.follows i m hm).closed]
  have hstep : w.cluster.step P (.read i sys) =
      w.cluster.put i w.cluster.disk (some (m.checkLoadData w.cluster.disk sys)) true := by
    rw [Cluster.step, hm]
    simp only [hget]
  rw [hstep] at hserved' ⊢
  refine ⟨_, by simp only [AliasedCluster.step, hm, hprobed.get, Option.map_some]; rfl, rfl, _, mi, dict, hserved', ?_⟩
  refine h.put hserved hm (.unchanged rfl rfl) (hserved.holds i m hm).1.parse fun _ _ _ => ?_
  exact hprobed.points

lemma step_start_keeps {cfg : Config} (h : Current w mi) (hserved : Served P crypt w.cluster s mi dict)
    (hok : (Move.start i cfg sys).OK P crypt w.cluster) :
    ∃ w₁, w.step P (.start i cfg sys) = some w₁ ∧ Keeps P crypt w₁ (w.cluster.step P (.start i cfg sys)) := by
  have hserved' := step_start hserved hok
  obtain ⟨hstep, -, -, hother⟩ := hserved.opened hok
  obtain ⟨hnone, -, hkey, hro⟩ := hok
  have hstored := hserved.stored
  rw [← hkey] at hstored
  have hp4 := P.four_le_pageSize
  obtain ⟨v, hopen, hpoints⟩ := openAliased_of_stored sys hstored fun hc => ⟨hp4.trans (hro hc).1, (hro hc).2⟩
  rw [hstep] at hserved' ⊢
  refine ⟨_, by simp only [AliasedCluster.step, hnone, hopen, Option.map_some]; rfl, rfl, _, mi, dict, hserved', ?_⟩
  generalize w.cluster.disk.apply (cfg.openStores P w.cluster.disk) = d' at hpoints hother ⊢
  intro j mj hj hload hbehind hsize
  rcases put_inst hj with ⟨rfl, ⟨⟩⟩ | ⟨hij, hmj⟩
  · simp only [AliasedCluster.put, Function.update_self]
    exact hpoints
  · have hzero : w.cluster.behind j = 0 := by
      simp only [AliasedCluster.put, Cluster.put, hij, false_and, if_false] at hbehind
      split at hbehind
      · exact hbehind
      · omega
    have hold := h j mj hmj hload hzero hsize
    rw [Points, ← hother j mj hmj] at hold
    simp only [AliasedCluster.put, Function.update_of_ne hij]
    exact hold

/-- **One step of whichever process, on the slices, is the step on the maps.** -/
theorem step_keeps {w' : Cluster ι} {a : Move ι} (h : Keeps P crypt w w') (hok : a.OK P crypt w') :
    ∃ w₁, w.step P a = some w₁ ∧ Keeps P crypt w₁ (w'.step P a) := by
  obtain ⟨rfl, s, mi, dict, hserved, hcurrent⟩ := h
  cases a with
  | start i cfg sys => exact step_start_keeps hcurrent hserved hok
  | read i sys => exact step_read_keeps hcurrent hserved hok
  | call i op sys =>
    cases hop : accesses op with
    | true => exact step_call_keeps hcurrent hserved hop hok
    | false => exact step_setting_keeps hcurrent hserved hop hok
  | close i =>
    refine ⟨_, rfl, rfl, _, mi, dict, step_close (i := i) hserved, fun j mj hj hload hbehind hsize => ?_⟩
    rcases put_inst hj with ⟨rfl, ⟨⟩⟩ | ⟨hij, hmj⟩
    simp only [Cluster.step, Cluster.put, hij, false_and, if_false, if_true] at hbehind
    exact hcurrent j mj hmj hload hbehind hsize
  | backup => exact ⟨_, rfl, rfl, _, mi, dict, step_backup hserved hok, hcurrent⟩
  | restore i =>
    obtain ⟨mi', dict', hserved'⟩ := step_restore hserved hok
    obtain ⟨b, hb⟩ := hok
    refine ⟨_, rfl, rfl, _, mi', dict', hserved', fun j mj hj hload hbehind hsize => ?_⟩
    -- every instance is behind the files that were put in place
    simp only [Cluster.step, hb, Cluster.replace] at hbehind
    omega

/-- **No process reads a slice that another one has pulled from under it.**  Over every interleaving of opens, calls,
getters, closes, backups and restores of any number of multi-process instances that keep one key, in which each access
is told of what it missed, no call of the system fails, no empty key is set and no tombstone is appended to ciphertext:
the instances that keep slices of their mappings fault nowhere, leave the files that the instances that keep copies
leave, and every getter of each of them answers as theirs. -/
theorem zero_copy_across_processes {d : Disk} {moves : List (Move ι)} (hstored : Stored crypt d mi dict)
    (hmoves : Along (Move.OK P crypt) (Cluster.step P) (Cluster.init d) moves) :
    ∃ w : AliasedCluster ι, moves.foldlM (AliasedCluster.step P) (AliasedCluster.init d) = some w ∧
      w.cluster = run (Cluster.step P) (Cluster.init d) moves ∧
      ∀ i m sys', w.cluster.inst i = some m → w.cluster.Tells i → sys'.remap = none →
        ∀ (α : Type) (getter : View → α) (zero : α),
          ((⟨m, w.views i⟩ : Aliased).get sys' w.cluster.disk getter zero).map Prod.snd =
            some (m.get sys' w.cluster.disk getter zero).2 := by
  have hinit : Keeps P crypt (AliasedCluster.init d : AliasedCluster ι) (Cluster.init d) :=
    ⟨rfl, _, mi, dict, served_init hstored, fun i m hm => by cases hm⟩
  have hstep : ∀ (w : AliasedCluster ι) w' a, Keeps P crypt w w' → Move.OK P crypt w' a →
      ∃ w₁, AliasedCluster.step P w a = some w₁ ∧ Keeps P crypt w₁ (Cluster.step P w' a) :=
    fun _ _ _ h hok => step_keeps h hok
  obtain ⟨w, hrun, hcluster, s, mi', dict', hserved, hcurrent⟩ := hmoves.lockstep hstep hinit
  refine ⟨w, hrun, hcluster, fun i m sys' hm htells hsys α getter zero => ?_⟩
  rw [← hcluster] at hserved
  rw [(hcurrent.probed hserved hm htells hsys).get getter zero]
  rfl

lemma along_ok {w : Cluster ι} {acts : List (Move ι)} (h : Linear P w s)
    (hacts : Along (Move.Plain P) (Cluster.step P) w acts) : Along (Move.OK P none) (Cluster.step P) w acts := by
  induction acts generalizing w s with
  | nil => trivial
  | cons a acts ih =>
    obtain ⟨⟨mi, dict, hserved⟩, hr, hbehind⟩ := h
    exact ⟨hacts.1.ok hserved hr hbehind, ih (step_linear ⟨⟨mi, dict, hserved⟩, hr, hbehind⟩ hacts.1) hacts.2⟩

end Keep

/-- The second process reads what the first one has written, through slices of its own mapping. -/
theorem openBothAndSet_zero_copy :
    ∃ w, openBothAndSet.foldlM (AliasedCluster.step linux) (AliasedCluster.init ⟨[], []⟩) = some w ∧
      ∃ m, w.cluster.inst false = some m ∧
        ((⟨m, w.views false⟩ : Aliased).get calm w.cluster.disk (fun v => v.getBool [97]) none).map Prod.snd =
          some (some true) := by
  have hstored : Stored none ⟨[], []⟩ blankMeta ∅ := .inr ⟨blank_absent, rfl, rfl⟩
  have hinit : Linear linux (Cluster.init ⟨[], []⟩ : Cluster Bool) (Board.init ⟨OrdMap.lookup ∅, blankMeta.expireEnabled⟩) :=
    ⟨⟨blankMeta, ∅, served_init hstored⟩, rfl, fun _ => by simp [Cluster.init]⟩
  obtain ⟨⟨mi, dict, hserved⟩, hr, hbehind⟩ := openBothAndSet_plain.simulation (fun _ _ _ => step_linear) hinit
  obtain ⟨w, hrun, hcluster, hget⟩ := zero_copy_across_processes hstored (along_ok hinit openBothAndSet_plain)
  have hslot : dict[([97] : Bytes)]? = some [1] := (congrFun (congrArg Content.slots hserved.content) [97]).symm
  have htells := tells_of_behind hserved hr (hbehind false)
  rw [← hcluster] at hserved htells
  have hm : w.cluster.inst false = some (shared.fresh linux) := by
    rw [hcluster, run_openBothAndSet]
    rfl
  obtain ⟨-, -, hvalue⟩ := hserved.serves hm htells (show calm.remap = none from rfl)
  refine ⟨w, hrun, _, hm, ?_⟩
  rw [hget false _ calm hm htells rfl, hvalue, Option.some.injEq]
  exact Value.readAs_of_value (v := .bool true) (by decide) (by simp only [View.value, hslot]; rfl)

end MmkvGo.Multi
