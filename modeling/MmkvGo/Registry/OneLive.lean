import MmkvGo.Registry.Process
import MmkvGo.Store.Refine

/-!
One open instance per file, and what follows for its map.

`Close` leaves the registry in one critical section and marks its instance as closed in a later one; an `MMKVWithID`
between the two opens the file a second time.  `RemoveStorage` unlinks the files after it closed their instance; what
opens them in between writes to files that no path names.  In a run without such calls at most one instance of a
file is open, and it serves what the calls that returned no error have set.
-/

set_option linter.unusedSectionVars false

namespace MmkvGo.Registry

open Lib Wire Store Crypt Process

variable {κ γ : Type} [DecidableEq κ] [DecidableEq γ]

/-- The condition on a critical section: a file that is not open is opened, and one is removed, only when it is not
busy; a file is always opened with its own key; and a set meets the conditions of the store: a key that is not empty, no
failing call of the system, and a region below 4 GiB. -/
def Section.OK (P : Platform) (crypt : κ → Option Cipher) (w : Process κ γ) : Section κ γ → Prop
  | .mmkvWithID _ key cfg _ => cfg.crypt P = crypt key ∧ (w.cached key = none → ¬ w.Busy key)
  | .set _ id key v sys =>
    sys.OK ∧ key ≠ [] ∧ ∀ h, w.handles id = some h → h.m.closed = false → h.m.readOnly = false →
      4 + ((Op.set key v).regionAfter sys (w.disk h) h.m).length < 2 ^ 32
  | .removeStorage _ key => ¬ w.Busy key
  | _ => True

lemma Section.OK.undisturbed {P : Platform} {crypt : κ → Option Cipher} {w : Process κ γ} {a : Section κ γ}
    (h : a.OK P crypt w) : a.Undisturbed w := by
  cases a with
  | mmkvWithID g key cfg sys => exact h.2
  | removeStorage g key => exact h
  | _ => trivial

/-- What the files of each key hold, by what was returned to the callers: a set that returned no error has bound its key,
and `RemoveStorage` leaves nothing. -/
def told (P : Platform) (w : Process κ γ) (s : κ → Content) : Section κ γ → κ → Content
  | .set g id key v sys =>
    match w.pending g, w.handles id with
    | none, some h =>
      if (h.m.exec P sys (w.disk h) (.set key v)).err = none then
        Function.update s h.key ((s h.key).after sys 0 (.set key v))
      else s
    | _, _ => s
  | .resume g =>
    match w.pending g with
    | some (.removeData key) => Function.update s key Content.empty
    | _ => s
  | _ => s

/-- One section, on the process and on what was told. -/
def both (P : Platform) (x : Process κ γ × (κ → Content)) (a : Section κ γ) : Process κ γ × (κ → Content) :=
  (x.1.step P a, told P x.1 x.2 a)

/-- An open instance maps the files its paths name, agrees with them, and has the map `c`. -/
structure Held (crypt : κ → Option Cipher) (w : Process κ γ) (c : Content) (h : Handle κ) : Prop where
  data : (w.data h.key).named = true ∧ h.dataGen = (w.data h.key).gen
  crc : (w.crc h.key).named = true ∧ h.crcGen = (w.crc h.key).gen
  synced : Synced (w.disk h) h.m.writable
  content : h.m.content = c
  crypt : h.m.crypt = crypt h.key
  seconds : h.m.expiredSeconds = 0

/-- The paths of a key name files that hold the map `c`; or they name none, and `c` is empty. -/
def Kept (crypt : κ → Option Cipher) (w : Process κ γ) (c : Content) (key : κ) : Prop :=
  ((w.data key).named = true ∧ (w.crc key).named = true ∧
    ∃ mi dict, Image (crypt key) (w.diskOf key) mi dict ∧ c = ⟨OrdMap.lookup dict, mi.expireEnabled⟩) ∨
  ((w.data key).named = false ∧ (w.crc key).named = false ∧ c = Content.empty)

/-- The files and the open instances have what was told. -/
structure Serves (crypt : κ → Option Cipher) (w : Process κ γ) (s : κ → Content) : Prop where
  held : ∀ id h, w.handles id = some h → h.m.closed = false → Held crypt w (s h.key) h
  kept : ∀ key, (∀ g, w.pending g ≠ some (.removeCrc key)) → Kept crypt w (s key) key
  unlinked : ∀ g key, w.pending g = some (.removeCrc key) → (w.data key).named = false ∧ s key = Content.empty

/-! ### Frames -/

section Frames

variable {crypt : κ → Option Cipher} {w w' : Process κ γ} {s : κ → Content} {c : Content}

lemma Held.congr {h : Handle κ} (hh : Held crypt w c h) (hdata : w'.data h.key = w.data h.key)
    (hcrc : w'.crc h.key = w.crc h.key) : Held crypt w' c h := by
  have hdisk : w'.disk h = w.disk h := by rw [Process.disk, Process.disk, hdata, hcrc]
  exact ⟨hdata ▸ hh.data, hcrc ▸ hh.crc, hdisk ▸ hh.synced, hh.content, hh.crypt, hh.seconds⟩

lemma Kept.congr {key : κ} (hk : Kept crypt w c key) (hdata : w'.data key = w.data key) (hcrc : w'.crc key = w.crc key) :
    Kept crypt w' c key := by
  have hdisk : w'.diskOf key = w.diskOf key := by rw [Process.diskOf, Process.diskOf, hdata, hcrc]
  rwa [Kept, hdata, hcrc, hdisk]

lemma Held.kept {h : Handle κ} (hh : Held crypt w c h) : Kept crypt w c h.key := by
  refine .inl ⟨hh.data.1, hh.crc.1, h.m.info, h.m.dict, ?_, ?_⟩
  · have himage := hh.synced.image
    have hdisk : w.diskOf h.key = w.disk h := by
      rw [Process.diskOf, Process.disk, hh.data.2, hh.crc.2]
      rfl
    rw [hdisk, ← hh.crypt]
    exact himage
  · rw [← hh.content, ← show h.m.enableExpire = h.m.info.expireEnabled from hh.synced.enableExpire]
    rfl

lemma Serves.quiet (hw : Serves crypt w s) (hdata : w'.data = w.data) (hcrc : w'.crc = w.crc)
    (hhandles : ∀ id h, w'.handles id = some h → h.m.closed = false → w.handles id = some h)
    (hpending : ∀ g key, w'.pending g = some (.removeCrc key) ↔ w.pending g = some (.removeCrc key)) :
    Serves crypt w' s where
  held id h hh hclosed :=
    (hw.held id h (hhandles id h hh hclosed) hclosed).congr (by rw [hdata]) (by rw [hcrc])
  kept key hnone :=
    (hw.kept key fun g hg => hnone g ((hpending g key).2 hg)).congr (by rw [hdata]) (by rw [hcrc])
  unlinked g key hg := by
    rw [hdata]
    exact hw.unlinked g key ((hpending g key).1 hg)

lemma Serves.update {id : ℕ} {h : Handle κ} {c : Content} (hw : Serves crypt w s) (hpending : w'.pending = w.pending)
    (hhandles : w'.handles = Function.update w.handles id (some h)) (hnew : Held crypt w' c h)
    (hother : ∀ key, key ≠ h.key → w'.data key = w.data key ∧ w'.crc key = w.crc key)
    (honly : ∀ id', id' ≠ id → ¬ w.Open id' h.key) (hlinked : ∀ g, w.pending g ≠ some (.removeCrc h.key)) :
    Serves crypt w' (Function.update s h.key c) := by
  refine ⟨fun id' h' hh' hclosed' => ?_, fun key hnone => ?_, fun g key hg => ?_⟩
  · rw [hhandles] at hh'
    by_cases hid : id' = id
    · rw [hid, Function.update_self] at hh'
      cases hh'
      rw [Function.update_self]
      exact hnew
    · rw [Function.update_of_ne hid] at hh'
      have hne : h'.key ≠ h.key := fun hk => honly id' hid ⟨h', hh', hk, hclosed'⟩
      rw [Function.update_of_ne hne]
      exact (hw.held id' h' hh' hclosed').congr (hother _ hne).1 (hother _ hne).2
  · rw [hpending] at hnone
    by_cases hk : key = h.key
    · rw [hk, Function.update_self]
      exact hnew.kept
    · rw [Function.update_of_ne hk]
      exact (hw.kept key hnone).congr (hother _ hk).1 (hother _ hk).2
  · rw [hpending] at hg
    have hk : key ≠ h.key := by
      rintro rfl
      exact hlinked g hg
    rw [Function.update_of_ne hk, (hother _ hk).1]
    exact hw.unlinked g key hg

end Frames

/-! ### Opening -/

section Opening

variable {P : Platform} {cfg : Config} {d : Disk} {mi : MetaInfo} {dict : Dict}

theorem start_of_image (sys : Sys) (h : Image (cfg.crypt P) d mi dict) :
    ∃ m, (World.start P cfg sys d).inst = .ok m ∧
      Synced (World.start P cfg sys d).disk m.writable ∧
      m.content = ⟨OrdMap.lookup dict, mi.expireEnabled⟩ ∧ m.crypt = cfg.crypt P ∧ m.expiredSeconds = 0 := by
  have hfits := h.fits
  obtain ⟨-, hopen, hsynced⟩ := Stored.opens (.inl h) (fun _ => ⟨by omega, h.readable.metaSize_le⟩) sys
  rw [World.start, hopen]
  exact ⟨_, rfl, hsynced, rfl, rfl, rfl⟩

end Opening

/-! ### One section -/

section Step

variable {P : Platform} {crypt : κ → Option Cipher} {w : Process κ γ} {s : κ → Content} {g : γ}

lemma Held.checkLoadData {c : Content} {h : Handle κ} (hh : Held crypt w c h) (sys : Sys) :
    h.m.checkLoadData (w.disk h) sys = h.m :=
  MMKV.checkLoadData_of_writable hh.synced

lemma store_unchanged {id : ℕ} {h : Handle κ} {r : Result} (hh : w.handles id = some h) (hwrites : r.writes = [])
    (hm : r.m = h.m) : w.store id h r = w := by
  have hdata : (w.data h.key).written h.dataGen ((w.data h.key).bytes h.dataGen) = w.data h.key := by
    simp [File.written]
  have hcrc : (w.crc h.key).written h.crcGen ((w.crc h.key).bytes h.crcGen) = w.crc h.key := by
    simp [File.written]
  simp only [Process.store, hwrites, Disk.apply_nil, hm, Process.disk, hdata, hcrc, Function.update_eq_self]
  have hhandle : (some { h with m := h.m } : Option (Handle κ)) = w.handles id := hh.symm
  rw [hhandle, Function.update_eq_self]

theorem serves_set {id : ℕ} {h : Handle κ} {key : Bytes} {v : Value} {sys : Sys} (hreg : w.Reg) (hw : Serves crypt w s)
    (hh : w.handles id = some h) (hclosed : h.m.closed = false) (hro : h.m.readOnly = false) (hsys : sys.OK)
    (hkey : key ≠ []) (hlt : 4 + ((Op.set key v).regionAfter sys (w.disk h) h.m).length < 2 ^ 32) :
    (h.m.exec P sys (w.disk h) (.set key v)).err = none ∧
      Serves crypt (w.store id h (h.m.exec P sys (w.disk h) (.set key v)))
        (Function.update s h.key ((s h.key).after sys 0 (.set key v))) := by
  have hheld := hw.held id h hh hclosed
  have hsynced : Synced (w.disk h) h.m := by
    rw [← MMKV.writable_eq hro]
    exact hheld.synced
  have heffect := exec_effect (P := P) hsynced hsys (show (Op.set key v).Good h.m from hkey) hlt (by simp)
  set r := h.m.exec P sys (w.disk h) (.set key v) with hr
  -- the file of the instance, and its new state
  have hdisk : (w.store id h r).disk { h with m := r.m } = (w.disk h).apply r.writes := by
    simp [Process.store, Process.disk, File.written]
  have hnew : Held crypt (w.store id h r) ((s h.key).after sys 0 (.set key v)) { h with m := r.m } := by
    refine ⟨?_, ?_, ?_, ?_, ?_, ?_⟩
    · simpa [Process.store, File.written] using hheld.data
    · simpa [Process.store, File.written] using hheld.crc
    · rw [hdisk, MMKV.writable_eq heffect.synced.readOnly]
      exact heffect.synced
    · show r.m.content = _
      rw [heffect.content, hheld.content, hheld.seconds]
    · exact heffect.crypt.trans hheld.crypt
    · exact heffect.seconds.trans hheld.seconds
  refine ⟨heffect.err, hw.update (h := { h with m := r.m }) rfl rfl hnew (fun key' hne => ?_)
    (fun id' hid hopen => ?_) fun g' hg' => ?_⟩
  · simp [Process.store, show key' ≠ h.key from hne]
  · exact hid (hreg.unique id' id h.key hopen ⟨h, hh, rfl, hclosed⟩)
  · have hgone := (hw.unlinked g' h.key hg').1
    rw [hheld.data.1] at hgone
    cases hgone

lemma removeCrc_setPending {w' : Process κ γ} {o : Option (Pending κ)} (hsame : w'.pending = w.pending)
    (hp : ∀ key, w.pending g ≠ some (.removeCrc key)) (ho : ∀ key, o ≠ some (.removeCrc key)) (g' : γ) (key : κ) :
    (w'.setPending g o).pending g' = some (.removeCrc key) ↔ w.pending g' = some (.removeCrc key) := by
  by_cases hg : g' = g
  · subst hg
    simp [setPending, hp, ho]
  · simp [setPending, hg, hsame]

theorem serves_opened {key : κ} {data crc : File} {d : Disk} {m : MMKV} (hreg : w.Reg) (hw : Serves crypt w s)
    (hcached : w.cached key = none) (hbusy : ¬ w.Busy key) (hdata : data.named = true) (hcrc : crc.named = true)
    (hsynced : Synced d m.writable) (hcontent : m.content = s key) (hcrypt : m.crypt = crypt key)
    (hseconds : m.expiredSeconds = 0) :
    let w' : Process κ γ := { w with
      data := Function.update w.data key (data.written data.gen d.data)
      crc := Function.update w.crc key (crc.written crc.gen d.crc)
      gInstances := Function.update w.gInstances key (some w.count)
      handles := Function.update w.handles w.count (some ⟨key, data.gen, crc.gen, m⟩)
      count := w.count + 1 }
    Serves crypt w' s := by
  intro w'
  have hnone := hreg.not_open hcached hbusy
  have hnew : Held crypt w' (s key) ⟨key, data.gen, crc.gen, m⟩ := by
    refine ⟨?_, ?_, ?_, hcontent, hcrypt, hseconds⟩
    · simpa [w', File.written] using hdata
    · simpa [w', File.written] using hcrc
    · have hdisk : w'.disk ⟨key, data.gen, crc.gen, m⟩ = d := by simp [w', Process.disk, File.written]
      rw [hdisk]
      exact hsynced
  have hserves : Serves crypt w' (Function.update s key (s key)) := by
    refine hw.update (h := ⟨key, data.gen, crc.gen, m⟩) rfl rfl hnew (fun key' hne => ?_) (fun id _ => hnone id)
      fun g' hg' => ?_
    · simp [w', show key' ≠ key from hne]
    · exact hbusy ⟨g', _, hg', .inl ⟨none, rfl⟩⟩
  rwa [Function.update_eq_self] at hserves

theorem serves_openNew {key : κ} {cfg : Config} {sys : Sys} (hreg : w.Reg) (hw : Serves crypt w s)
    (hcrypt : cfg.crypt P = crypt key) (hcached : w.cached key = none) (hbusy : ¬ w.Busy key) :
    Serves crypt (w.openNew P key cfg sys) s := by
  have hkept := hw.kept key fun g hg => hbusy ⟨g, _, hg, .inl ⟨none, rfl⟩⟩
  rcases hkept with ⟨hdata, hcrc, mi, dict, himage, hc⟩ | ⟨hdata, hcrc, hc⟩
  · rw [← hcrypt] at himage
    obtain ⟨m, hinst, hsynced, hcontent, hkey, hseconds⟩ := start_of_image sys himage
    have hopened : (w.data key).opened = w.data key ∧ (w.crc key).opened = w.crc key := by
      simp [File.opened, hdata, hcrc]
    have hdisk : (⟨(w.data key).last, (w.crc key).last⟩ : Disk) = w.diskOf key := rfl
    have hopen := serves_opened hreg hw hcached hbusy hdata hcrc hsynced (hcontent.trans hc.symm)
      (hkey.trans hcrypt) hseconds
    simpa only [openNew, hdata, hcrc, Bool.and_self, Bool.not_true, Bool.and_false, Bool.false_eq_true, if_false,
      hopened, hdisk, hinst] using hopen
  -- there are no files: an open for reading only fails, one for writing makes them
  · cases hro : cfg.readOnly with
    | true =>
      have hsame : w.openNew P key cfg sys = w := by simp [openNew, hro, hdata]
      rw [hsame]
      exact hw
    | false =>
      have hlast : ((w.data key).opened).last = [] ∧ ((w.crc key).opened).last = [] := by
        simp [File.opened, File.last, hdata, hcrc]
      have hnamed : ((w.data key).opened).named = true ∧ ((w.crc key).opened).named = true := by
        simp [File.opened, hdata, hcrc]
      have hsynced : Synced (freshDisk P) (cfg.fresh P).writable := by
        rw [MMKV.writable_eq (show (cfg.fresh P).readOnly = false from hro)]
        exact synced_fresh P hro
      have hcontent : (cfg.fresh P).content = s key := by
        rw [hc, MMKV.content, show (cfg.fresh P).dict = ∅ from rfl, OrdMap.lookup_empty]
        rfl
      have hopen := serves_opened hreg hw hcached hbusy hnamed.1 hnamed.2 hsynced hcontent hcrypt rfl
      simpa only [openNew, hro, Bool.false_and, Bool.false_eq_true, if_false, hlast, start_absent hro] using hopen

theorem serves_removeData {key : κ} (hreg : w.Reg) (hw : Serves crypt w s) (hp : w.pending g = some (.removeData key)) :
    Serves crypt (w.resume g (.removeData key)) (Function.update s key Content.empty) := by
  have hnone : ∀ id, ¬ w.Open id key := fun id hopen => by
    cases hreg.removing g _ key none hp rfl id hopen
  refine ⟨fun id h hh hclosed => ?_, fun key' hnot => ?_, fun g' key' hg' => ?_⟩
  · have hne : h.key ≠ key := fun hk => hnone id ⟨h, hh, hk, hclosed⟩
    rw [Function.update_of_ne hne]
    exact (hw.held id h hh hclosed).congr (by simp [Process.resume, setPending, hne]) rfl
  · have hne : key' ≠ key := by
      rintro rfl
      exact hnot g (by simp [Process.resume, setPending])
    rw [Function.update_of_ne hne]
    refine (hw.kept key' fun g' hg' => hnot g' ?_).congr (by simp [Process.resume, setPending, hne]) rfl
    have hg : g' ≠ g := by
      rintro rfl
      rw [hp] at hg'
      cases hg'
    simpa only [Process.resume, setPending, Function.update_of_ne hg] using hg'
  · by_cases hne : key' = key
    · subst hne
      simp [Process.resume, setPending, File.removed]
    · have hg : g' ≠ g := by
        rintro rfl
        simp only [Process.resume, setPending, Function.update_self, Option.some.injEq, Pending.removeCrc.injEq] at hg'
        exact hne hg'.symm
      simp only [Process.resume, setPending, Function.update_of_ne hg] at hg'
      simpa only [Process.resume, setPending, Function.update_of_ne hne] using hw.unlinked g' key' hg'

theorem serves_removeCrc {key : κ} (hreg : w.Reg) (hw : Serves crypt w s) (hp : w.pending g = some (.removeCrc key)) :
    Serves crypt (w.resume g (.removeCrc key)) s := by
  have hnone : ∀ id, ¬ w.Open id key := fun id hopen => by
    cases hreg.removing g _ key none hp rfl id hopen
  refine ⟨fun id h hh hclosed => ?_, fun key' hnot => ?_, fun g' key' hg' => ?_⟩
  · have hne : h.key ≠ key := fun hk => hnone id ⟨h, hh, hk, hclosed⟩
    exact (hw.held id h hh hclosed).congr rfl (by simp [Process.resume, setPending, hne])
  · by_cases hne : key' = key
    · subst hne
      obtain ⟨hdata, hc⟩ := hw.unlinked g key' hp
      exact .inr ⟨hdata, by simp [Process.resume, setPending, File.removed], hc⟩
    · refine (hw.kept key' fun g' hg' => hnot g' ?_).congr rfl (by simp [Process.resume, setPending, hne])
      have hg : g' ≠ g := by
        rintro rfl
        rw [hp] at hg'
        cases hg'
        exact hne rfl
      simpa only [Process.resume, setPending, Function.update_of_ne hg] using hg'
  · have hg : g' ≠ g := by
      rintro rfl
      simp [Process.resume, setPending] at hg'
    simp only [Process.resume, setPending, Function.update_of_ne hg] at hg'
    exact hw.unlinked g' key' hg'

lemma told_resume {p : Pending κ} (hp : w.pending g = some p) (hne : ∀ key, p ≠ .removeData key) :
    told P w s (.resume g) = s := by
  cases p with
  | removeData key => exact absurd rfl (hne key)
  | _ => simp only [told, hp]

theorem serves_resume {p : Pending κ} (hreg : w.Reg) (hw : Serves crypt w s) (hp : w.pending g = some p) :
    Serves crypt (w.resume g p) (told P w s (.resume g)) := by
  cases p with
  | close id =>
    rw [told_resume hp (by simp)]
    exact hw.quiet markClosed_files.1 markClosed_files.2 (fun _ _ => handles_of_markClosed)
      (removeCrc_setPending markClosed_pending (by simp [hp]) (by simp))
  | removeClose key id =>
    rw [told_resume hp (by simp)]
    refine hw.quiet deregister_files.1 deregister_files.2 (fun id' h hh _ => ?_)
      (removeCrc_setPending deregister_pending (by simp [hp]) (by simp))
    simpa only [Process.resume, setPending, deregister_handles] using hh
  | removeMark key id =>
    rw [told_resume hp (by simp)]
    exact hw.quiet markClosed_files.1 markClosed_files.2 (fun _ _ => handles_of_markClosed)
      (removeCrc_setPending markClosed_pending (by simp [hp]) (by simp))
  | removeData key =>
    have htold : told P w s (.resume g) = Function.update s key Content.empty := by simp [told, hp]
    rw [htold]
    exact serves_removeData hreg hw hp
  | removeCrc key =>
    rw [told_resume hp (by simp)]
    exact serves_removeCrc hreg hw hp

lemma exec_set_refused {m : MMKV} {sys : Sys} {d : Disk} {key : Bytes} {v : Value}
    (h : ¬ (m.closed = false ∧ m.readOnly = false)) : ∃ e, m.exec P sys d (.set key v) = ⟨[], m, some e⟩ := by
  rw [MMKV.exec, MMKV.mutate]
  cases hclosed : m.closed with
  | true => exact ⟨.closed, if_pos rfl⟩
  | false =>
    have hro : m.readOnly = true := by simpa [hclosed] using h
    exact ⟨.readOnly, by simp [hro]⟩

/-- **A set**, on an open instance or on one that refuses it. -/
theorem serves_setSection {id : ℕ} {key : Bytes} {v : Value} {sys : Sys} (hreg : w.Reg) (hw : Serves crypt w s)
    (hok : (Section.set g id key v sys : Section κ γ).OK P crypt w) :
    Serves crypt (w.step P (.set g id key v sys)) (told P w s (.set g id key v sys)) := by
  cases hidle : w.pending g with
  | some p => simpa only [Process.step, told, hidle] using hw
  | none =>
    cases hh : w.handles id with
    | none => simpa only [Process.step, told, hidle, hh] using hw
    | some h =>
      simp only [Process.step, told, hidle, hh]
      obtain ⟨hsys, hkey, hlt⟩ := hok
      by_cases hwritable : h.m.closed = false ∧ h.m.readOnly = false
      · obtain ⟨hclosed, hro⟩ := hwritable
        obtain ⟨herr, hserves⟩ := serves_set hreg hw hh hclosed hro hsys hkey (hlt h hh hclosed hro)
        rw [if_pos herr]
        exact hserves
      · obtain ⟨e, hexec⟩ := exec_set_refused (P := P) hwritable
        rw [hexec, if_neg (by simp), store_unchanged hh rfl rfl]
        exact hw

lemma Serves.get_eq {id : ℕ} {h : Handle κ} (hw : Serves crypt w s) (hh : w.handles id = some h) (sys : Sys) :
    (h.m.get sys (w.disk h) (fun _ => ()) ()).1 = h.m := by
  unfold MMKV.get
  split
  · rfl
  · rename_i hclosed
    exact (hw.held id h hh (by simpa using hclosed)).checkLoadData sys

theorem serves_step {a : Section κ γ} (hreg : w.Reg) (hw : Serves crypt w s) (hok : a.OK P crypt w) :
    Serves crypt (w.step P a) (told P w s a) := by
  cases a with
  | mmkvWithID g key cfg sys =>
    rw [Process.step]
    split
    · exact hw
    · rename_i hnot
      have hcached : w.cached key = none := by
        rw [← Option.not_isSome_iff_eq_none]
        exact fun h => hnot (.inr h)
      exact serves_openNew hreg hw hok.1 hcached (hok.2 hcached)
  | set g id key v sys => exact serves_setSection hreg hw hok
  | get g id sys =>
    simp only [Process.step, told]
    split
    · rename_i h hidle hh
      rw [store_unchanged hh rfl (hw.get_eq hh sys)]
      exact hw
    · exact hw
  | close g id =>
    simp only [Process.step, told]
    split
    · rename_i h hidle hh
      refine hw.quiet deregister_files.1 deregister_files.2 (fun id' h' hh' _ => ?_)
        (removeCrc_setPending deregister_pending (by simp [hidle]) (by simp))
      simpa only [setPending, deregister_handles] using hh'
    · exact hw
  | removeStorage g key =>
    simp only [Process.step, told]
    split
    · exact hw
    rename_i hsome
    have hidle : w.pending g = none := by simpa using hsome
    have hbegin : ∀ p : Pending κ, (∀ key, p ≠ .removeCrc key) → Serves crypt (w.setPending g (some p)) s :=
      fun p hp => hw.quiet rfl rfl (fun _ _ hh _ => hh) (removeCrc_setPending rfl (by simp [hidle]) (by simpa using hp))
    split
    · exact hbegin _ (by simp)
    · exact hbegin _ (by simp)
  | resume g =>
    rw [Process.step]
    cases hp : w.pending g with
    | none =>
      have htold : told P w s (.resume g) = s := by simp [told, hp]
      rw [htold]
      exact hw
    | some p => exact serves_resume hreg hw hp

end Step

/-! ### Whole runs -/

lemma serves_unopened {crypt : κ → Option Cipher} {w : Process κ γ} {s : κ → Content} (h : w.Unopened)
    (hkept : ∀ key, Kept crypt w (s key) key) : Serves crypt w s where
  held id _ hh := by simp [h.handles] at hh
  kept key _ := hkept key
  unlinked g key hg := by simp [h.pending] at hg

/-- What holds along a run. -/
def Sound (crypt : κ → Option Cipher) (x : Process κ γ × (κ → Content)) : Prop := x.1.Reg ∧ Serves crypt x.1 x.2

/-- **One open instance per file.**  In every run of critical sections in which files are opened and removed only while
they are not busy, no two instances of one file are open, whatever the files hold and whether or not the calls succeed.
If moreover the paths name files that hold maps, or none, and the calls meet the conditions of the store, every open
instance serves, at its next access, exactly what the calls that returned no error have told its file. -/
theorem one_open_instance (P : Platform) {w : Process κ γ} {l : List (Section κ γ)} (hstart : w.Unopened) :
    (Along (fun w a => Section.Undisturbed w a) (Process.step P) w l → ∀ id id' key,
      (run (Process.step P) w l).Open id key → (run (Process.step P) w l).Open id' key → id = id') ∧
    ∀ (crypt : κ → Option Cipher) (s : κ → Content), (∀ key, Kept crypt w (s key) key) →
      Along (fun x a => Section.OK P crypt x.1 a) (both P) (w, s) l →
      let x := run (both P) (w, s) l
      ∀ id h, x.1.handles id = some h → h.m.closed = false → ∀ sys,
        (h.m.checkLoadData (x.1.disk h) sys).content = x.2 h.key := by
  refine ⟨fun hl => ?_, fun crypt s hkept hl => ?_⟩
  · have hreg : (run (Process.step P) w l).Reg := hl.invariant (fun _ _ hw ha => hw.step ha) hstart.reg
    exact hreg.unique
  · intro x id h hh hclosed sys
    have hinv : Sound crypt x :=
      hl.invariant (fun _ _ hx hok => ⟨hx.1.step hok.undisturbed, serves_step hx.1 hx.2 hok⟩)
        ⟨hstart.reg, serves_unopened hstart hkept⟩
    have hheld := hinv.2.held id h hh hclosed
    rw [hheld.checkLoadData sys, hheld.content]

/-! ### A second instance -/

/-- A process with two goroutines, before it opens the one file there is. -/
def absent : Process Unit Bool where
  gInstances _ := none
  handles _ := none
  count := 0
  data _ := ⟨false, 0, fun _ => []⟩
  crc _ := ⟨false, 0, fun _ => []⟩
  pending _ := none

/-- The instance that the first open returns. -/
def firstHandle : Handle Unit := ⟨(), 1, 1, defaults.fresh linux⟩

/-- The file with the bytes that the first open gives it. -/
def freshFile (b : Bytes) : File := ⟨true, 1, Function.update (fun _ => []) 1 b⟩

/-- The process after the first open. -/
def openedOnce : Process Unit Bool where
  gInstances _ := some 0
  handles := Function.update (fun _ => none) 0 (some firstHandle)
  count := 1
  data _ := freshFile (freshDisk linux).data
  crc _ := freshFile (freshDisk linux).crc
  pending _ := none

/-- A goroutine has left the registry with its instance, and not yet marked it as closed. -/
def halfClosed : Process Unit Bool :=
  { openedOnce with
    gInstances := fun _ => none
    pending := Function.update (fun _ => none) false (some (.close 0)) }

/-- Another goroutine has opened the file meanwhile. -/
def openedTwice : Process Unit Bool :=
  { halfClosed with
    gInstances := fun _ => some 1
    handles := Function.update openedOnce.handles 1 (some firstHandle)
    count := 2 }

lemma update_unit {α : Type} (f : Unit → α) (u : Unit) (a : α) : Function.update f u a = fun _ => a := by
  funext u'
  simp

lemma step_absent (g : Bool) : absent.step linux (.mmkvWithID g () defaults calm) = openedOnce := by
  have hnone : ¬ ((absent.pending g).isSome ∨ (absent.cached ()).isSome) := by simp [absent, cached]
  have hro : defaults.readOnly = false := rfl
  rw [Process.step, if_neg hnone]
  simp only [openNew, absent, File.opened, File.last, start_absent hro, Function.update_self, Bool.false_eq_true,
    if_false, hro, Bool.false_and, File.written, Function.update_idem, update_unit]
  rfl

lemma step_openedOnce : openedOnce.step linux (.close false 0) = halfClosed := by
  have hidle : openedOnce.pending false = none := rfl
  have hhandle : openedOnce.handles 0 = some firstHandle := rfl
  have hreg : openedOnce.gInstances firstHandle.key = some 0 := rfl
  simp only [Process.step, hidle, hhandle, deregister, hreg, if_true, setPending]
  rfl

lemma step_halfClosed : halfClosed.step linux (.mmkvWithID true () defaults calm) = openedTwice := by
  have hnone : ¬ ((halfClosed.pending true).isSome ∨ (halfClosed.cached ()).isSome) := by
    simp [halfClosed, openedOnce, cached]
  have hro : defaults.readOnly = false := rfl
  have hdata : halfClosed.data () = freshFile (freshDisk linux).data := rfl
  have hcrc : halfClosed.crc () = freshFile (freshDisk linux).crc := rfl
  have hopened : ∀ b, (freshFile b).opened = freshFile b := fun b => rfl
  have hwritten : ∀ b, (freshFile b).written (freshFile b).gen b = freshFile b := by
    intro b
    simp [freshFile, File.written]
  have hlast : (⟨(freshFile (freshDisk linux).data).last, (freshFile (freshDisk linux).crc).last⟩ : Disk) =
      freshDisk linux := by
    simp [freshFile, File.last]
  rw [Process.step, if_neg hnone]
  simp only [openNew, hdata, hcrc, hopened, hlast, start_fresh hro, hwritten, hro, Bool.false_and, Bool.false_eq_true,
    if_false, update_unit]
  rfl

lemma exec_firstHandle {d : Disk} (hd : d = freshDisk linux) :
    (firstHandle.m.exec linux calm d (.set [97] (.bool true))).err = none ∧
      (firstHandle.m.exec linux calm d (.set [97] (.bool true))).m = defaults.afterFirst linux calm [97] (.bool true) := by
  have hro : defaults.readOnly = false := rfl
  obtain ⟨hexec, -, -⟩ := first_set (P := linux) hro calm_ok [97] (.bool true) (by decide) (by decide)
  have hm : firstHandle.m = defaults.fresh linux := rfl
  rw [hd, hm, hexec]
  exact ⟨rfl, rfl⟩

/-- The process after a call has left the instance `m` and the files `d`. -/
def calledOnce (d : Disk) (m : MMKV) : Process Unit Bool :=
  { openedOnce with
    handles := Function.update (fun _ => none) 0 (some { firstHandle with m := m })
    data := fun _ => freshFile d.data
    crc := fun _ => freshFile d.crc }

/-- The process after that instance is closed. -/
def closedOnce (d : Disk) (m : MMKV) : Process Unit Bool :=
  { calledOnce d { m with closed := true } with gInstances := fun _ => none }

section Reopened

variable {d : Disk} {m : MMKV}

lemma store_openedOnce {r : Result} :
    openedOnce.store 0 firstHandle r = calledOnce ((freshDisk linux).apply r.writes) r.m := by
  have hdisk : openedOnce.disk firstHandle = freshDisk linux := rfl
  have hdata : openedOnce.data = fun _ => freshFile (freshDisk linux).data := rfl
  have hcrc : openedOnce.crc = fun _ => freshFile (freshDisk linux).crc := rfl
  have hhandles : openedOnce.handles = Function.update (fun _ => none) 0 (some firstHandle) := rfl
  have hwritten : ∀ a b, (freshFile a).written 1 b = freshFile b := by
    intro a b
    simp [freshFile, File.written]
  simp only [Process.store, hdisk, hdata, hcrc, hhandles, show firstHandle.dataGen = 1 from rfl,
    show firstHandle.crcGen = 1 from rfl, hwritten, Function.update_idem, update_unit, calledOnce]

lemma step_set : ∃ d m mi dict, openedOnce.step linux (.set false 0 [97] (.bool true) calm) = calledOnce d m ∧
    Image (defaults.crypt linux) d mi dict := by
  obtain ⟨-, hdisk, hsynced⟩ := first_set (P := linux) (show defaults.readOnly = false from rfl) calm_ok [97]
    (.bool true) (by decide) (by decide)
  have hstore : openedOnce.step linux (.set false 0 [97] (.bool true) calm) = openedOnce.store 0 firstHandle
      ((defaults.fresh linux).exec linux calm (freshDisk linux) (.set [97] (.bool true))) := rfl
  rw [store_openedOnce, hdisk] at hstore
  exact ⟨_, _, _, _, hstore, hsynced.image⟩

lemma step_close : ((calledOnce d m).step linux (.close false 0)).step linux (.resume false) = closedOnce d m := by
  have hidle : (calledOnce d m).pending false = none := rfl
  have hhandle : (calledOnce d m).handles 0 = some { firstHandle with m := m } := rfl
  have hreg : (calledOnce d m).gInstances firstHandle.key = some 0 := rfl
  have hpending : Function.update (calledOnce d m).pending false none = (calledOnce d m).pending := by
    rw [← hidle, Function.update_eq_self]
  simp only [Process.step, hidle, hhandle, deregister, hreg, if_true, setPending, Function.update_self, Process.resume,
    markClosed, Function.update_idem, hpending, update_unit]
  simp only [calledOnce, closedOnce, Function.update_idem]

lemma step_closedOnce {mi : MetaInfo} {dict : Dict} (himage : Image (defaults.crypt linux) d mi dict) :
    ∃ h, ((closedOnce d m).step linux (.mmkvWithID true () defaults calm)).handles 1 = some h ∧ h.m.closed = false := by
  have hnone : ¬ (((closedOnce d m).pending true).isSome ∨ ((closedOnce d m).cached ()).isSome) := by
    simp [closedOnce, calledOnce, openedOnce, cached]
  obtain ⟨m', hinst, hopened, -⟩ := start_of_image (P := linux) calm himage
  have hdisk : (⟨((closedOnce d m).data ()).opened.last, ((closedOnce d m).crc ()).opened.last⟩ : Disk) = d := by
    simp [closedOnce, calledOnce, freshFile, File.opened, File.last]
  refine ⟨⟨(), 1, 1, m'⟩, ?_, hopened.closed⟩
  rw [Process.step, if_neg hnone]
  simp only [openNew, show defaults.readOnly = false from rfl, Bool.false_and, Bool.false_eq_true, if_false, hdisk, hinst]
  rfl

lemma not_busy_of_idle {w : Process Unit Bool} (hw : w.pending = fun _ => none) : ¬ w.Busy () := by
  rintro ⟨g, p, hp, -⟩
  rw [hw] at hp
  cases hp

lemma both_absent : both linux (absent, fun _ => Content.empty) (.mmkvWithID false () defaults calm) =
    (openedOnce, fun _ => Content.empty) := by
  simp only [both, told, step_absent]

lemma both_set (hstep : openedOnce.step linux (.set false 0 [97] (.bool true) calm) = calledOnce d m) :
    both linux (openedOnce, fun _ => Content.empty) (.set false 0 [97] (.bool true) calm) =
      (calledOnce d m, fun _ => Content.empty.after calm 0 (.set [97] (.bool true))) := by
  have hpending : openedOnce.pending false = none := rfl
  have hhandle : openedOnce.handles 0 = some firstHandle := rfl
  obtain ⟨herr, -⟩ := exec_firstHandle (show openedOnce.disk firstHandle = freshDisk linux from rfl)
  simp only [both, hstep, told, hpending, hhandle, herr, if_true, update_unit]

lemma both_close (s : Unit → Content) :
    both linux (both linux (calledOnce d m, s) (.close false 0)) (.resume false) = (closedOnce d m, s) := by
  rw [both, both, step_close]
  rfl

lemma set_openedOnce_bounded (h : Handle Unit) (hh : openedOnce.handles 0 = some h) :
    4 + ((Op.set [97] (.bool true)).regionAfter calm (openedOnce.disk h) h.m).length < 2 ^ 32 := by
  cases hh
  have hregion : (Op.set [97] (.bool true)).regionAfter calm (openedOnce.disk firstHandle) firstHandle.m = _ :=
    regionAfter_first_set defaults calm _ [97] (.bool true)
  rw [hregion]
  decide

end Reopened

/-- A file is opened and set, its instance is closed, and another goroutine opens it again: there is one open instance,
and it serves what was set. -/
theorem reopened_after_close_serves :
    let l : List (Section Unit Bool) := [.mmkvWithID false () defaults calm, .set false 0 [97] (.bool true) calm,
      .close false 0, .resume false, .mmkvWithID true () defaults calm]
    let x := run (both linux) (absent, fun _ => Content.empty) l
    (∀ id id', (run (Process.step linux) absent l).Open id () → (run (Process.step linux) absent l).Open id' () →
      id = id') ∧
      ∃ h, x.1.handles 1 = some h ∧ h.m.closed = false ∧
        (h.m.checkLoadData (x.1.disk h) calm).content.slots [97] = some [1] := by
  intro l x
  have hstart : absent.Unopened := ⟨fun _ => rfl, fun _ => rfl, fun _ => rfl⟩
  obtain ⟨d, m, mi, dict, hstep, himage⟩ := step_set
  have hset := both_set hstep
  have hl : Along (fun x a => Section.OK linux (fun _ => none) x.1 a) (both linux) (absent, fun _ => Content.empty) l := by
    refine ⟨⟨rfl, fun _ => not_busy_of_idle rfl⟩, ⟨calm_ok, by decide, ?_⟩, trivial, trivial, ⟨rfl, fun _ => ?_⟩,
      trivial⟩
    · rw [both_absent]
      exact fun h hh _ _ => set_openedOnce_bounded h hh
    · rw [both_absent, hset, both_close]
      exact not_busy_of_idle rfl
  have hundisturbed : Along (fun w a => Section.Undisturbed w a) (Process.step linux) absent l := by
    refine ⟨fun _ => not_busy_of_idle rfl, trivial, trivial, trivial, fun _ => ?_, trivial⟩
    rw [step_absent, hstep, step_close]
    exact not_busy_of_idle rfl
  obtain ⟨hunique, hserves⟩ := one_open_instance linux (l := l) hstart
  refine ⟨fun id id' => hunique hundisturbed id id' (), ?_⟩
  have hserved := hserves (fun _ => none) (fun _ => Content.empty) (fun _ => .inr ⟨rfl, rfl, rfl⟩) hl
  have hx : run (both linux) (absent, fun _ => Content.empty) l =
      ((closedOnce d m).step linux (.mmkvWithID true () defaults calm),
        fun _ => Content.empty.after calm 0 (.set [97] (.bool true))) := by
    simp only [l, run_cons, run_nil, both_absent, hset, both_close]
    rfl
  simp only [hx] at hserved
  rw [show x = _ from hx]
  obtain ⟨h, hh, hopen⟩ := step_closedOnce himage
  refine ⟨h, hh, hopen, ?_⟩
  rw [hserved 1 h hh hopen calm]
  decide

/-- **A file opened while its instance is being closed**: two instances are open, and what is set through one is not seen
through the other. -/
theorem open_during_close_splits :
    let x := run (both linux) (absent, fun _ => Content.empty)
      [.mmkvWithID false () defaults calm, .close false 0, .mmkvWithID true () defaults calm,
        .set true 0 [97] (.bool true) calm]
    x.1.Open 0 () ∧ x.1.Open 1 () ∧ (x.2 ()).slots [97] = some [1] ∧
      ∃ h, x.1.handles 1 = some h ∧ (h.m.checkLoadData (x.1.disk h) calm).content.slots [97] = none := by
  have hhandle : openedTwice.handles 0 = some firstHandle := rfl
  have hidle : openedTwice.pending true = none := rfl
  have hdisk : openedTwice.disk firstHandle = freshDisk linux := rfl
  obtain ⟨herr, hm⟩ := exec_firstHandle hdisk
  have hrun : run (both linux) (absent, fun _ => Content.empty)
      [.mmkvWithID false () defaults calm, .close false 0, .mmkvWithID true () defaults calm,
        .set true 0 [97] (.bool true) calm] =
      (openedTwice.store 0 firstHandle (firstHandle.m.exec linux calm (openedTwice.disk firstHandle)
          (.set [97] (.bool true))),
        fun _ => Content.empty.after calm 0 (.set [97] (.bool true))) := by
    simp only [run_cons, run_nil, both, step_absent, step_openedOnce, step_halfClosed, told]
    simp only [Process.step, hidle, hhandle, herr, if_true, update_unit]
  rw [hrun]
  have hopen : (firstHandle.m.exec linux calm (openedTwice.disk firstHandle) (.set [97] (.bool true))).m.closed =
      firstHandle.m.closed := by
    rw [hm]
    rfl
  have hfirst : openedTwice.Open 0 () := ⟨firstHandle, hhandle, rfl, rfl⟩
  have hsecond : openedTwice.Open 1 () := ⟨firstHandle, rfl, rfl, rfl⟩
  refine ⟨(open_store hhandle hopen).2 hfirst, (open_store hhandle hopen).2 hsecond, by decide, firstHandle, ?_, ?_⟩
  · simp [Process.store, openedTwice]
  · have hload : firstHandle.m.needLoad = false := rfl
    have hsingle : firstHandle.m.multiProcess = false := rfl
    have hcheck : ∀ d, firstHandle.m.checkLoadData d calm = firstHandle.m := by
      intro d
      simp [MMKV.checkLoadData, hload, hsingle]
    rw [hcheck]
    show OrdMap.lookup (∅ : Dict) [97] = none
    rw [OrdMap.lookup_empty]

end MmkvGo.Registry
