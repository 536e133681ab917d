import MmkvGo.Store.Agree
import MmkvGo.Store.Run

/-!
The instances of one process and the registry that hands them out (`mmkv.go`, `mmkv_ns.go`).

A step is one critical section of a goroutine: `MMKVWithID` runs under the registry's lock, a call under its instance's
lock, and `Close` is two sections, one under each.  `RemoveStorage` looks the file up, closes the instance it
found, and unlinks the two files one after the other.  A file that is unlinked lives on for the instances that map it; a
path names a new file when it is opened again.
-/

set_option linter.unusedSectionVars false

namespace MmkvGo.Registry

open Lib Wire Store

/-- The files that a path has named, by generation; `named` says whether it names the last of them now. -/
structure File where
  named : Bool
  gen : ℕ
  bytes : ℕ → Bytes

namespace File

/-- Open the path, and create a file if it names none. -/
def opened (f : File) : File :=
  if f.named then f else ⟨true, f.gen + 1, Function.update f.bytes (f.gen + 1) []⟩

/-- `os.Remove`. -/
def removed (f : File) : File := { f with named := false }

/-- Change the bytes of one of the files. -/
def written (f : File) (gen : ℕ) (b : Bytes) : File := { f with bytes := Function.update f.bytes gen b }

/-- The bytes of the file that the path names, or named last. -/
def last (f : File) : Bytes := f.bytes f.gen

end File

/-- An instance: its registry key, the files it maps, and the rest of it. -/
structure Handle (κ : Type) where
  key : κ
  dataGen : ℕ
  crcGen : ℕ
  m : MMKV

/-- What a goroutine has still to do in `Close` or `RemoveStorage`. -/
inductive Pending (κ : Type) where
  /-- `Close`, after its section under the registry's lock. -/
  | close (id : ℕ)
  /-- `RemoveStorage`, before the first section of `Close` on the instance it found. -/
  | removeClose (key : κ) (id : ℕ)
  /-- `RemoveStorage`, between the sections of `Close`. -/
  | removeMark (key : κ) (id : ℕ)
  /-- `RemoveStorage`, before it unlinks the data file. -/
  | removeData (key : κ)
  /-- `RemoveStorage`, before it unlinks the ".crc" file. -/
  | removeCrc (key : κ)

namespace Pending

variable {κ : Type}

/-- The instance that is about to be marked as closed. -/
def marks : Pending κ → Option ℕ
  | .close id | .removeMark _ id => some id
  | _ => none

/-- The instance that is being closed. -/
def target : Pending κ → Option ℕ
  | .close id | .removeClose _ id | .removeMark _ id => some id
  | _ => none

lemma target_of_marks {p : Pending κ} {id : ℕ} (h : p.marks = some id) : p.target = some id := by
  cases p <;> first | exact h | cases h

/-- The file that is being removed, and its instance while that is not closed. -/
def removes : Pending κ → Option (κ × Option ℕ)
  | .close _ => none
  | .removeClose key id | .removeMark key id => some (key, some id)
  | .removeData key | .removeCrc key => some (key, none)

end Pending

/-- A process, with goroutines `γ` and registry keys `κ`. -/
structure Process (κ γ : Type) where
  gInstances : κ → Option ℕ
  handles : ℕ → Option (Handle κ)
  /-- The number of instances made so far. -/
  count : ℕ
  data : κ → File
  crc : κ → File
  pending : γ → Option (Pending κ)

/-- A critical section. -/
inductive Section (κ γ : Type) where
  | mmkvWithID (g : γ) (key : κ) (cfg : Config) (sys : Sys)
  | set (g : γ) (id : ℕ) (key : Bytes) (v : Value) (sys : Sys)
  | get (g : γ) (id : ℕ) (sys : Sys)
  | close (g : γ) (id : ℕ)
  | removeStorage (g : γ) (key : κ)
  /-- The goroutine goes on with what it has still to do. -/
  | resume (g : γ)

namespace Process

variable {κ γ : Type} [DecidableEq κ] [DecidableEq γ] (P : Platform) (w : Process κ γ)

/-- The instance exists and is not closed. -/
def live (id : ℕ) : Bool := (w.handles id).any fun h => !h.m.closed

/-- The files that an instance maps. -/
def disk (h : Handle κ) : Disk := ⟨(w.data h.key).bytes h.dataGen, (w.crc h.key).bytes h.crcGen⟩

/-- The files that the paths of a key name. -/
def diskOf (key : κ) : Disk := ⟨(w.data key).last, (w.crc key).last⟩

/-- The instance that `MMKVWithID` finds. -/
def cached (key : κ) : Option ℕ := (w.gInstances key).filter w.live

/-- The part of `MMKVWithID` that opens a file it has no instance of. -/
def openNew (key : κ) (cfg : Config) (sys : Sys) : Process κ γ :=
  -- a read-only open creates nothing
  if cfg.readOnly && !((w.data key).named && (w.crc key).named) then w
  else
    let data := (w.data key).opened
    let crc := (w.crc key).opened
    let start := World.start P cfg sys ⟨data.last, crc.last⟩
    let w := { w with
      data := Function.update w.data key (data.written data.gen start.disk.data)
      crc := Function.update w.crc key (crc.written crc.gen start.disk.crc) }
    -- an open that fails leaves the files that it created
    match start.inst with
    | .error _ => w
    | .ok m =>
      { w with
        gInstances := Function.update w.gInstances key (some w.count)
        handles := Function.update w.handles w.count (some ⟨key, data.gen, crc.gen, m⟩)
        count := w.count + 1 }

/-- An instance and its files after a call. -/
def store (id : ℕ) (h : Handle κ) (r : Result) : Process κ γ :=
  let d := (w.disk h).apply r.writes
  { w with
    data := Function.update w.data h.key ((w.data h.key).written h.dataGen d.data)
    crc := Function.update w.crc h.key ((w.crc h.key).written h.crcGen d.crc)
    handles := Function.update w.handles id (some { h with m := r.m }) }

/-- The section of `Close` under the registry's lock. -/
def deregister (id : ℕ) : Process κ γ :=
  match w.handles id with
  | none => w
  | some h =>
    -- another instance of the key may be registered by now
    if w.gInstances h.key = some id then { w with gInstances := Function.update w.gInstances h.key none } else w

/-- The section of `Close` under the instance's lock. -/
def markClosed (id : ℕ) : Process κ γ :=
  match w.handles id with
  | none => w
  | some h => { w with handles := Function.update w.handles id (some { h with m := { h.m with closed := true } }) }

def setPending (g : γ) (p : Option (Pending κ)) : Process κ γ := { w with pending := Function.update w.pending g p }

/-- What a goroutine does next in `Close` or `RemoveStorage`. -/
def resume (g : γ) : Pending κ → Process κ γ
  | .close id => (w.markClosed id).setPending g none
  | .removeClose key id => (w.deregister id).setPending g (some (.removeMark key id))
  | .removeMark key id => (w.markClosed id).setPending g (some (.removeData key))
  | .removeData key =>
    { w with data := Function.update w.data key (w.data key).removed }.setPending g (some (.removeCrc key))
  | .removeCrc key => { w with crc := Function.update w.crc key (w.crc key).removed }.setPending g none

def step (a : Section κ γ) : Process κ γ :=
  match a with
  | .mmkvWithID g key cfg sys =>
    if (w.pending g).isSome ∨ (w.cached key).isSome then w else w.openNew P key cfg sys
  | .set g id key v sys =>
    match w.pending g, w.handles id with
    | none, some h => w.store id h (h.m.exec P sys (w.disk h) (.set key v))
    | _, _ => w
  | .get g id sys =>
    match w.pending g, w.handles id with
    | none, some h => w.store id h ⟨[], (h.m.get sys (w.disk h) (fun _ => ()) ()).1, none⟩
    | _, _ => w
  | .close g id =>
    match w.pending g, w.handles id with
    | none, some _ => (w.deregister id).setPending g (some (.close id))
    | _, _ => w
  | .removeStorage g key =>
    if (w.pending g).isSome then w
    else
      match w.gInstances key with
      | some id => w.setPending g (some (.removeClose key id))
      | none => w.setPending g (some (.removeData key))
  | .resume g =>
    match w.pending g with
    | none => w
    | some p => w.resume g p

/-- The instance of `key` is open. -/
def Open (id : ℕ) (key : κ) : Prop := ∃ h, w.handles id = some h ∧ h.key = key ∧ h.m.closed = false

/-- A `Close` of an instance of the key is between its sections, or a `RemoveStorage` of the key is not finished. -/
def Busy (key : κ) : Prop :=
  ∃ g p, w.pending g = some p ∧
    ((∃ o, p.removes = some (key, o)) ∨ ∃ id h, p.marks = some id ∧ w.handles id = some h ∧ h.key = key)

/-- What the registry guarantees while files are opened and removed only when they are not busy. -/
structure Reg : Prop where
  fresh : ∀ id, w.count ≤ id → w.handles id = none
  target : ∀ g p id, w.pending g = some p → p.target = some id → w.handles id ≠ none
  registered : ∀ key id, w.gInstances key = some id → w.Open id key
  /-- What is about to be marked as closed is not registered any more. -/
  leaving : ∀ g p id, w.pending g = some p → p.marks = some id → ∀ key, w.gInstances key ≠ some id
  covered : ∀ id key, w.Open id key → w.gInstances key = some id ∨ ∃ g p, w.pending g = some p ∧ p.marks = some id
  removing : ∀ g p key o, w.pending g = some p → p.removes = some (key, o) → ∀ id, w.Open id key → o = some id
  unique : ∀ id id' key, w.Open id key → w.Open id' key → id = id'

/-! ### What the single updates do -/

section Updates

variable {w} {g : γ} {id : ℕ}

@[simp] lemma open_setPending {p : Option (Pending κ)} {id' : ℕ} {key : κ} :
    (w.setPending g p).Open id' key ↔ w.Open id' key := Iff.rfl

lemma setPending_cases {o : Option (Pending κ)} {g' : γ} {p : Pending κ} (h : (w.setPending g o).pending g' = some p) :
    g' = g ∧ o = some p ∨ g' ≠ g ∧ w.pending g' = some p := by
  by_cases hg : g' = g
  · subst hg
    simp only [setPending, Function.update_self] at h
    exact .inl ⟨rfl, h⟩
  · simp only [setPending, Function.update_of_ne hg] at h
    exact .inr ⟨hg, h⟩

lemma open_deregister {id' : ℕ} {key : κ} : (w.deregister id).Open id' key ↔ w.Open id' key := by
  unfold deregister
  split
  · rfl
  · split <;> rfl

lemma open_markClosed {id' : ℕ} {key : κ} : (w.markClosed id).Open id' key ↔ id' ≠ id ∧ w.Open id' key := by
  unfold markClosed
  split
  · rename_i hnone
    refine ⟨fun h => ⟨?_, h⟩, And.right⟩
    rintro rfl
    obtain ⟨h', hh', -⟩ := h
    rw [hnone] at hh'
    cases hh'
  · rename_i h hh
    by_cases hid : id' = id
    · subst hid
      simp [Open]
    · simp [Open, hid]

lemma open_store {h : Handle κ} {r : Result} {id' : ℕ} {key : κ} (hh : w.handles id = some h)
    (hclosed : r.m.closed = h.m.closed) : (w.store id h r).Open id' key ↔ w.Open id' key := by
  by_cases hid : id' = id
  · subst hid
    simp [Open, store, hh, hclosed]
  · simp [Open, store, Function.update_of_ne hid]

lemma deregister_eq (w : Process κ γ) (id : ℕ) : ∃ reg, w.deregister id = { w with gInstances := reg } := by
  unfold deregister
  split
  · exact ⟨_, rfl⟩
  · split <;> exact ⟨_, rfl⟩

lemma markClosed_eq (w : Process κ γ) (id : ℕ) : ∃ handles, w.markClosed id = { w with handles := handles } := by
  unfold markClosed
  split <;> exact ⟨_, rfl⟩

lemma deregister_pending : (w.deregister id).pending = w.pending := by
  obtain ⟨_, h⟩ := deregister_eq w id
  rw [h]

lemma deregister_handles : (w.deregister id).handles = w.handles := by
  obtain ⟨_, h⟩ := deregister_eq w id
  rw [h]

lemma deregister_count : (w.deregister id).count = w.count := by
  obtain ⟨_, h⟩ := deregister_eq w id
  rw [h]

lemma deregister_files : (w.deregister id).data = w.data ∧ (w.deregister id).crc = w.crc := by
  obtain ⟨_, h⟩ := deregister_eq w id
  rw [h]
  exact ⟨rfl, rfl⟩

lemma markClosed_pending : (w.markClosed id).pending = w.pending := by
  obtain ⟨_, h⟩ := markClosed_eq w id
  rw [h]

lemma markClosed_gInstances : (w.markClosed id).gInstances = w.gInstances := by
  obtain ⟨_, h⟩ := markClosed_eq w id
  rw [h]

lemma markClosed_files : (w.markClosed id).data = w.data ∧ (w.markClosed id).crc = w.crc := by
  obtain ⟨_, h⟩ := markClosed_eq w id
  rw [h]
  exact ⟨rfl, rfl⟩

lemma handles_of_markClosed {id' : ℕ} {h : Handle κ} (hh : (w.markClosed id).handles id' = some h)
    (hclosed : h.m.closed = false) : w.handles id' = some h := by
  unfold markClosed at hh
  split at hh
  · exact hh
  · by_cases hid : id' = id
    · subst hid
      simp only [Function.update_self, Option.some.injEq] at hh
      subst hh
      cases hclosed
    · simpa only [Function.update_of_ne hid] using hh

lemma markClosed_handles_ne_none {id' : ℕ} (h : w.handles id' ≠ none) : (w.markClosed id).handles id' ≠ none := by
  unfold markClosed
  split
  · exact h
  · by_cases hid : id' = id
    · subst hid
      simp
    · simpa only [Function.update_of_ne hid] using h

lemma Reg.gInstances_deregister (hw : w.Reg) {id' : ℕ} {key : κ} :
    (w.deregister id).gInstances key = some id' ↔ w.gInstances key = some id' ∧ id' ≠ id := by
  have hkey : ∀ {key}, w.gInstances key = some id → ∃ h, w.handles id = some h ∧ h.key = key := fun h =>
    (hw.registered _ _ h).imp fun _ h => ⟨h.1, h.2.1⟩
  unfold deregister
  split
  · rename_i hnone
    refine ⟨fun h => ⟨h, ?_⟩, And.left⟩
    rintro rfl
    obtain ⟨h', hh', -⟩ := hkey h
    rw [hnone] at hh'
    cases hh'
  · rename_i h hh
    split
    · rename_i hreg
      by_cases hk : key = h.key
      · subst hk
        simp [hreg, eq_comm]
      · simp only [Function.update_of_ne hk]
        refine ⟨fun h' => ⟨h', ?_⟩, And.left⟩
        rintro rfl
        obtain ⟨h'', hh'', hk'⟩ := hkey h'
        cases hh.symm.trans hh''
        exact hk hk'.symm
    · rename_i hreg
      refine ⟨fun h' => ⟨h', ?_⟩, And.left⟩
      rintro rfl
      obtain ⟨h'', hh'', hk'⟩ := hkey h'
      cases hh.symm.trans hh''
      -- the registry has the instance under its own key or not at all
      exact hreg (hk' ▸ h')

end Updates

/-! ### The registry along a run -/

section Invariant

variable {w} {g : γ} {id : ℕ}

lemma Reg.quiet (hw : w.Reg) {o : Option (Pending κ)} {data crc : κ → File}
    (hmarks : ∀ p, w.pending g = some p → p.marks = none) (hmarks' : ∀ p, o = some p → p.marks = none)
    (htarget : ∀ p id, o = some p → p.target = some id → w.handles id ≠ none)
    (hremoves : ∀ p key i, o = some p → p.removes = some (key, i) → ∀ id, w.Open id key → i = some id) :
    ({ w with data := data, crc := crc }.setPending g o).Reg where
  fresh := hw.fresh
  target g' p id hp ht := by
    rcases setPending_cases hp with ⟨rfl, ho⟩ | ⟨-, hp⟩
    · exact htarget p id ho ht
    · exact hw.target g' p id hp ht
  registered := hw.registered
  leaving g' p id hp hm key := by
    rcases setPending_cases hp with ⟨rfl, ho⟩ | ⟨-, hp⟩
    · rw [hmarks' p ho] at hm
      cases hm
    · exact hw.leaving g' p id hp hm key
  covered id key hopen := by
    refine (hw.covered id key hopen).imp_right fun ⟨g', p, hp, hm⟩ => ⟨g', p, ?_, hm⟩
    have hg : g' ≠ g := by
      rintro rfl
      rw [hmarks p hp] at hm
      cases hm
    simpa only [setPending, Function.update_of_ne hg] using hp
  removing g' p key i hp hr id hopen := by
    rcases setPending_cases hp with ⟨rfl, ho⟩ | ⟨-, hp⟩
    · exact hremoves p key i ho hr id hopen
    · exact hw.removing g' p key i hp hr id hopen
  unique := hw.unique

/-- The first section of a `Close`. -/
lemma Reg.leave (hw : w.Reg) {p : Pending κ} (hmarks : ∀ p', w.pending g = some p' → p'.marks = none)
    (hp : p.marks = some id) (hid : w.handles id ≠ none)
    (hremoves : ∀ key i, p.removes = some (key, i) → ∀ id, w.Open id key → i = some id) :
    ((w.deregister id).setPending g (some p)).Reg where
  fresh id' hid' := by
    simp only [setPending, deregister_count, deregister_handles] at hid' ⊢
    exact hw.fresh id' hid'
  target g' p' id' hp' ht := by
    simp only [setPending, deregister_handles]
    rcases setPending_cases hp' with ⟨rfl, ⟨⟩⟩ | ⟨-, hp'⟩
    · cases ht.symm.trans (Pending.target_of_marks hp)
      exact hid
    · rw [deregister_pending] at hp'
      exact hw.target g' p' id' hp' ht
  registered key id' h := open_deregister.2 (hw.registered key id' (hw.gInstances_deregister.1 h).1)
  leaving g' p' id' hp' hm key h := by
    obtain ⟨hreg, hne⟩ := hw.gInstances_deregister.1 h
    rcases setPending_cases hp' with ⟨rfl, ⟨⟩⟩ | ⟨-, hp'⟩
    · exact hne (Option.some.inj (hm.symm.trans hp))
    · rw [deregister_pending] at hp'
      exact hw.leaving g' p' id' hp' hm key hreg
  covered id' key hopen := by
    rw [open_setPending, open_deregister] at hopen
    by_cases hid : id' = id
    · subst hid
      -- no longer registered, but still to be marked
      exact .inr ⟨g, p, by simp [setPending], hp⟩
    · refine (hw.covered id' key hopen).imp (fun h => hw.gInstances_deregister.2 ⟨h, hid⟩) fun ⟨g', p', hp', hm⟩ => ?_
      have hg : g' ≠ g := by
        rintro rfl
        rw [hmarks p' hp'] at hm
        cases hm
      exact ⟨g', p', by simpa only [setPending, Function.update_of_ne hg, deregister_pending] using hp', hm⟩
  removing g' p' key i hp' hr id' hopen := by
    rw [open_setPending, open_deregister] at hopen
    rcases setPending_cases hp' with ⟨rfl, ⟨⟩⟩ | ⟨-, hp'⟩
    · exact hremoves key i hr id' hopen
    · rw [deregister_pending] at hp'
      exact hw.removing g' p' key i hp' hr id' hopen
  unique id₁ id₂ key h₁ h₂ := by
    rw [open_setPending, open_deregister] at h₁ h₂
    exact hw.unique id₁ id₂ key h₁ h₂

/-- The second section of a `Close`. -/
lemma Reg.mark (hw : w.Reg) {p : Pending κ} {o : Option (Pending κ)} (hp : w.pending g = some p)
    (hmarks : p.marks = some id) (hmarks' : ∀ p', o = some p' → p'.target = none)
    (hremoves : ∀ p' key i, o = some p' → p'.removes = some (key, i) → p.removes = some (key, some id)) :
    ((w.markClosed id).setPending g o).Reg where
  fresh := by
    intro id' hid'
    unfold markClosed at hid' ⊢
    split at hid'
    · exact hw.fresh id' hid'
    · rename_i h hh
      have hne : id' ≠ id := by
        rintro rfl
        rw [hw.fresh id' hid'] at hh
        cases hh
      simpa only [setPending, Function.update_of_ne hne] using hw.fresh id' hid'
  target g' p' id' hp' ht := by
    rcases setPending_cases hp' with ⟨rfl, ho⟩ | ⟨-, hp'⟩
    · rw [hmarks' p' ho] at ht
      cases ht
    · rw [markClosed_pending] at hp'
      exact markClosed_handles_ne_none (hw.target g' p' id' hp' ht)
  registered key id' h := by
    simp only [setPending, markClosed_gInstances] at h
    refine open_setPending.2 (open_markClosed.2 ⟨?_, hw.registered key id' h⟩)
    rintro rfl
    exact hw.leaving g p id' hp hmarks key h
  leaving g' p' id' hp' hm key h := by
    simp only [setPending, markClosed_gInstances] at h
    rcases setPending_cases hp' with ⟨rfl, ho⟩ | ⟨-, hp'⟩
    · cases (hmarks' p' ho).symm.trans (Pending.target_of_marks hm)
    · rw [markClosed_pending] at hp'
      exact hw.leaving g' p' id' hp' hm key h
  covered id' key hopen := by
    obtain ⟨hid, hopen⟩ := open_markClosed.1 (open_setPending.1 hopen)
    simp only [setPending, markClosed_gInstances]
    refine (hw.covered id' key hopen).imp_right fun ⟨g', p', hp', hm⟩ => ⟨g', p', ?_, hm⟩
    -- what `g` was to mark is the instance that is closed now
    have hg : g' ≠ g := by
      rintro rfl
      cases hp.symm.trans hp'
      exact hid (Option.some.inj (hm.symm.trans hmarks))
    simpa only [Function.update_of_ne hg, markClosed_pending] using hp'
  removing g' p' key i hp' hr id' hopen := by
    obtain ⟨hid, hopen'⟩ := open_markClosed.1 (open_setPending.1 hopen)
    rcases setPending_cases hp' with ⟨rfl, ho⟩ | ⟨-, hp'⟩
    · have hsame := hw.removing g' p key _ hp (hremoves p' key i ho hr) id' hopen'
      exact absurd (Option.some.inj hsame).symm hid
    · rw [markClosed_pending] at hp'
      exact hw.removing g' p' key i hp' hr id' hopen'
  unique id₁ id₂ key h₁ h₂ :=
    hw.unique id₁ id₂ key (open_markClosed.1 (open_setPending.1 h₁)).2 (open_markClosed.1 (open_setPending.1 h₂)).2

lemma Reg.store (hw : w.Reg) {h : Handle κ} {r : Result} (hh : w.handles id = some h)
    (hclosed : r.m.closed = h.m.closed) : (w.store id h r).Reg where
  fresh id' hid' := by
    have hne : id' ≠ id := by
      rintro rfl
      rw [hw.fresh id' hid'] at hh
      cases hh
    simpa only [Process.store, Function.update_of_ne hne] using hw.fresh id' hid'
  target g' p id' hp ht := by
    by_cases hid : id' = id
    · subst hid
      simp [Process.store]
    · simpa only [Process.store, Function.update_of_ne hid] using hw.target g' p id' hp ht
  registered key id' h' := (open_store hh hclosed).2 (hw.registered key id' h')
  leaving := hw.leaving
  covered id' key hopen := hw.covered id' key ((open_store hh hclosed).1 hopen)
  removing g' p key i hp hr id' hopen := hw.removing g' p key i hp hr id' ((open_store hh hclosed).1 hopen)
  unique id₁ id₂ key h₁ h₂ := hw.unique id₁ id₂ key ((open_store hh hclosed).1 h₁) ((open_store hh hclosed).1 h₂)

lemma Reg.not_open (hw : w.Reg) {key : κ} (hcached : w.cached key = none) (hbusy : ¬ w.Busy key) (id : ℕ) :
    ¬ w.Open id key := by
  intro hopen
  have hopen' := hopen
  obtain ⟨h, hh, hkey, hclosed⟩ := hopen'
  rcases hw.covered id key hopen with hreg | ⟨g, p, hp, hm⟩
  · have hlive : w.live id = true := by simp [live, hh, hclosed]
    rw [cached, hreg, Option.filter_some, if_pos hlive] at hcached
    cases hcached
  · exact hbusy ⟨g, p, hp, .inr ⟨id, h, hm, hh, hkey⟩⟩

lemma Reg.opened (hw : w.Reg) {key : κ} {h : Handle κ} {data crc : κ → File} (hkey : h.key = key)
    (hclosed : h.m.closed = false) (hnone : ∀ id, ¬ w.Open id key)
    (hbusy : ¬ w.Busy key) :
    Reg { w with
      data := data
      crc := crc
      gInstances := Function.update w.gInstances key (some w.count)
      handles := Function.update w.handles w.count (some h)
      count := w.count + 1 } := by
  have hopen : ∀ {id' key'}, Open { w with
      data := data
      crc := crc
      gInstances := Function.update w.gInstances key (some w.count)
      handles := Function.update w.handles w.count (some h)
      count := w.count + 1 } id' key' ↔ id' = w.count ∧ key' = key ∨ w.Open id' key' := by
    intro id' key'
    by_cases hid : id' = w.count
    · subst hid
      have hfresh := hw.fresh w.count le_rfl
      simp only [Open, Function.update_self, Option.some.injEq, exists_eq_left', hkey, hclosed, and_true, true_and,
        hfresh, reduceCtorEq, false_and, exists_false, or_false]
      exact eq_comm
    · simp [Open, hid]
  -- the new instance is the only open one of its file, and nobody is about to remove it
  refine ⟨fun id' hid' => ?_, fun g p id' hp ht => ?_, fun key' id' hreg => ?_, fun g p id' hp hm key' hreg => ?_,
    fun id' key' ho => ?_, fun g p key' i hp hr id' ho => ?_, fun id₁ id₂ key' h₁ h₂ => ?_⟩
  · have hne : id' ≠ w.count := by
      simp only at hid'
      omega
    simpa only [Function.update_of_ne hne] using hw.fresh id' (by simp only at hid'; omega)
  · by_cases hid : id' = w.count
    · subst hid
      simp
    · simpa only [Function.update_of_ne hid] using hw.target g p id' hp ht
  · by_cases hk : key' = key
    · subst hk
      simp only [Function.update_self, Option.some.injEq] at hreg
      exact hopen.2 (.inl ⟨hreg.symm, rfl⟩)
    · simp only [Function.update_of_ne hk] at hreg
      exact hopen.2 (.inr (hw.registered key' id' hreg))
  · by_cases hk : key' = key
    · subst hk
      simp only [Function.update_self, Option.some.injEq] at hreg
      subst hreg
      exact hw.target g p w.count hp (Pending.target_of_marks hm) (hw.fresh w.count le_rfl)
    · simp only [Function.update_of_ne hk] at hreg
      exact hw.leaving g p id' hp hm key' hreg
  · rcases hopen.1 ho with ⟨rfl, rfl⟩ | ho
    · exact .inl (by simp)
    · have hk : key' ≠ key := fun hk => hnone id' (hk ▸ ho)
      simpa only [Function.update_of_ne hk] using hw.covered id' key' ho
  · rcases hopen.1 ho with ⟨rfl, rfl⟩ | ho
    · exact absurd ⟨g, p, hp, .inl ⟨i, hr⟩⟩ hbusy
    · exact hw.removing g p key' i hp hr id' ho
  · rcases hopen.1 h₁ with ⟨rfl, rfl⟩ | h₁ <;> rcases hopen.1 h₂ with ⟨rfl, h⟩ | h₂
    · rfl
    · exact absurd h₂ (hnone id₂)
    · exact absurd (h ▸ h₁) (hnone id₁)
    · exact hw.unique id₁ id₂ key' h₁ h₂

lemma Reg.openNew {P : Platform} (hw : w.Reg) {key : κ} {cfg : Config} {sys : Sys} (hcached : w.cached key = none)
    (hbusy : ¬ w.Busy key) : (w.openNew P key cfg sys).Reg := by
  rw [Process.openNew]
  split
  · exact hw
  dsimp only
  split
  · exact ⟨hw.fresh, hw.target, hw.registered, hw.leaving, hw.covered, hw.removing, hw.unique⟩
  · next m hm => exact hw.opened rfl (openMMKV_closed P sys _ hm) (hw.not_open hcached hbusy) hbusy

lemma Reg.remove (hw : w.Reg) {key : κ} {p : Pending κ} (hidle : w.pending g = none) (hbusy : ¬ w.Busy key)
    (hmarks : p.marks = none) (hremoves : p.removes = some (key, w.gInstances key))
    (htarget : ∀ id, p.target = some id → w.gInstances key = some id) : (w.setPending g (some p)).Reg := by
  have hopen : ∀ id, w.Open id key → w.gInstances key = some id := by
    intro id ho
    have ho' := ho
    obtain ⟨h, hh, hkey, -⟩ := ho'
    exact (hw.covered id key ho).resolve_right fun ⟨g', p', hp', hm⟩ =>
      hbusy ⟨g', p', hp', .inr ⟨id, h, hm, hh, hkey⟩⟩
  refine hw.quiet (fun p' hp' => ?_) (fun p' hp' => ?_) (fun p' id hp' ht => ?_) fun p' key' i hp' hr id ho => ?_
  · rw [hidle] at hp'
    cases hp'
  · cases hp'
    exact hmarks
  · cases hp'
    obtain ⟨h, hh, -⟩ := hw.registered key id (htarget id ht)
    simp [hh]
  · cases hp'
    rw [hremoves] at hr
    cases hr
    exact hopen id ho

lemma Reg.resume (hw : w.Reg) {p : Pending κ} (hp : w.pending g = some p) : (w.resume g p).Reg := by
  cases p with
  | close id => exact hw.mark hp rfl (by simp) (by simp)
  | removeClose key id =>
    refine hw.leave (fun p' hp' => ?_) rfl (hw.target g _ id hp rfl) fun key' i hr id' ho => ?_
    · cases hp.symm.trans hp'
      rfl
    · cases hr
      exact hw.removing g _ key _ hp rfl id' ho
  | removeMark key id =>
    refine hw.mark hp rfl (fun p' hp' => ?_) fun p' key' i hp' hr => ?_
    · cases hp'
      rfl
    · cases hp'
      cases hr
      rfl
  | removeData key =>
    refine hw.quiet (fun p' hp' => ?_) (fun p' hp' => ?_) (fun p' id hp' ht => ?_) fun p' key' i hp' hr id ho => ?_
    · cases hp.symm.trans hp'
      rfl
    · cases hp'
      rfl
    · cases hp'
      cases ht
    · cases hp'
      cases hr
      exact hw.removing g _ key _ hp rfl id ho
  | removeCrc key =>
    refine hw.quiet (fun p' hp' => ?_) (by simp) (by simp) (by simp)
    cases hp.symm.trans hp'
    rfl

end Invariant

end Process

/-- The condition on a critical section: a file that is not open is opened, and one is removed, only when it is not
busy. -/
def Section.Undisturbed {κ γ : Type} (w : Process κ γ) : Section κ γ → Prop
  | .mmkvWithID _ key _ _ => w.cached key = none → ¬ w.Busy key
  | .removeStorage _ key => ¬ w.Busy key
  | _ => True

namespace Process

variable {κ γ : Type} [DecidableEq κ] [DecidableEq γ] {P : Platform} {w : Process κ γ} {a : Section κ γ}

/-- **One critical section.**  No call needs to succeed for this, and the files may hold anything. -/
theorem Reg.step (hw : w.Reg) (ha : a.Undisturbed w) : (w.step P a).Reg := by
  cases a with
  | mmkvWithID g key cfg sys =>
    rw [Process.step]
    split
    · exact hw
    · next hnot =>
      have hcached : w.cached key = none := by
        rw [← Option.not_isSome_iff_eq_none]
        exact fun h => hnot (.inr h)
      exact hw.openNew hcached (ha hcached)
  | set g id key v sys =>
    rw [Process.step]
    split
    · next hh => exact hw.store hh (MMKV.exec_set_closed ..)
    · exact hw
  | get g id sys =>
    rw [Process.step]
    split
    · next hh => exact hw.store hh (MMKV.get_closed ..)
    · exact hw
  | close g id =>
    rw [Process.step]
    split
    · next hidle hh => exact hw.leave (by simp [hidle]) rfl (by simp [hh]) (fun _ _ hr => by cases hr)
    · exact hw
  | removeStorage g key =>
    rw [Process.step]
    split
    · exact hw
    next hsome =>
    have hidle : w.pending g = none := by simpa using hsome
    split
    · next id hid =>
      refine hw.remove hidle ha rfl (by rw [hid]; rfl) fun id' hid' => ?_
      cases hid'
      exact hid
    · next hid => exact hw.remove hidle ha rfl (by rw [hid]; rfl) fun id' hid' => by cases hid'
  | resume g =>
    rw [Process.step]
    split
    · exact hw
    · next hp => exact hw.resume hp

/-- A process that has no instance yet. -/
structure Unopened (w : Process κ γ) : Prop where
  gInstances : ∀ key, w.gInstances key = none
  handles : ∀ id, w.handles id = none
  pending : ∀ g, w.pending g = none

lemma Unopened.reg (h : w.Unopened) : w.Reg where
  fresh id _ := h.handles id
  target g p id hp := by simp [h.pending] at hp
  registered key id hid := by simp [h.gInstances] at hid
  leaving g p id hp := by simp [h.pending] at hp
  covered id key := by
    rintro ⟨_, hh, -⟩
    simp [h.handles] at hh
  removing g p key o hp := by simp [h.pending] at hp
  unique id id' key := by
    rintro ⟨_, hh, -⟩
    simp [h.handles] at hh

end Process

end MmkvGo.Registry
