import MmkvGo.Store.Run

/-!
A plaintext store of one process is a map: whatever calls it makes, and however often it is closed and opened again, the
map it serves, the map its files reopen to and the map the calls describe are the same.
-/

namespace MmkvGo.Store

open MmkvGo.Lib MmkvGo.Wire MmkvGo.Crypt Std

/-- The calls of a store with neither expiration nor encryption, on keys that are not empty. -/
def Op.Basic : Op → Prop
  | .set key _ => key ≠ []
  | .enableAutoKeyExpire _ | .disableAutoKeyExpire | .reKey _ => False
  | _ => True

/-- Options of a plaintext, single-process, writable instance. -/
structure Config.Plain (cfg : Config) : Prop where
  multiProcess : cfg.multiProcess = false
  readOnly : cfg.readOnly = false
  cryptKey : cfg.cryptKey = []

/-- The condition on the actions of a plaintext single-process store. -/
def Act.Plain (w : World) : Act → Prop
  | .call op sys => sys.OK ∧ op.Basic ∧ ∀ m, w.inst = .ok m →
      4 + (op.regionAfter sys w.disk (m.checkLoadData w.disk sys)).length < 2 ^ 32
  | .reopen cfg _ => cfg.Plain

/-- What an action does to a map from keys to blobs: a set binds, a removal and a clear unbind. -/
def mapStep (f : Bytes → Option Bytes) : Act → Bytes → Option Bytes
  | .call (.set key v) _ => Function.update f key (some v.blob)
  | .call (.removeValueForKey key) _ => Function.update f key none
  | .call (.removeValuesForKeys keys) _ => fun k => if k ∈ keys then none else f k
  | .call .clearAll _ => fun _ => none
  | _ => f

section Plain

variable {P : Platform} {w : World} {a : Act}

lemma Config.Plain.crypt_eq {cfg : Config} (h : cfg.Plain) : cfg.crypt P = none := by
  rw [Config.crypt, if_pos h.cryptKey]

/-- A plaintext store whose map is `f`. -/
def PlainMap (w : World) (f : Bytes → Option Bytes) : Prop := ∃ m s, Tracks w s m ∧ s.crypt = none ∧ s.content = ⟨f, false⟩

lemma Act.Plain.ok {m : MMKV} {s : Model} (h : Tracks w s m) (hcrypt : s.crypt = none) (hplain : a.Plain w) :
    a.OK P w := by
  have hnone : ∀ m₀, w.inst = .ok m₀ → m₀.crypt = none := fun _ hm₀ => (h.inst_crypt hm₀).trans hcrypt
  cases a with
  | reopen cfg sys => exact ⟨hplain.readOnly, fun m₀ hm₀ => hplain.crypt_eq.trans (hnone m₀ hm₀).symm⟩
  | call op sys =>
    refine ⟨hplain.1, fun m₀ hm₀ => ⟨?_, hplain.2.2 m₀ hm₀⟩⟩
    rw [h.checkLoadData hm₀ hplain.1.remap]
    cases op with
    | set key v => exact hplain.2.1
    | removeValueForKey key => exact .inl (h.crypt.trans hcrypt)
    | _ => trivial

theorem step_plainMap {f : Bytes → Option Bytes} (h : PlainMap w f) (hplain : a.Plain w) :
    PlainMap (w.step P a) (mapStep f a) := by
  obtain ⟨m, s, htracks, hcrypt, hcontent⟩ := h
  obtain ⟨m', h'⟩ := step_tracks htracks (hplain.ok htracks hcrypt)
  refine ⟨m', s.step P a, h', ?_⟩
  cases a with
  | reopen cfg sys => exact ⟨hplain.crypt_eq, hcontent⟩
  | call op sys =>
    obtain ⟨-, hbasic, -⟩ := hplain
    simp only [Model.step, hcontent, hcrypt]
    cases op <;> simp_all [Op.Basic, Op.cryptAfter, Content.after, Content.slot, mapStep]

/-- **A plaintext single-process store is a map.**  After any run from fresh files, the next access serves the map of the
calls, the files reopen to it, the meta is the one in memory, and its CRC is that of the region. -/
theorem plain_store_is_map {d : Disk} {cfg : Config} {sys : Sys} {acts : List Act} (hblank : Blank d)
    (hcfg : cfg.Plain) (hacts : Along Act.Plain (World.step P) (World.start P cfg sys d) acts) :
    let w := run (World.step P) (World.start P cfg sys d) acts
    let map := run mapStep (fun _ => none) acts
    ∃ m, w.inst = .ok m ∧
      (∀ sys', sys'.remap = none → OrdMap.lookup (m.checkLoadData w.disk sys').dict = map) ∧
      (∀ cfg' sys', cfg'.Plain →
        ∃ m', (World.start P cfg' sys' w.disk).inst = .ok m' ∧ OrdMap.lookup m'.dict = map) ∧
      parseMeta w.disk.crc = .ok m.info ∧
      Crc32.checksum (w.disk.region m.info.actualSize) = m.info.crcDigest := by
  have hstart : PlainMap (World.start P cfg sys d) (fun _ => none) := by
    have hstored : Stored (cfg.crypt P) d blankMeta ∅ := .inr ⟨hblank, rfl, rfl⟩
    obtain ⟨m, h, -⟩ := tracks_start sys hstored hcfg.readOnly
    refine ⟨m, _, h, hcfg.crypt_eq, ?_⟩
    rw [OrdMap.lookup_empty]
    rfl
  obtain ⟨m, s, h, hcrypt, hcontent⟩ := hacts.simulation (fun _ _ _ => step_plainMap) hstart
  intro w map
  have hmap : OrdMap.lookup m.dict = map := congrArg Content.slots (h.content.trans hcontent)
  obtain ⟨m₀, hinst, hdrop⟩ := h.inst_eq
  refine ⟨m₀, hinst, fun sys' hsys' => ?_, fun cfg' sys' hcfg' => ?_, ?_, ?_⟩
  · rw [h.checkLoadData hinst hsys', hmap]
  · have hkey : cfg'.crypt P = m.crypt := by rw [hcfg'.crypt_eq, h.crypt, hcrypt]
    obtain ⟨m', hm', hdict, -⟩ := h.synced.reopens hcfg'.readOnly hkey sys'
    exact ⟨m', hm', by rw [hdict, hmap]⟩
  · rw [hdrop.info]
    exact h.synced.image.parse
  · rw [hdrop.info]
    exact h.synced.image.crc

end Plain

/-! ### A run -/

/-- Pages of 4096 bytes, and a block function of no further interest. -/
def linux : Platform := ⟨4096, by decide, by decide, fun _ b => b.map (255 - ·)⟩

/-- A system in which no call fails. -/
def calm : Sys := ⟨0, some (Vector.replicate 16 0), none, none, none, false, false, false⟩

lemma calm_ok : calm.OK := ⟨rfl, rfl, rfl, rfl, rfl, rfl, rfl⟩

/-- The default options. -/
def defaults : Config := ⟨false, false, false, []⟩

lemma defaults_plain : defaults.Plain := ⟨rfl, rfl, rfl⟩

/-- A set, a drop of the cache and a reopening. -/
def setAndReopen : List Act :=
  [.call (.set [97] (.bool true)) calm, .call .clearMemoryCache calm, .reopen defaults calm]

theorem setAndReopen_serves :
    ∃ m', (World.start linux defaults calm
        (run (World.step linux) (World.start linux defaults calm ⟨[], []⟩) setAndReopen).disk).inst = .ok m' ∧
      m'.dict[([97] : Bytes)]? = some [1] := by
  have hacts : Along Act.Plain (World.step linux) (World.start linux defaults calm ⟨[], []⟩) setAndReopen := by
    have hset : ([97] : Bytes) ≠ [] := by simp
    have hroom : 4 + (regionOf ((∅ : Dict).insert [97] (Value.bool true).blob)).length +
        (pairBytes [97] (Value.bool true).blob).length < linux.pageSize := by decide
    obtain ⟨hrun, ⟨⟨-, hfirst⟩, -⟩⟩ := run_first_set (P := linux) defaults_plain.readOnly calm_ok [97] (.bool true) hset hroom
    obtain ⟨-, -, hsynced⟩ := first_set (P := linux) defaults_plain.readOnly calm_ok [97] (.bool true) hset hroom
    rw [run_cons, run_nil] at hrun
    refine ⟨⟨calm_ok, hset, fun m hm => (hfirst m hm).2⟩, ⟨calm_ok, trivial, fun m hm => ?_⟩, defaults_plain, trivial⟩
    rw [hrun] at hm ⊢
    cases hm
    rw [MMKV.checkLoadData_of_synced hsynced]
    exact hsynced.steady.plainRegion_lt
  obtain ⟨m, -, -, hreopen, -⟩ := plain_store_is_map blank_absent defaults_plain hacts
  obtain ⟨m', hm', hmap⟩ := hreopen defaults calm defaults_plain
  exact ⟨m', hm', (congrFun hmap [97]).trans (by decide)⟩

end MmkvGo.Store
