import MmkvGo.Store.Refine

/-!
A store with a key.  The region is one stream, encrypted as a whole under the IV of the last full write-back, so a path
that stores in place must stay off it.  `setBlob` asks for plaintext before it appends or overrides;
`RemoveValueForKey` does not ask, and appends its tombstone as it is.  `reopen_serves_live_map` is what holds of every
run without such a tombstone, and `encrypted_removal_breaks_reopen` the shortest run with one.
-/

namespace MmkvGo.Store

open MmkvGo.Lib MmkvGo.Wire MmkvGo.Crypt Std

section Runs

variable {P : Platform} {cfg : Config} {sys : Sys} {d : Disk} {mi : MetaInfo} {dict : Dict} {acts : List Act}

/-- **The files reopen to the map of the live instance**, with the key the instance has then, after any run of sets,
removals, clears, trims and changes of the key. -/
theorem reopen_serves_live_map (hstored : Stored (cfg.crypt P) d mi dict) (hro : cfg.readOnly = false)
    (hacts : Along (Act.OK P) (World.step P) (World.start P cfg sys d) acts) :
    let w := run (World.step P) (World.start P cfg sys d) acts
    ∃ m, w.inst = .ok m ∧ ∀ cfg' sys', cfg'.readOnly = false → cfg'.crypt P = m.crypt →
      ∃ m', (World.start P cfg' sys' w.disk).inst = .ok m' ∧ m'.enableExpire = m.enableExpire ∧
        (m.needLoad = false → m'.dict = m.dict) ∧
        ∀ sys'', sys''.remap = none → m'.dict = (m.checkLoadData w.disk sys'').dict := by
  obtain ⟨m, h⟩ := run_tracks hstored hro hacts
  intro w
  obtain ⟨m₀, hinst, hdrop⟩ := h.inst_eq
  refine ⟨m₀, hinst, fun cfg' sys' hro' hkey => ?_⟩
  obtain ⟨m', hm', hdict, hexp⟩ := h.synced.reopens hro' (hkey.trans hdrop.crypt) sys'
  refine ⟨m', hm', hexp.trans hdrop.enableExpire.symm, fun hload => hdict.trans (hdrop.dict hload).symm,
    fun sys'' hsys'' => ?_⟩
  rw [h.checkLoadData hinst hsys'', hdict]

/-- **A tombstone appended to ciphertext** goes through the cipher on the next open: when what comes out does not parse,
the files cannot be opened any more. -/
theorem tombstone_breaks_reopen (sys : Sys) {m : MMKV} {key : Bytes} {e : Err} (h : Synced d m) (hkey : cfg.crypt P = m.crypt)
    (hro : cfg.readOnly = false) (hc : m.dict.contains key = true)
    (htomb : ({ m with dict := m.dict.erase key } : MMKV).appendsTombstone (pairBytes key []) = true)
    (hlt : 4 + m.info.actualSize.toNat + (pairBytes key []).length < 2 ^ 32)
    (he : parseDict (plainOf m.crypt m.info.iv (d.region m.info.actualSize ++ pairBytes key [])) = .error e) :
    (m.exec P sys d (.removeValueForKey key)).err = none ∧
      (m.exec P sys d (.removeValueForKey key)).m =
        m.inPlace (m.appendedInfo (pairBytes key [])) (m.dict.erase key) ∧
      (World.start P cfg sys (d.apply (m.exec P sys d (.removeValueForKey key)).writes)).inst = .error e := by
  have hexec : m.exec P sys d (.removeValueForKey key) = ⟨(m.appendRaw (pairBytes key [])).1,
      m.inPlace (m.appendedInfo (pairBytes key [])) (m.dict.erase key), none⟩ := by
    rw [MMKV.exec, MMKV.mutate_of_synced h, MMKV.removeValueForKey]
    simp only [hc, htomb, Bool.not_true, Bool.false_eq_true, if_false, if_true]
    rfl
  obtain ⟨hroom, hpos⟩ := MMKV.of_appendsTombstone htomb
  simp only [MMKV.fitsTail, decide_eq_true_eq, h.actualSize, h.data] at hroom hpos
  have happ := MMKV.appendRaw_appended h.image.toSealed h.actualSize h.crcDigest hpos hroom hlt
  rw [hexec]
  refine ⟨rfl, rfl, ?_⟩
  rw [World.start, openMMKV_error happ.toSealed.readable hro (by rw [happ.region, hkey]; exact he)]

end Runs

/-! ### Two runs with a key -/

/-- A key of one byte. -/
def secret : Config := ⟨false, false, false, [1]⟩

/-- A set, and a reopening with the same key. -/
def setAndReopenEncrypted : List Act := [.call (.set [97] (.bool true)) calm, .reopen secret calm]

lemma secret_after_set :
    (World.start linux secret calm ⟨[], []⟩).step linux (.call (.set [97] (.bool true)) calm) =
        ⟨secret.firstDisk linux calm [97] (.bool true), .ok (secret.afterFirst linux calm [97] (.bool true))⟩ ∧
      Synced (secret.firstDisk linux calm [97] (.bool true)) (secret.afterFirst linux calm [97] (.bool true)) := by
  obtain ⟨hset, hdisk, hsynced⟩ := first_set (P := linux) (show secret.readOnly = false from rfl) calm_ok [97]
    (.bool true) (by simp) (by decide)
  refine ⟨?_, hsynced⟩
  rw [start_absent rfl, World.step_call, hdisk, hset]

theorem setAndReopenEncrypted_serves :
    ∃ m', (World.start linux secret calm (run (World.step linux) (World.start linux secret calm ⟨[], []⟩)
        setAndReopenEncrypted).disk).inst = .ok m' ∧ m'.dict[([97] : Bytes)]? = some [1] := by
  obtain ⟨hstep, hsynced⟩ := secret_after_set
  have hstored : Stored (secret.crypt linux) (secret.firstDisk linux calm [97] (.bool true)) _ _ := .inl hsynced.image
  have hacts : Along (Act.OK linux) (World.step linux) (World.start linux secret calm ⟨[], []⟩)
      setAndReopenEncrypted := by
    refine ⟨?_, ⟨rfl, fun m hm => ?_⟩, trivial⟩
    · rw [start_absent rfl]
      exact ok_first_set rfl calm_ok (by simp) (by decide)
    · rw [hstep] at hm
      cases hm
      rfl
  obtain ⟨m, hinst, hreopen⟩ := reopen_serves_live_map (.inr ⟨blank_absent, rfl, rfl⟩) rfl hacts
  rw [setAndReopenEncrypted, run_cons, hstep, run_cons, run_nil, World.step, World.start,
    openMMKV_of_stored hstored rfl] at hinst
  cases hinst
  obtain ⟨m', hm', -, hdict, -⟩ := hreopen secret calm rfl rfl
  refine ⟨m', hm', ?_⟩
  rw [hdict rfl]
  exact ExtTreeMap.getElem?_insert_self

/-- A set and a removal. -/
def setAndRemove : List Act := [.call (.set [97] (.bool true)) calm, .call (.removeValueForKey [97]) calm]

/-- The tombstone is appended to the ciphertext as it is, so the instance serves the empty map and its files cannot be
opened any more. -/
theorem encrypted_removal_breaks_reopen :
    let w := run (World.step linux) (World.start linux secret calm ⟨[], []⟩) setAndRemove
    (∃ m, w.inst = .ok m ∧ m.dict = ∅ ∧ m.crypt = secret.crypt linux) ∧
      (World.start linux secret calm w.disk).inst = .error .unexpectedEOF := by
  obtain ⟨hstep, hsynced⟩ := secret_after_set
  have hregion := region_firstDisk (P := linux) secret calm [97] (.bool true) (by decide)
  -- with a keystream of ones, the bytes 01 61 00 of the tombstone come out as FE 9E FF
  have hgarbage : parseDict (plainOf (secret.afterFirst linux calm [97] (.bool true)).crypt
      (secret.firstInfo linux calm [97] (.bool true)).iv
      ((secret.first linux [97] (.bool true)).stored calm ++ pairBytes [97] [])) = .error .unexpectedEOF := by
    decide +kernel
  rw [← hregion] at hgarbage
  obtain ⟨-, hlive, hreopen⟩ := tombstone_breaks_reopen (P := linux) calm hsynced (show secret.crypt linux = _ from rfl) rfl
    (by decide) (by decide +kernel) (by decide +kernel) hgarbage
  rw [setAndRemove, run_cons, hstep, run_cons, World.step_call, run_nil, hlive]
  refine ⟨⟨_, rfl, ?_, rfl⟩, hreopen⟩
  show ((∅ : Dict).insert [97] [1]).erase [97] = ∅
  decide

end MmkvGo.Store
