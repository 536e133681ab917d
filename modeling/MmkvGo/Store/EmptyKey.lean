import MmkvGo.Store.Encrypted

/-!
A set as the caller sees it: it fails and changes nothing, or it binds its key and no other, in memory and in the files.
`setOK_iff_key_ne_nil` says that this is so for every key but the empty one, which the log cannot hold: a set of the
empty key leaves files that cannot be opened, whichever path it takes.
-/

namespace MmkvGo.Store

open MmkvGo.Lib MmkvGo.Wire MmkvGo.Crypt Std

/-- What a caller may expect of a set: an error and nothing changed, or the key bound to its slot and every other key as
it was, on the instance and after a reopening with the same key. -/
def SetOK (P : Platform) (sys : Sys) (d : Disk) (m : MMKV) (key : Bytes) (v : Value) : Prop :=
  let before := m.checkLoadData d sys
  let r := m.exec P sys d (.set key v)
  let slots := Function.update before.content.slots key
    (some (before.content.slot sys before.expiredSeconds v.blob))
  (r.err ≠ none ∧ d.apply r.writes = d ∧ r.m.content = before.content) ∨
    (r.err = none ∧ r.m.content = ⟨slots, before.enableExpire⟩ ∧
      ∀ cfg sys', cfg.readOnly = false → cfg.crypt P = m.crypt →
        ∃ m', (World.start P cfg sys' (d.apply r.writes)).inst = .ok m' ∧ m'.content = ⟨slots, before.enableExpire⟩)

section SetOK

variable {P : Platform} {sys : Sys} {d : Disk} {m : MMKV}

/-- **A set of the empty key leaves files whose region does not parse**; where it returns an error, it has changed them. -/
theorem setBlob_emptyKey {blob : Bytes} (h : Synced d m) (hsys : sys.OK) (hne : blob ≠ [])
    (hlt : 4 + (m.regionAfterSet d [] blob).length < 2 ^ 32) :
    (∃ mi, Sealed (d.apply (m.setBlob P sys d [] blob).writes) mi ∧
        parseDict (plainOf m.crypt mi.iv ((d.apply (m.setBlob P sys d [] blob).writes).region mi.actualSize)) =
          .error .unexpectedEOF) ∧
      ((m.setBlob P sys d [] blob).err = none ∨ d.apply (m.setBlob P sys d [] blob).writes ≠ d) := by
  have hle := le_pairSize [] blob
  rw [← length_pairBytes] at hle
  rw [MMKV.regionAfterSet] at hlt
  by_cases hover : m.overrides [] (pairBytes [] blob) = true
  · -- the region is the holder and the pair
    rw [if_pos hover] at hlt
    obtain ⟨hcrypt, hver, -, hroom, -⟩ := MMKV.overrides_of_steady h.steady hover
    rw [MMKV.setBlob_of_overrides h.steady hover hlt]
    rw [List.length_append] at hlt
    have hnew := MMKV.overrideRaw_overridden h.image.toSealed hver hroom (by omega)
    refine ⟨⟨_, hnew.toSealed, ?_⟩, .inl rfl⟩
    rw [hcrypt, plainOf, hnew.region]
    exact parseDict_append_emptyKey (by decide) parseDict_itemSizeHolderBytes hne (by omega)
  rw [if_neg hover] at hlt
  rw [Bool.not_eq_true] at hover
  by_cases happend : m.appends (pairBytes [] blob) = true
  · -- the region is the old one and the pair
    rw [if_pos happend, List.length_append, h.steady.length_plainRegion] at hlt
    obtain ⟨hcrypt, hpos, -, hroom⟩ := MMKV.appends_of_steady h.steady happend
    rw [h.actualSize] at hroom
    have hnew := MMKV.appendRaw_appended h.image.toSealed h.actualSize h.crcDigest hpos
      (show (pairBytes [] blob).length + 4 + m.info.actualSize.toNat ≤ d.data.length by omega) (by omega)
    have hdec := h.image.decoded
    rw [hcrypt, plainOf] at hdec
    rw [MMKV.setBlob_of_appends h.data hover happend]
    refine ⟨⟨_, hnew.toSealed, ?_⟩, .inl rfl⟩
    rw [hcrypt, plainOf, hnew.region]
    refine parseDict_append_emptyKey (fun hnil => ?_) hdec hne (by omega)
    have hlen := h.image.length_region
    rw [hnil, List.length_nil] at hlen
    rw [UInt32.lt_iff_toNat_lt, ← hlen] at hpos
    exact absurd hpos (by decide)
  · -- the region is that of the whole map, and the new sequence number shows that it was stored
    rw [if_neg happend] at hlt
    rw [Bool.not_eq_true] at happend
    rw [MMKV.setBlob_of_neither hover happend]
    obtain ⟨hsealed, hregion, -, -⟩ := MMKV.fullWritebackGrow_sealed (P := P)
      (m := { m with dict := m.dict.insert [] blob }) h.data h.image.metaSize_le hsys hlt (!m.dict.isEmpty)
      (pairBytes [] blob).length
    refine ⟨⟨_, hsealed, ?_⟩, .inr fun heq => ?_⟩
    · rw [hregion, ← parseDict_regionOf_emptyKey h.image.wf hne (show (regionOf _).length < 2 ^ 32 by omega)]
      exact congrArg parseDict (plainOf_cipherOf ..)
    · have hparse := hsealed.parse
      rw [heq, h.image.parse] at hparse
      have hseq : m.info.sequence = m.info.sequence + 1 := congrArg MetaInfo.sequence (Except.ok.inj hparse)
      simp at hseq

lemma Model.step_crypt {s : Model} (a : Act) (h : ∃ cfg : Config, cfg.readOnly = false ∧ cfg.crypt P = s.crypt) :
    ∃ cfg : Config, cfg.readOnly = false ∧ cfg.crypt P = (s.step P a).crypt := by
  cases a with
  | reopen cfg sys => exact ⟨{ cfg with readOnly := false }, rfl, rfl⟩
  | call op sys =>
    cases op with
    | reKey newKey => exact ⟨⟨false, false, false, newKey⟩, rfl, rfl⟩
    | _ => exact h

/-- **A set of a key that is not empty** binds it and no other. -/
theorem setOK_of_ne_nil {w : World} {s : Model} {m₀ : MMKV} {key : Bytes} {v : Value} (h : Tracks w s m)
    (hinst : w.inst = .ok m₀) (hsys : sys.OK)
    (hlt : 4 + ((Op.set key v).regionAfter sys w.disk (m₀.checkLoadData w.disk sys)).length < 2 ^ 32)
    (hk : key ≠ []) : SetOK P sys w.disk m₀ key v := by
  have hcrypt := (h.upToDrop hinst).crypt
  unfold SetOK
  rw [h.checkLoadData hinst hsys.remap] at hlt ⊢
  rw [MMKV.exec, h.mutate hinst hsys.remap]
  have heffect := set_effect (P := P) h.synced hsys hk hlt
  refine .inr ⟨heffect.err, heffect.content, fun cfg sys' hro hkey => ?_⟩
  exact heffect.synced.reopens_content hro (hkey.trans (hcrypt.trans heffect.crypt.symm)) sys' heffect.content

/-- **A set of the empty key** breaks the files. -/
theorem not_setOK_emptyKey {w : World} {s : Model} {m₀ : MMKV} {v : Value} (h : Tracks w s m)
    (hinst : w.inst = .ok m₀) (hsys : sys.OK)
    (hlt : 4 + ((Op.set [] v).regionAfter sys w.disk (m₀.checkLoadData w.disk sys)).length < 2 ^ 32)
    (hkey : ∃ cfg : Config, cfg.readOnly = false ∧ cfg.crypt P = s.crypt) : ¬ SetOK P sys w.disk m₀ [] v := by
  obtain ⟨cfg, hro, hcfg⟩ := hkey
  -- the map has no empty key, so the set is not skipped
  have hskip : ¬ (m.compareBeforeSet && !m.enableExpire && m.dict[([] : Bytes)]? == some v.blob) = true := by
    have hnone : m.dict[([] : Bytes)]? = none := by
      by_contra hne
      obtain ⟨u, hu⟩ := Option.ne_none_iff_exists'.1 hne
      exact (h.synced.image.wf [] u hu).1 rfl
    simp [hnone]
  have hset : m.setValueLocked P sys w.disk [] v.blob =
      m.setBlob P sys w.disk [] (m.content.slot sys m.expiredSeconds v.blob) := by
    rw [MMKV.setValueLocked, if_neg hskip]
    rfl
  have hne : m.content.slot sys m.expiredSeconds v.blob ≠ [] :=
    List.length_pos_iff.1 (m.content.length_slot m.expiredSeconds v.blob_ne_nil).1
  rw [h.checkLoadData hinst hsys.remap, Op.regionAfter, MMKV.regionAfterPut, if_neg hskip] at hlt
  intro hok
  unfold SetOK at hok
  rw [MMKV.exec, h.mutate hinst hsys.remap, hset] at hok
  obtain ⟨⟨mi, hsealed, hparse⟩, hchanged⟩ := setBlob_emptyKey (P := P) h.synced hsys hne hlt
  rcases hok with ⟨herr, hsame, -⟩ | ⟨-, -, hreopen⟩
  · exact hchanged.elim herr fun h => h hsame
  · obtain ⟨m', hm', -⟩ := hreopen cfg sys hro (hcfg.trans (h.inst_crypt hinst).symm)
    have hcfg' : cfg.crypt P = m.crypt := hcfg.trans h.crypt.symm
    rw [World.start, openMMKV_error hsealed.readable hro (by rw [hcfg']; exact hparse)] at hm'
    cases hm'

/-- **A set does what its caller may expect exactly when its key is not empty**, in every state that a run reaches. -/
theorem setOK_iff_key_ne_nil {cfg : Config} {sys₀ : Sys} {mi : MetaInfo} {dict : Dict} {acts : List Act}
    (hstored : Stored (cfg.crypt P) d mi dict) (hro : cfg.readOnly = false)
    (hacts : Along (Act.OK P) (World.step P) (World.start P cfg sys₀ d) acts) :
    let w := run (World.step P) (World.start P cfg sys₀ d) acts
    ∃ m, w.inst = .ok m ∧ ∀ sys key v, sys.OK →
      4 + ((Op.set key v).regionAfter sys w.disk (m.checkLoadData w.disk sys)).length < 2 ^ 32 →
      (SetOK P sys w.disk m key v ↔ key ≠ []) := by
  intro w
  obtain ⟨m₁, h₁, -⟩ := tracks_start sys₀ hstored hro
  have hstep : ∀ w s a, ((∃ m, Tracks w s m) ∧ ∃ cfg : Config, cfg.readOnly = false ∧ cfg.crypt P = s.crypt) →
      Act.OK P w a → (∃ m, Tracks (w.step P a) (s.step P a) m) ∧
        ∃ cfg : Config, cfg.readOnly = false ∧ cfg.crypt P = (s.step P a).crypt := by
    rintro w s a ⟨⟨m, h⟩, hkey⟩ hok
    exact ⟨step_tracks h hok, Model.step_crypt a hkey⟩
  obtain ⟨⟨m, h⟩, hkey⟩ := hacts.simulation hstep ⟨⟨m₁, h₁⟩, cfg, hro, rfl⟩
  obtain ⟨m₀, hinst, -⟩ := h.inst_eq
  refine ⟨m₀, hinst, fun sys key v hsys hlt => ⟨?_, setOK_of_ne_nil h hinst hsys hlt⟩⟩
  rintro hok rfl
  exact not_setOK_emptyKey h hinst hsys hlt hkey hok

end SetOK

/-- A second key set beside a first one: the files reopen to both. -/
theorem setOK_beside_other_key :
    let w := run (World.step linux) (World.start linux defaults calm ⟨[], []⟩) [.call (.set [97] (.bool true)) calm]
    ∃ m, w.inst = .ok m ∧ SetOK linux calm w.disk m [98] (.bool false) ∧
      ∃ m', (World.start linux defaults calm
          (w.disk.apply (m.exec linux calm w.disk (.set [98] (.bool false))).writes)).inst = .ok m' ∧
        m'.content.slots [97] = some [1] ∧ m'.content.slots [98] = some [0] := by
  have hro : defaults.readOnly = false := rfl
  obtain ⟨hworld, hacts⟩ := run_first_set (P := linux) hro calm_ok [97] (.bool true) (by simp) (by decide)
  obtain ⟨-, -, hsynced⟩ := first_set (P := linux) hro calm_ok [97] (.bool true) (by simp) (by decide)
  have hover : (defaults.afterFirst linux calm [97] (.bool true)).overrides [98] (pairBytes [98] (Value.bool false).blob) =
      false := by decide +kernel
  have happend : (defaults.afterFirst linux calm [97] (.bool true)).appends (pairBytes [98] (Value.bool false).blob) =
      true := by decide +kernel
  have herr : ((defaults.afterFirst linux calm [97] (.bool true)).exec linux calm
      (defaults.firstDisk linux calm [97] (.bool true)) (.set [98] (.bool false))).err = none := by
    rw [MMKV.exec_set_of_appends hsynced rfl (by decide +kernel) hover happend]
  obtain ⟨-, ⟨-, hbound⟩, -⟩ := append_set (P := linux) hsynced calm_ok (by simp) rfl (by decide +kernel) hover happend
    (by decide +kernel)
  obtain ⟨m, hinst, hset⟩ := setOK_iff_key_ne_nil (.inr ⟨blank_absent, rfl, rfl⟩) hro hacts
  rw [hworld] at hinst hset ⊢
  cases hinst
  have hok := (hset calm [98] (.bool false) calm_ok (hbound _ rfl).2).2 (by simp)
  refine ⟨_, rfl, hok, ?_⟩
  unfold SetOK at hok
  rcases hok with ⟨hfailed, -, -⟩ | ⟨-, -, hreopen⟩
  · exact absurd herr hfailed
  · obtain ⟨m', hm', hcontent⟩ := hreopen defaults calm rfl rfl
    rw [MMKV.checkLoadData_of_synced hsynced] at hcontent
    have hslots : m'.content.slots = Function.update _ [98] (some _) := congrArg Content.slots hcontent
    refine ⟨m', hm', (congrFun hslots [97]).trans ?_, (congrFun hslots [98]).trans ?_⟩
    · rw [Function.update_of_ne (by simp)]
      exact ExtTreeMap.getElem?_insert_self
    · rw [Function.update_self]
      decide +kernel

/-- The empty key set after the first key, in either mode: the pair is appended, and the region does not parse. -/
lemma append_emptyKey {cfg : Config} {multi : Bool} (hcfg : cfg = ⟨multi, false, false, []⟩) :
    let d := cfg.firstDisk linux calm [97] (.bool true)
    let m := cfg.afterFirst linux calm [97] (.bool true)
    m.exec linux calm d (.set [] (.bool true)) = ⟨(m.appendRaw (pairBytes [] [1])).1,
        m.inPlace (m.appendedInfo (pairBytes [] [1])) (m.dict.insert [] [1]), none⟩ ∧
      Sealed (d.apply (m.appendRaw (pairBytes [] [1])).1) (m.appendedInfo (pairBytes [] [1])) ∧
      parseDict ((d.apply (m.appendRaw (pairBytes [] [1])).1).region (m.appendedInfo (pairBytes [] [1])).actualSize) =
        .error .unexpectedEOF := by
  intro d m
  subst hcfg
  obtain ⟨-, -, hsynced⟩ := first_set (P := linux) (show (⟨multi, false, false, []⟩ : Config).readOnly = false from rfl)
    calm_ok [97] (.bool true) (by simp) (by decide)
  have happend : m.setBlob linux calm d [] [1] = _ :=
    MMKV.setBlob_of_appends hsynced.data (by cases multi <;> decide +kernel) (by cases multi <;> decide +kernel)
  have hexec : m.exec linux calm d (.set [] (.bool true)) = m.setBlob linux calm d [] [1] := by
    rw [MMKV.exec, MMKV.mutate_of_synced hsynced]
    exact MMKV.setValueLocked_eq rfl (by cases multi <;> decide +kernel)
  obtain ⟨⟨mi, hsealed, hparse⟩, -⟩ := setBlob_emptyKey (P := linux) hsynced calm_ok
    (show ([1] : Bytes) ≠ [] by simp) (by cases multi <;> decide +kernel)
  rw [happend] at hsealed hparse
  have hnew : MMKV.Appended d m (pairBytes [] [1]) _ _ := MMKV.appendRaw_appended hsynced.image.toSealed rfl rfl
    (by cases multi <;> decide +kernel) (by cases multi <;> decide +kernel) (by cases multi <;> decide +kernel)
  obtain rfl := Except.ok.inj (hnew.parse.symm.trans hsealed.parse)
  exact ⟨hexec.trans happend, hsealed, hparse⟩

/-- A set of the empty key after another set: it is appended and returns no error, and the files cannot be opened any
more. -/
theorem empty_key_breaks_reopen :
    let w := run (World.step linux) (World.start linux defaults calm ⟨[], []⟩) [.call (.set [97] (.bool true)) calm]
    ∃ m, w.inst = .ok m ∧ m.dict[([97] : Bytes)]? = some [1] ∧
      (m.exec linux calm w.disk (.set [] (.bool true))).err = none ∧
      (World.start linux defaults calm (w.disk.apply (m.exec linux calm w.disk (.set [] (.bool true))).writes)).inst =
        .error .unexpectedEOF := by
  obtain ⟨hworld, -⟩ := run_first_set (P := linux) (show defaults.readOnly = false from rfl) calm_ok [97] (.bool true)
    (by simp) (by decide)
  obtain ⟨hexec, hsealed, hparse⟩ := append_emptyKey (show defaults = _ from rfl)
  have hopen : openMMKV linux calm defaults _ = _ := openMMKV_error hsealed.readable rfl hparse
  rw [hworld]
  refine ⟨_, rfl, ExtTreeMap.getElem?_insert_self, congrArg Result.err hexec, ?_⟩
  rw [hexec, World.start, hopen]

end MmkvGo.Store
