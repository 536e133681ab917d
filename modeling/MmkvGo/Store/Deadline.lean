import MmkvGo.Store.Expire
import MmkvGo.Store.Reader

/-!
Deadlines and the 32 bits of a timestamp.  A value that is set for `seconds` at the time `now` gets the timestamp
`now + seconds`, a sum of `uint32`s.  It is shown for as long as it should be, and no longer, exactly if the sum does
not pass `2 ^ 32`; beyond that the timestamp has come before the value is set.
-/

namespace MmkvGo.Store

open MmkvGo.Lib MmkvGo.Wire MmkvGo.Crypt Std

/-! ### One slot -/

/-- **A slot is shown for its duration**, exactly if the timestamp does not wrap past zero. -/
theorem shown_for_duration_iff {sys : Sys} {seconds : UInt32} (hs : seconds ≠ 0) (blob : Bytes) :
    (∀ t : UInt32, sys.now ≤ t → t.toNat - sys.now.toNat < seconds.toNat →
        slotValue true t (MMKV.appendExpire sys blob seconds) = some blob) ∧
      (∀ t : UInt32, sys.now.toNat + seconds.toNat ≤ t.toNat →
        slotValue true t (MMKV.appendExpire sys blob seconds) = none) ↔
    sys.now.toNat + seconds.toNat ≤ 2 ^ 32 := by
  have hslot : ∀ t, slotValue true t (MMKV.appendExpire sys blob seconds) =
      if sys.now + seconds ≠ 0 ∧ sys.now + seconds ≤ t then none else some blob := by
    intro t
    rw [MMKV.appendExpire, if_pos hs, slotValue_append]
  have hpos : 0 < seconds.toNat := Nat.pos_of_ne_zero fun h0 => hs (UInt32.toNat_inj.1 h0)
  have hsum : (sys.now + seconds).toNat = (sys.now.toNat + seconds.toNat) % 2 ^ 32 := UInt32.toNat_add ..
  have hnow := sys.now.toNat_lt
  have hsec := seconds.toNat_lt
  have hzero : sys.now + seconds = 0 ↔ (sys.now + seconds).toNat = 0 := UInt32.toNat_inj.symm
  simp only [hslot, ne_eq, hzero, UInt32.le_iff_toNat_le]
  constructor
  · rintro ⟨hshown, -⟩
    -- past `2 ^ 32` the timestamp is one that has come
    by_contra hwrap
    have := hshown sys.now le_rfl (by omega)
    rw [if_pos ⟨by omega, by omega⟩] at this
    cases this
  · intro hle
    refine ⟨fun t hge hlt => if_neg ?_, fun t hge => if_pos ?_⟩
    · rintro ⟨h0, hcome⟩
      omega
    · have ht := t.toNat_lt
      omega

/-! ### What is shown -/

/-- At the time `t` the instance answers `res` for the key, and so does a reader that opens the files with its key. -/
def Shows (w : World) (key : Bytes) (t : UInt32) (res : Option Bytes) : Prop :=
  ∃ m, w.inst = .ok m ∧
    (∀ sys : Sys, sys.remap = none → sys.now = t → (m.get sys w.disk (fun view => view.value key) none).2 = res) ∧
    ∃ r, Reader.openReader w.disk m.crypt = .ok r ∧ (r.get w.disk t fun view => view.value key).2 = res

section Shows

variable {P : Platform} {w : World} {s : Model} {m : MMKV}

/-- **Both answer from the slot**, and nothing else. -/
theorem Tracks.shows_iff (h : Tracks w s m) {key : Bytes} {t : UInt32} {res : Option Bytes} :
    Shows w key t res ↔ res = (s.content.slots key).bind (slotValue s.content.expire t) := by
  obtain ⟨m₀, hinst, hdrop⟩ := h.inst_eq
  have hclosed : m₀.closed = false := hdrop.closed.trans h.synced.closed
  have hvalue : (m.view t).value key = (s.content.slots key).bind (slotValue s.content.expire t) := by
    rw [View.value_eq_bind, ← h.content]
    rfl
  have hget : ∀ sys : Sys, sys.remap = none → sys.now = t →
      (m₀.get sys w.disk (fun view => view.value key) none).2 = (m.view t).value key := by
    intro sys hremap hnow
    rw [MMKV.get, hclosed, h.checkLoadData hinst hremap, hnow]
    rfl
  obtain ⟨hopen, hread⟩ := openReader_of_readable h.synced.image.readable h.synced.image.decoded
  constructor
  · rintro ⟨m₁, hinst', hshown, -⟩
    cases hinst.symm.trans hinst'
    rw [← hshown (calmAt t) rfl rfl, hget (calmAt t) rfl rfl, hvalue]
  · rintro rfl
    rw [← hvalue]
    refine ⟨m₀, hinst, hget, _, by rw [hdrop.crypt]; exact hopen, ?_⟩
    rw [hread, ← h.synced.enableExpire]
    rfl

end Shows

/-! ### Runs -/

/-- An action that leaves the default duration as it is. -/
def Act.KeepsDuration : Act → Prop
  | .call (.enableAutoKeyExpire _) _ | .call .disableAutoKeyExpire _ | .reopen _ _ => False
  | _ => True

section Runs

variable {P : Platform}

lemma Model.step_keepsDuration {s : Model} {a : Act} (ha : a.KeepsDuration) :
    (s.step P a).content.expire = s.content.expire ∧ (s.step P a).seconds = s.seconds := by
  cases a with
  | reopen cfg sys => exact ha.elim
  | call op sys =>
    cases op with
    | enableAutoKeyExpire seconds | disableAutoKeyExpire => exact ha.elim
    | _ => exact ⟨rfl, rfl⟩

lemma Model.run_keepsDuration {acts : List Act} (hacts : ∀ a ∈ acts, a.KeepsDuration) (s : Model) :
    (run (Model.step P) s acts).content.expire = s.content.expire ∧
      (run (Model.step P) s acts).seconds = s.seconds := by
  induction acts generalizing s with
  | nil => exact ⟨rfl, rfl⟩
  | cons a acts ih =>
    have hstep := Model.step_keepsDuration (P := P) (s := s) (hacts a (by simp))
    have hrun := ih (fun a ha => hacts a (List.mem_cons_of_mem _ ha)) (s.step P a)
    exact ⟨hrun.1.trans hstep.1, hrun.2.trans hstep.2⟩

/-- A run that enables expiration for `seconds`, keeps that, and then sets a value at the time of `sys`. -/
def settingFor (before between : List Act) (seconds : UInt32) (enable : Sys) (key : Bytes) (v : Value) (sys : Sys) :
    List Act :=
  before ++ .call (.enableAutoKeyExpire seconds) enable :: (between ++ [.call (.set key v) sys])

lemma Model.slot_settingFor {between : List Act} (hbetween : ∀ a ∈ between, a.KeepsDuration) (s : Model)
    (before : List Act) (seconds : UInt32) (enable : Sys) (key : Bytes) (v : Value) (sys : Sys) :
    let s' := run (Model.step P) s (settingFor before between seconds enable key v sys)
    s'.content.expire = true ∧ s'.content.slots key = some (MMKV.appendExpire sys v.blob seconds) := by
  intro s'
  have hrun := Model.run_keepsDuration (P := P) hbetween
    ((run (Model.step P) s before).step P (.call (.enableAutoKeyExpire seconds) enable))
  have hs' : s' = (run (Model.step P) ((run (Model.step P) s before).step P (.call (.enableAutoKeyExpire seconds) enable))
      between).step P (.call (.set key v) sys) := by
    simp only [s', settingFor, run_append, run_cons, run_nil]
  generalize run (Model.step P) ((run (Model.step P) s before).step P (.call (.enableAutoKeyExpire seconds) enable))
    between = s₁ at hrun hs'
  rw [hs']
  refine ⟨hrun.1, ?_⟩
  simp only [Model.step, Content.after, Function.update_self, Content.slot, hrun.1, hrun.2]
  rfl

variable {cfg : Config} {sys enable : Sys} {d : Disk} {mi : MetaInfo} {dict : Dict} {before between : List Act}
  {seconds : UInt32} {key : Bytes} {v : Value} {set : Sys}

lemma shows_settingFor (hstored : Stored (cfg.crypt P) d mi dict) (hro : cfg.readOnly = false)
    (hbetween : ∀ a ∈ between, a.KeepsDuration)
    (hacts : Along (Act.OK P) (World.step P) (World.start P cfg sys d)
      (settingFor before between seconds enable key v set)) {t : UInt32} {res : Option Bytes} :
    Shows (run (World.step P) (World.start P cfg sys d) (settingFor before between seconds enable key v set)) key t res ↔
      res = slotValue true t (MMKV.appendExpire set v.blob seconds) := by
  obtain ⟨m, h⟩ := run_tracks hstored hro hacts
  obtain ⟨hexp, hslot⟩ := Model.slot_settingFor (P := P) hbetween
    ⟨⟨OrdMap.lookup dict, mi.expireEnabled⟩, cfg.crypt P, 0⟩ before seconds enable key v set
  rw [h.shows_iff, hexp, hslot, Option.bind_some]

/-- **Deadlines and wrap-around.**  After any run on files that hold a map, in which expiration was enabled for `seconds`
and the value then set, the value is shown from then on for that long and no longer, by the instance and by a reader,
exactly if the sum of the time and the duration does not pass `2 ^ 32`. -/
theorem deadline_over_runs (hstored : Stored (cfg.crypt P) d mi dict) (hro : cfg.readOnly = false) (hs : seconds ≠ 0)
    (hbetween : ∀ a ∈ between, a.KeepsDuration)
    (hacts : Along (Act.OK P) (World.step P) (World.start P cfg sys d)
      (settingFor before between seconds enable key v set)) :
    let w := run (World.step P) (World.start P cfg sys d) (settingFor before between seconds enable key v set)
    (∀ t : UInt32, set.now ≤ t → t.toNat - set.now.toNat < seconds.toNat → Shows w key t (some v.blob)) ∧
        (∀ t : UInt32, set.now.toNat + seconds.toNat ≤ t.toNat → Shows w key t none) ↔
      set.now.toNat + seconds.toNat ≤ 2 ^ 32 := by
  intro w
  have hshows : ∀ t res, Shows w key t res ↔ res = slotValue true t (MMKV.appendExpire set v.blob seconds) :=
    fun t res => shows_settingFor hstored hro hbetween hacts
  simp only [hshows, eq_comm (b := slotValue _ _ _)]
  exact shown_for_duration_iff hs v.blob

end Runs

/-! ### Two runs -/

/-- Ten seconds are set as the duration, then a value, at the time `now`. -/
def setTrueAt (now : UInt32) : List Act :=
  settingFor [] [] 10 (calmAt now) [97] (.bool true) (calmAt now)

lemma setTrueAt_bounded {now : UInt32} (hnow : now = 100 ∨ now = 4294967290) :
    Along (Act.OK linux) (World.step linux) (World.start linux defaults calm ⟨[], []⟩) (setTrueAt now) := by
  rw [start_absent rfl]
  refine ⟨⟨calmAt_ok _, fun m hm => ?_⟩, ⟨calmAt_ok _, fun m hm => ?_⟩, trivial⟩
  · cases hm
    rcases hnow with rfl | rfl
    · exact ⟨trivial, by decide +kernel⟩
    · exact ⟨trivial, by decide +kernel⟩
  · rw [World.step_call] at hm
    obtain rfl := Except.ok.inj hm
    rcases hnow with rfl | rfl
    · exact ⟨List.cons_ne_nil _ _, by decide +kernel⟩
    · exact ⟨List.cons_ne_nil _ _, by decide +kernel⟩

/-- Set at 100 for ten seconds, the value is shown at 109 and not at 110. -/
theorem deadline_of_ten_seconds :
    let w := run (World.step linux) (World.start linux defaults calm ⟨[], []⟩) (setTrueAt 100)
    Shows w [97] 109 (some [1]) ∧ Shows w [97] 110 none := by
  have hdeadline := (deadline_over_runs (.inr ⟨blank_absent, rfl, rfl⟩) rfl (by decide) (by simp)
    (setTrueAt_bounded (.inl rfl))).2 (by decide)
  exact ⟨hdeadline.1 109 (by decide) (by decide), hdeadline.2 110 (by decide)⟩

/-- **A deadline wraps**: set for ten seconds six seconds before the end of the 32-bit clock, the value is not shown at the
very time it is set. -/
theorem deadline_wraps :
    let w := run (World.step linux) (World.start linux defaults calm ⟨[], []⟩) (setTrueAt 4294967290)
    Along (Act.OK linux) (World.step linux) (World.start linux defaults calm ⟨[], []⟩) (setTrueAt 4294967290) ∧
      Shows w [97] 4294967290 none ∧ ¬ Shows w [97] 4294967290 (some [1]) := by
  have hacts := setTrueAt_bounded (.inr rfl)
  have hshows : ∀ res, _ ↔ res = slotValue true 4294967290 (MMKV.appendExpire (calmAt 4294967290) [1] 10) :=
    fun res => shows_settingFor (v := .bool true) (.inr ⟨blank_absent, rfl, rfl⟩) rfl (by simp) hacts
  exact ⟨hacts, (hshows none).2 (by decide), fun h => absurd ((hshows _).1 h) (by decide)⟩

end MmkvGo.Store
