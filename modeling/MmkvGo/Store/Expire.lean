import MmkvGo.Store.Size

/-!
Expiration over whole runs.  A `Timed` is what a caller thinks of: every key has its last value and the deadline that was
set with it, and there is a current duration; nothing in it says whether slots carry timestamps.  `Holds` relates it to
the slots, `holds_step` carries the relation over one action, and `expiration_over_runs` says what a getter returns.
-/

namespace MmkvGo.Store

open MmkvGo.Lib MmkvGo.Wire MmkvGo.Crypt Std

/-! ### Deadlines -/

/-- The values with their deadlines, `none` for never, and the duration of the sets to come, zero for no deadline. -/
structure Timed where
  slots : Bytes → Option (Bytes × Option ℕ)
  duration : ℕ

/-- Whether a deadline is still to come. -/
def pending (now : ℕ) : Option ℕ → Bool
  | none => true
  | some deadline => decide (now < deadline)

namespace Timed

/-- The value of a key as it is seen at `now`. -/
def visible (t : Timed) (now : ℕ) (key : Bytes) : Option Bytes :=
  (t.slots key).bind fun slot => if pending now slot.2 then some slot.1 else none

/-- The deadline of a value that is set at `now`. -/
def deadline (t : Timed) (now : ℕ) : Option ℕ := if t.duration = 0 then none else some (now + t.duration)

def step (t : Timed) : Act → Timed
  | .call (.set key v) sys =>
    { t with slots := Function.update t.slots key (some (v.blob, t.deadline sys.now.toNat)) }
  | .call (.removeValueForKey key) _ => { t with slots := Function.update t.slots key none }
  | .call (.removeValuesForKeys keys) _ => { t with slots := fun k => if k ∈ keys then none else t.slots k }
  | .call .clearAll _ => { t with slots := fun _ => none }
  | .call (.enableAutoKeyExpire seconds) _ => { t with duration := seconds.toNat }
  | .call .disableAutoKeyExpire sys =>
    -- what is not visible now is gone, what is visible stays for good
    ⟨fun k => (t.visible sys.now.toNat k).map fun blob => (blob, none), 0⟩
  | .reopen _ _ => { t with duration := 0 }
  | _ => t

/-- The values that a store holds when it is opened. -/
def opened (c : Content) : Timed :=
  ⟨fun k => (c.slots k).map fun v =>
    if c.expire then
      (v.take (v.length - 4),
        if getUint32 v (v.length - 4) = 0 then none else some (getUint32 v (v.length - 4)).toNat)
    else (v, none), 0⟩

end Timed

/-! ### Slots -/

/-- The timestamp that stands for a deadline. -/
def stamp (deadline : Option ℕ) : UInt32 := UInt32.ofNat (deadline.getD 0)

/-- The slot that holds a value with its deadline. -/
def slotOf (expire : Bool) (slot : Bytes × Option ℕ) : Bytes :=
  if expire then slot.1 ++ writeRawLittleEndian32 (stamp slot.2) else slot.1

/-- A deadline that a slot can hold: with expiration off only `never`, with it on a time of 32 bits that is not zero. -/
def Storable (expire : Bool) : Option ℕ → Prop
  | none => True
  | some deadline => expire = true ∧ 0 < deadline ∧ deadline < 2 ^ 32

lemma toNat_stamp_some {n : ℕ} (h : n < 2 ^ 32) : (stamp (some n)).toNat = n := toNat_ofNat32 h

/-- **The slot of a value shows it until its deadline.** -/
theorem slotValue_slotOf {expire : Bool} {slot : Bytes × Option ℕ} (h : Storable expire slot.2) (now : UInt32) :
    slotValue expire now (slotOf expire slot) = if pending now.toNat slot.2 then some slot.1 else none := by
  obtain ⟨blob, deadline⟩ := slot
  cases deadline with
  | none =>
    cases expire with
    | false => simp [slotValue, slotOf, pending]
    | true =>
      have hzero : ¬ (stamp none ≠ 0 ∧ stamp none ≤ now) := fun hs => hs.1 rfl
      rw [slotOf, if_pos rfl, slotValue_append, if_neg hzero, pending, if_pos rfl]
  | some n =>
    obtain ⟨rfl, hpos, hlt⟩ := h
    have hnat := toNat_stamp_some hlt
    have hne : stamp (some n) ≠ 0 := by
      rw [ne_eq, ← UInt32.toNat_inj, hnat]
      exact Nat.pos_iff_ne_zero.1 hpos
    have hiff : (stamp (some n) ≠ 0 ∧ stamp (some n) ≤ now) ↔ ¬ pending now.toNat (some n) = true := by
      rw [UInt32.le_iff_toNat_le, hnat, pending, decide_eq_true_eq, Nat.not_lt]
      exact and_iff_right hne
    rw [slotOf, if_pos rfl, slotValue_append]
    simp only [hiff, ite_not]

/-- The deadline of a value that is set at `now` for `seconds`: there is none where slots carry no timestamps. -/
def Content.deadline (c : Content) (now seconds : ℕ) : Option ℕ :=
  if c.expire = true ∧ seconds ≠ 0 then some (now + seconds) else none

lemma Content.slot_eq (c : Content) {sys : Sys} {seconds : UInt32} (hnow : sys.now.toNat + seconds.toNat < 2 ^ 32)
    (blob : Bytes) :
    c.slot sys seconds blob = slotOf c.expire (blob, c.deadline sys.now.toNat seconds.toNat) ∧
      Storable c.expire (c.deadline sys.now.toNat seconds.toNat) := by
  cases he : c.expire with
  | false => simp [Content.slot, slotOf, he, Storable, Content.deadline]
  | true =>
    by_cases hzero : seconds = 0
    · simp [Content.slot, slotOf, he, Storable, Content.deadline, MMKV.appendExpire, hzero, stamp]
    · have hne : seconds.toNat ≠ 0 := fun h0 => hzero (UInt32.toNat_inj.1 h0)
      have hsum : sys.now + seconds = stamp (some (sys.now.toNat + seconds.toNat)) := by
        rw [← UInt32.toNat_inj, toNat_stamp_some hnow, UInt32.toNat_add, Nat.mod_eq_of_lt hnow]
      rw [Content.deadline, if_pos ⟨he, hne⟩]
      refine ⟨?_, rfl, by omega, hnow⟩
      simp [Content.slot, slotOf, he, MMKV.appendExpire, hzero, hsum]

lemma length_le_of_slotValue {expire : Bool} {now : UInt32} {u v : Bytes} (h : slotValue expire now v = some u) :
    u.length ≤ v.length := by
  rw [slotValue] at h
  split at h
  · dsimp only at h
    split at h
    · cases h
    · cases h
      rw [List.length_take]
      exact Nat.min_le_right ..
  · cases h
    exact le_rfl

/-- The model's slots hold the values with their deadlines, and its duration is the current one. -/
structure Holds (s : Model) (t : Timed) : Prop where
  slots : ∀ k, s.content.slots k = (t.slots k).map (slotOf s.content.expire)
  storable : ∀ k slot, t.slots k = some slot → Storable s.content.expire slot.2
  seconds : s.seconds.toNat = t.duration
  off : s.content.expire = false → t.duration = 0

section Holds

variable {P : Platform} {s : Model} {t : Timed}

theorem Holds.value (h : Holds s t) (now : UInt32) (key : Bytes) :
    (s.content.slots key).bind (slotValue s.content.expire now) = t.visible now.toNat key := by
  rw [h.slots, Timed.visible]
  cases hslot : t.slots key with
  | none => rfl
  | some slot => exact slotValue_slotOf (h.storable key slot hslot) now

theorem holds_opened {c : Content} (crypt : Option Cipher)
    (hst : c.expire = true → ∀ k v : Bytes, c.slots k = some v → 4 ≤ v.length) :
    Holds ⟨c, crypt, 0⟩ (Timed.opened c) := by
  obtain ⟨slots, expire⟩ := c
  cases expire with
  | false =>
    refine ⟨fun k => ?_, fun k slot hslot => ?_, rfl, fun _ => rfl⟩
    · simp [Timed.opened, slotOf, Function.comp_def]
    · obtain ⟨v, -, rfl⟩ := Option.map_eq_some_iff.1 hslot
      trivial
  | true =>
    refine ⟨fun k => ?_, fun k slot hslot => ?_, rfl, fun _ => rfl⟩
    · show slots k = _
      rw [Timed.opened, Option.map_map]
      cases hk : slots k with
      | none => simp [hk]
      | some v =>
        -- a timestamp of zero is how the files say `never`
        have hstamp : stamp (if getUint32 v (v.length - 4) = 0 then none
            else some (getUint32 v (v.length - 4)).toNat) = getUint32 v (v.length - 4) := by
          split
          · next hz => rw [hz]; rfl
          · exact UInt32.ofNat_toNat
        simp only [hk, Option.map_some, Function.comp_apply, if_true, slotOf, hstamp]
        rw [← slot_eq_append (hst rfl k v hk)]
    · obtain ⟨v, -, rfl⟩ := Option.map_eq_some_iff.1 hslot
      simp only [if_true]
      split
      · trivial
      · next hne =>
        refine ⟨rfl, Nat.pos_of_ne_zero fun h0 => hne ?_, UInt32.toNat_lt _⟩
        exact UInt32.toNat_inj.1 h0

lemma Holds.slot_eq (h : Holds s t) {sys : Sys} (hnow : sys.now.toNat + t.duration < 2 ^ 32) (blob : Bytes) :
    s.content.slot sys s.seconds blob = slotOf s.content.expire (blob, t.deadline sys.now.toNat) ∧
      Storable s.content.expire (t.deadline sys.now.toNat) := by
  have hdeadline : t.deadline sys.now.toNat = s.content.deadline sys.now.toNat s.seconds.toNat := by
    rw [Timed.deadline, Content.deadline, h.seconds]
    by_cases hd : t.duration = 0
    · simp [hd]
    · have he : s.content.expire = true := by
        by_contra hoff
        exact hd (h.off (Bool.not_eq_true _ ▸ hoff))
      simp [hd, he]
  rw [hdeadline]
  exact s.content.slot_eq (h.seconds.symm ▸ hnow) blob

/-- The times of an action: a set does not run past the 32 bits of a timestamp. -/
def Act.Timely (duration : ℕ) : Act → Prop
  | .call (.set _ _) sys => sys.now.toNat + duration < 2 ^ 32
  | _ => True

lemma Holds.restrict (h : Holds s t) (crypt : Option Cipher) (keep : Bytes → Bool) :
    Holds { s with content := { s.content with slots := fun k => if keep k then s.content.slots k else none },
                   crypt := crypt }
      { t with slots := fun k => if keep k then t.slots k else none } := by
  refine ⟨fun k => ?_, fun k slot hslot => ?_, h.seconds, h.off⟩
  · simp only
    split
    · exact h.slots k
    · rfl
  · simp only at hslot
    split at hslot
    · exact h.storable k slot hslot
    · cases hslot

lemma Holds.set (h : Holds s t) {sys : Sys} {key : Bytes} {v : Value} (hnow : sys.now.toNat + t.duration < 2 ^ 32) :
    Holds (s.step P (.call (.set key v) sys)) (t.step (.call (.set key v) sys)) := by
  obtain ⟨hslot, hstorable⟩ := h.slot_eq hnow v.blob
  refine ⟨fun k => ?_, fun k slot hk => ?_, h.seconds, h.off⟩ <;> by_cases hkey : k = key
  · subst hkey
    simp [Model.step, Content.after, Timed.step, hslot]
  · simpa [Model.step, Content.after, Timed.step, hkey] using h.slots k
  · subst hkey
    simp only [Timed.step, Function.update_self, Option.some.injEq] at hk
    rw [← hk]
    exact hstorable
  · simp only [Timed.step, Function.update_of_ne hkey] at hk
    exact h.storable k slot hk

lemma Holds.never (h : Holds s t) (he : s.content.expire = false) {k : Bytes} {slot : Bytes × Option ℕ}
    (hk : t.slots k = some slot) : slot.2 = none := by
  have hs := h.storable k slot hk
  cases hd : slot.2 with
  | none => rfl
  | some n =>
    rw [hd, he] at hs
    cases hs.1

lemma Holds.enable (h : Holds s t) {sys : Sys} {seconds : UInt32} :
    Holds (s.step P (.call (.enableAutoKeyExpire seconds) sys)) (t.step (.call (.enableAutoKeyExpire seconds) sys)) := by
  refine ⟨fun k => ?_, fun k slot hk => ?_, rfl, fun hoff => ?_⟩
  · have hslots := h.slots k
    cases he : s.content.expire with
    | true => simpa [Model.step, Content.after, Timed.step, he] using hslots
    | false =>
      cases hk : t.slots k with
      | none => simp [Model.step, Content.after, Timed.step, he, hk, hslots]
      | some slot =>
        have hzero : List.replicate 4 (0 : UInt8) = writeRawLittleEndian32 (stamp none) := by decide
        simp [Model.step, Content.after, Timed.step, he, hk, hslots, slotOf, h.never he hk, hzero]
  · cases he : s.content.expire with
    | true => simpa [Model.step, Content.after, he] using h.storable k slot hk
    | false =>
      rw [h.never he hk]
      trivial
  · simp [Model.step, Content.after] at hoff

lemma Holds.disable (h : Holds s t) {sys : Sys} :
    Holds (s.step P (.call .disableAutoKeyExpire sys)) (t.step (.call .disableAutoKeyExpire sys)) := by
  have hvalue := h.value sys.now
  refine ⟨fun k => ?_, fun k slot hk => ?_, ?_, fun _ => rfl⟩
  · cases he : s.content.expire with
    | true =>
      rw [he] at hvalue
      simp [Model.step, Content.after, Timed.step, he, hvalue, slotOf, Function.comp_def]
    | false =>
      rw [he] at hvalue
      have hsame : s.content.slots k = t.visible sys.now.toNat k := by
        rw [← hvalue]
        cases s.content.slots k <;> simp [slotValue]
      simp [Model.step, Content.after, Timed.step, he, hsame, slotOf, Function.comp_def]
  · obtain ⟨blob, -, rfl⟩ := Option.map_eq_some_iff.1 hk
    trivial
  · cases he : s.content.expire with
    | true => simp [Model.step, Op.secondsAfter, Timed.step, he]
    | false =>
      have := h.off he
      simp [Model.step, Op.secondsAfter, Timed.step, he, h.seconds, this]

/-- **One action** does to the slots what it does to the values and their deadlines. -/
theorem holds_step (h : Holds s t) {a : Act} (ha : a.Timely t.duration) : Holds (s.step P a) (t.step a) := by
  cases a with
  | reopen cfg sys => exact ⟨h.slots, h.storable, rfl, fun _ => rfl⟩
  | call op sys =>
    cases op with
    | set key v => exact h.set ha
    | removeValueForKey key =>
      have hr := h.restrict s.crypt (fun k => decide (k ≠ key))
      have hupd : ∀ {α : Type} (f : Bytes → Option α),
          (fun k => if decide (k ≠ key) = true then f k else none) = Function.update f key none := by
        intro α f
        funext k
        by_cases hk : k = key <;> simp [hk]
      rw [hupd, hupd] at hr
      exact hr
    | removeValuesForKeys keys =>
      have hr := h.restrict s.crypt (fun k => decide (k ∉ keys))
      have hupd : ∀ {α : Type} (f : Bytes → Option α),
          (fun k => if decide (k ∉ keys) = true then f k else none) = fun k => if k ∈ keys then none else f k := by
        intro α f
        funext k
        by_cases hk : k ∈ keys <;> simp [hk]
      rw [hupd, hupd] at hr
      exact hr
    | clearAll => exact h.restrict s.crypt fun _ => false
    | enableAutoKeyExpire seconds => exact h.enable
    | disableAutoKeyExpire => exact h.disable
    | trim | sync | clearMemoryCache | enableCompareBeforeSet | disableCompareBeforeSet | reKey newKey =>
      exact ⟨h.slots, h.storable, h.seconds, h.off⟩

end Holds

/-! ### Runs -/

/-- The condition on the actions of a plaintext single-process store with expiration: no call of the system fails, no
empty key is set, timestamps stay within 32 bits, and the region stays below 4 GiB. -/
def Act.Expiring (w : World) : Act → Prop
  | .call op sys => sys.OK ∧ (∀ newKey, op ≠ .reKey newKey) ∧ (∀ v, op ≠ .set [] v) ∧ ∀ m, w.inst = .ok m →
      (Act.call op sys).Timely m.expiredSeconds.toNat ∧
        4 + (op.regionAfter sys w.disk (m.checkLoadData w.disk sys)).length < 2 ^ 32
  | .reopen cfg _ => cfg.Plain

/-- A plaintext store that holds the values with their deadlines. -/
def PlainTimed (w : World) (t : Timed) : Prop := ∃ m s, Tracks w s m ∧ s.crypt = none ∧ Holds s t

section Runs

variable {P : Platform} {w : World} {t : Timed} {a : Act}

lemma Act.Expiring.ok {m : MMKV} {s : Model} (h : Tracks w s m) (hcrypt : s.crypt = none) (ha : a.Expiring w) :
    a.OK P w := by
  have hnone : ∀ m₀, w.inst = .ok m₀ → m₀.crypt = none := fun _ hm₀ => (h.inst_crypt hm₀).trans hcrypt
  cases a with
  | reopen cfg sys => exact ⟨ha.readOnly, fun m₀ hm₀ => ha.crypt_eq.trans (hnone m₀ hm₀).symm⟩
  | call op sys =>
    obtain ⟨hsys, -, hset, hm⟩ := ha
    refine ⟨hsys, fun m₀ hm₀ => ⟨?_, (hm m₀ hm₀).2⟩⟩
    rw [h.checkLoadData hm₀ hsys.remap]
    exact Op.good_of_plaintext hset (h.crypt.trans hcrypt)

lemma Act.Expiring.timely {m : MMKV} {s : Model} (h : Tracks w s m) (hholds : Holds s t) (ha : a.Expiring w) :
    a.Timely t.duration := by
  cases a with
  | reopen cfg sys => trivial
  | call op sys =>
    obtain ⟨m₀, hm₀, hdrop⟩ := h.inst_eq
    obtain ⟨-, -, -, hm⟩ := ha
    rw [← hholds.seconds, ← h.seconds, ← hdrop.expiredSeconds]
    exact (hm m₀ hm₀).1

theorem step_plainTimed (h : PlainTimed w t) (ha : a.Expiring w) : PlainTimed (w.step P a) (t.step a) := by
  obtain ⟨m, s, htracks, hcrypt, hholds⟩ := h
  obtain ⟨m', h'⟩ := step_tracks htracks (ha.ok htracks hcrypt)
  refine ⟨m', s.step P a, h', ?_, holds_step hholds (ha.timely htracks hholds)⟩
  cases a with
  | reopen cfg sys => exact ha.crypt_eq
  | call op sys =>
    cases op with
    | reKey newKey => exact absurd rfl (ha.2.1 newKey)
    | _ => exact hcrypt

lemma Synced.length_lt {d : Disk} {m : MMKV} (h : Synced d m) {k v : Bytes} (hv : m.dict[k]? = some v) :
    v.length < 2 ^ 32 := by
  have hle := parseDict_length_le h.image.decoded hv
  rw [length_plainOf, h.image.length_region] at hle
  exact Nat.lt_of_le_of_lt hle (UInt32.toNat_lt _)

/-- **Expiration over whole runs.**  After any run on files that hold a map, at any time, a getter finds a key with the
value last set if it was not removed and its deadline, if it has one, is still to come, and finds nothing otherwise;
and the getter of the value's type returns the value. -/
theorem expiration_over_runs {d : Disk} {cfg : Config} {sys : Sys} {mi : MetaInfo} {dict : Dict} {acts : List Act}
    (hstored : Stored none d mi dict) (hcfg : cfg.Plain)
    (hacts : Along Act.Expiring (World.step P) (World.start P cfg sys d) acts) :
    let w := run (World.step P) (World.start P cfg sys d) acts
    let t := run Timed.step (Timed.opened ⟨OrdMap.lookup dict, mi.expireEnabled⟩) acts
    ∃ m, w.inst = .ok m ∧ ∀ sys' : Sys, sys'.remap = none → ∀ key : Bytes,
      let view := (m.checkLoadData w.disk sys').view sys'.now
      view.value key = t.visible sys'.now.toNat key ∧
        ∀ v : Value, t.visible sys'.now.toNat key = some v.blob → v.ReadAs view key := by
  have hstart : PlainTimed (World.start P cfg sys d) (Timed.opened ⟨OrdMap.lookup dict, mi.expireEnabled⟩) := by
    rw [← hcfg.crypt_eq (P := P)] at hstored
    obtain ⟨m, h, -⟩ := tracks_start sys hstored hcfg.readOnly
    refine ⟨m, _, h, hcfg.crypt_eq, holds_opened _ fun he k v hv => ?_⟩
    have := (hstored.image (P := P)).stamped he k v hv
    omega
  obtain ⟨m, s, h, -, hholds⟩ := hacts.simulation (fun _ _ _ => step_plainTimed) hstart
  intro w t
  obtain ⟨m₀, hinst, -⟩ := h.inst_eq
  refine ⟨m₀, hinst, fun sys' hsys' key => ?_⟩
  rw [h.checkLoadData hinst hsys']
  have hvalue : (m.view sys'.now).value key = t.visible sys'.now.toNat key := by
    rw [View.value_eq_bind, ← hholds.value sys'.now key, ← h.content]
    rfl
  refine ⟨hvalue, fun v hv => Value.readAs_of_value ?_ (hvalue.trans hv)⟩
  -- what is visible is no longer than its slot
  have hslot := hvalue.trans hv
  rw [View.value_eq_bind, Option.bind_eq_some_iff] at hslot
  obtain ⟨u, hu, huv⟩ := hslot
  exact Nat.lt_of_le_of_lt (length_le_of_slotValue huv) (h.synced.length_lt hu)

end Runs

/-! ### Two runs -/

/-- A system in which no call fails, at the time `now`. -/
def calmAt (now : UInt32) : Sys := { calm with now := now }

lemma calmAt_ok (now : UInt32) : (calmAt now).OK := ⟨rfl, rfl, rfl, rfl, rfl, rfl, rfl⟩

/-- Ten seconds are set as the duration, then a value, at time 100. -/
def setForTen : List Act :=
  [.call (.enableAutoKeyExpire 10) (calmAt 100), .call (.set [97] (.bool true)) (calmAt 100)]

theorem setForTen_expires :
    let w := run (World.step linux) (World.start linux defaults calm ⟨[], []⟩) setForTen
    ∃ m, w.inst = .ok m ∧ ((m.checkLoadData w.disk (calmAt 109)).view 109).getBool [97] = some true ∧
      ((m.checkLoadData w.disk (calmAt 110)).view 110).value [97] = none := by
  have hacts : Along Act.Expiring (World.step linux) (World.start linux defaults calm ⟨[], []⟩) setForTen := by
    rw [start_absent rfl]
    refine ⟨⟨calmAt_ok _, by simp, by simp, fun m hm => ?_⟩, ⟨calmAt_ok _, by simp, by simp, fun m hm => ?_⟩, trivial⟩
    · cases hm
      exact ⟨trivial, by decide +kernel⟩
    · rw [World.step_call] at hm
      obtain rfl := Except.ok.inj hm
      exact ⟨by rw [Act.Timely]; decide +kernel, by decide +kernel⟩
  obtain ⟨m, hinst, hview⟩ := expiration_over_runs (.inr ⟨blank_absent, rfl, rfl⟩) defaults_plain hacts
  refine ⟨m, hinst, (hview (calmAt 109) rfl [97]).2 (.bool true) ?_, (hview (calmAt 110) rfl [97]).1.trans ?_⟩
  · decide +kernel
  · decide +kernel

/-- After a first set of `n` zero bytes, a multiple of 4 GiB, the getter finds one of them. -/
lemma zeros_not_visible {n : ℕ} (hn : 2 ^ 32 ∣ n) :
    let act : Act := .call (.set [97] (.bytes (zeros n))) calm
    let w := run (World.step linux) (World.start linux defaults calm ⟨[], []⟩) [act]
    let t := run Timed.step (Timed.opened Content.empty) [act]
    ((defaults.fresh linux).exec linux calm (freshDisk linux) (.set [97] (.bytes (zeros n)))).err = none ∧
      ∃ m, w.inst = .ok m ∧ ((m.checkLoadData w.disk calm).view 0).value [97] = some [0] ∧
        t.visible 0 [97] = some (zeros (n + 1)) := by
  obtain ⟨herr, hdict, hexp, hload, hmulti⟩ := exec_first_set_zeros (P := linux)
    (show defaults.readOnly = false from rfl) calm_ok (show ([97] : Bytes) ≠ [] by simp) (by simp) hn
  intro act w t
  have hw : w = (⟨freshDisk linux, .ok (defaults.fresh linux)⟩ : World).step linux act := by
    simp only [w, run_cons, run_nil, start_absent (show defaults.readOnly = false from rfl)]
  have hcheck : ∀ (m : MMKV) (d : Disk), m.needLoad = false → m.multiProcess = false → m.checkLoadData d calm = m := by
    intro m d h₁ h₂
    simp [MMKV.checkLoadData, h₁, h₂]
  refine ⟨herr, _, congrArg World.inst hw, ?_, ?_⟩
  · rw [hcheck _ _ hload hmulti]
    simp [View.value, MMKV.view, hdict, hexp, slotValue]
  · simp only [t, act, run_cons, run_nil, Timed.step, Timed.visible, Function.update_self]
    rw [← bytesBlob_zeros hn]
    rfl

lemma zeros_succ_ne_singleton {n : ℕ} (hn : n ≠ 0) : zeros (n + 1) ≠ [0] := by
  intro h
  have hlen := congrArg List.length h
  rw [length_zeros, List.length_singleton] at hlen
  omega

/-- **A value of 4 GiB is not visible**: the set returns nil, and the getter finds one byte of the value. -/
theorem four_gib_not_visible :
    let act : Act := .call (.set [97] (.bytes (zeros (2 ^ 32)))) calm
    let w := run (World.step linux) (World.start linux defaults calm ⟨[], []⟩) [act]
    let t := run Timed.step (Timed.opened Content.empty) [act]
    ((defaults.fresh linux).exec linux calm (freshDisk linux) (.set [97] (.bytes (zeros (2 ^ 32))))).err = none ∧
      ∃ m, w.inst = .ok m ∧ ((m.checkLoadData w.disk calm).view 0).value [97] = some [0] ∧
        t.visible 0 [97] = some (zeros (2 ^ 32 + 1)) ∧ zeros (2 ^ 32 + 1) ≠ [0] := by
  obtain ⟨herr, m, hinst, hvalue, hvisible⟩ := zeros_not_visible (dvd_refl (2 ^ 32))
  exact ⟨herr, m, hinst, hvalue, hvisible, zeros_succ_ne_singleton (by decide)⟩

end MmkvGo.Store
