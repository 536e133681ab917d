import Mathlib.Data.Set.Card
import MmkvGo.Store.Expire

/-!
`ImportFrom`.  The source's live values are collected in whatever order its map is iterated, stripped of their timestamps,
and set one after the other in the destination, each on whichever write path the destination takes for it.  In terms of
maps it is an overlay, which has no order: `foldl_put` says so of the maps, `importAll_effect` of the code.  The files may
have any size; it is the region of the destination that has to stay below 4 GiB.
-/

namespace MmkvGo.Store

open MmkvGo.Lib MmkvGo.Wire MmkvGo.Crypt Std

/-! ### The code -/

/-- The `keys` and `vals` that `ImportFrom` collects when the range over the source's map yields `order`. -/
def MMKV.liveEntries (m : MMKV) (now : UInt32) (order : List Bytes) : List (Bytes × Bytes) :=
  order.filterMap fun key => ((m.view now).value key).map fun v => (key, v)

/-- The loop of `ImportFrom` over what it collected: the result of the sets made, and their number. -/
def MMKV.importAll (P : Platform) (sys : Sys) (d : Disk) (m : MMKV) : List (Bytes × Bytes) → Result × ℕ
  | [] => (⟨[], m, none⟩, 0)
  | (key, v) :: rest =>
    let r := m.setValueLocked P sys d key v
    match r.err with
    | some _ => (r, 0)
    | none =>
      let (s, n) := r.m.importAll P sys (d.apply r.writes) rest
      (⟨r.writes ++ s.writes, s.m, s.err⟩, n + 1)

/-- What `ImportFrom` did to the two instances and to the files of the destination, and the number it returns. -/
structure Imported where
  src : Option MMKV
  dst : Result
  n : ℕ

/-- `ImportFrom`; the source comes with its files and is `none` when it is nil or the destination itself. -/
def MMKV.importFrom (P : Platform) (sys : Sys) (d : Disk) (m : MMKV) (src : Option (Disk × MMKV)) (order : List Bytes) :
    Imported :=
  match src with
  | none => ⟨none, ⟨[], m, none⟩, 0⟩
  | some (dSrc, src) =>
    if src.closed then ⟨some src, ⟨[], m, some .closed⟩, 0⟩
    else
      let src := src.checkLoadData dSrc sys
      let entries := src.liveEntries sys.now order
      if m.closed then ⟨some src, ⟨[], m, some .closed⟩, 0⟩
      else if m.readOnly then ⟨some src, ⟨[], m, some .readOnly⟩, 0⟩
      else
        let (r, n) := (m.checkLoadData d sys).importAll P sys d entries
        ⟨some src, r, n⟩

/-! ### The overlay -/

/-- The value of a key as it is read at `now`. -/
def Content.valueAt (c : Content) (now : UInt32) (key : Bytes) : Option Bytes :=
  (c.slots key).bind (slotValue c.expire now)

lemma MMKV.view_value (m : MMKV) (now : UInt32) (key : Bytes) : (m.view now).value key = m.content.valueAt now key :=
  View.value_eq_bind ..

/-- The map `c` with the values of `live` over it, in slots of `c`. -/
def Content.overlay (sys : Sys) (seconds : UInt32) (c : Content) (live : Bytes → Option Bytes) : Content :=
  { c with slots := fun key => ((live key).map (c.slot sys seconds)).or (c.slots key) }

section Overlay

variable {sys : Sys} {seconds : UInt32}

/-- **Binding the live values one by one, in any order and however often, is the overlay** of those in the order. -/
theorem foldl_put (live : Bytes → Option Bytes) (order : List Bytes) (c : Content) :
    (order.filterMap fun key => (live key).map fun v => (key, v)).foldl (fun c e => c.put sys seconds e.1 e.2) c =
      c.overlay sys seconds fun key => if key ∈ order then live key else none := by
  induction order generalizing c with
  | nil => simp [Content.overlay]
  | cons key order ih =>
    cases hlive : live key with
    | none =>
      rw [List.filterMap_cons_none (by simp [hlive]), ih]
      refine Content.ext (funext fun k => ?_) rfl
      by_cases hk : k = key
      · subst hk
        simp [Content.overlay, hlive]
      · simp [Content.overlay, hk]
    | some v =>
      rw [List.filterMap_cons_some (by simp [hlive]; rfl), List.foldl_cons, ih]
      -- the slots of later values are of the same kind, and a value that comes again is bound to the same slot
      have hslot : (c.put sys seconds key v).slot sys seconds = c.slot sys seconds := rfl
      have hslots : (c.put sys seconds key v).slots = Function.update c.slots key (some (c.slot sys seconds v)) := rfl
      refine Content.ext (funext fun k => ?_) rfl
      by_cases hk : k = key
      · subst hk
        by_cases hmem : k ∈ order <;> simp [Content.overlay, hlive, hslot, hslots, hmem]
      · simp [Content.overlay, hk, hslot, hslots]

/-- **What is read after an overlay**: the values over it until the deadline that they got, and elsewhere what was there. -/
theorem Content.valueAt_overlay (c : Content) (hnow : sys.now.toNat + seconds.toNat < 2 ^ 32)
    (live : Bytes → Option Bytes) (t : UInt32) (key : Bytes) :
    (c.overlay sys seconds live).valueAt t key =
      match live key with
      | some v => if pending t.toNat (c.deadline sys.now.toNat seconds.toNat) then some v else none
      | none => c.valueAt t key := by
  cases hlive : live key with
  | none => simp [Content.valueAt, Content.overlay, hlive]
  | some v =>
    obtain ⟨hslot, hstorable⟩ := c.slot_eq hnow v
    have hvalue : slotValue c.expire t (slotOf c.expire (v, c.deadline sys.now.toNat seconds.toNat)) = _ :=
      slotValue_slotOf hstorable t
    simpa [Content.valueAt, Content.overlay, hlive, hslot] using hvalue

lemma Content.pending_deadline (c : Content) (now seconds : ℕ) : pending now (c.deadline now seconds) = true := by
  rw [Content.deadline]
  split
  · next h => exact decide_eq_true (by omega)
  · rfl

end Overlay

/-! ### The loop -/

section Loop

variable {P : Platform} {sys : Sys} {d : Disk} {m : MMKV}

/-- The files and the instance after one set of the loop. -/
def importStep (P : Platform) (sys : Sys) (x : Disk × MMKV) (e : Bytes × Bytes) : Disk × MMKV :=
  let r := x.2.setValueLocked P sys x.1 e.1 e.2
  (x.1.apply r.writes, r.m)

/-- The set of the pair leaves a region below 4 GiB. -/
def ImportBounded (sys : Sys) (x : Disk × MMKV) (e : Bytes × Bytes) : Prop :=
  4 + (x.2.regionAfterPut sys x.1 e.1 e.2).length < 2 ^ 32

/-- What the loop leaves behind. -/
structure ImportEffect (d : Disk) (m : MMKV) (c : Content) (n : ℕ) (r : Result × ℕ) : Prop where
  err : r.1.err = none
  synced : Synced (d.apply r.1.writes) r.1.m
  content : r.1.m.content = c
  crypt : r.1.m.crypt = m.crypt
  count : r.2 = n

/-- **The loop sets every pair it is given**, on whichever path. -/
theorem importAll_effect {entries : List (Bytes × Bytes)} (h : Synced d m) (hsys : sys.OK)
    (hne : ∀ e ∈ entries, e.1 ≠ [] ∧ e.2 ≠ [])
    (hbounded : Along (ImportBounded sys) (importStep P sys) (d, m) entries) :
    ImportEffect d m (entries.foldl (fun c e => c.put sys m.expiredSeconds e.1 e.2) m.content) entries.length
      (m.importAll P sys d entries) := by
  induction entries generalizing d m with
  | nil => exact ⟨rfl, h, rfl, rfl, rfl⟩
  | cons e entries ih =>
    obtain ⟨key, v⟩ := e
    obtain ⟨hk, hv⟩ := hne (key, v) (by simp)
    obtain ⟨hlt, hrest⟩ := hbounded
    have heffect := put_effect (P := P) h hsys hk hv hlt
    have hih := ih heffect.synced (fun e he => hne e (List.mem_cons_of_mem _ he)) hrest
    rw [heffect.content, heffect.seconds] at hih
    simp only [MMKV.importAll, heffect.err]
    refine ⟨hih.err, ?_, hih.content, hih.crypt.trans heffect.crypt, ?_⟩
    · rw [Disk.apply_append]
      exact hih.synced
    · rw [List.length_cons]
      exact congrArg (· + 1) hih.count

end Loop

/-! ### Reachable instances -/

/-- The world was reached from files that hold a map by opening them for writing and making calls. -/
def Reached (P : Platform) (w : World) (s : Model) : Prop :=
  ∃ cfg sys d mi dict acts, Stored (cfg.crypt P) d mi dict ∧ cfg.readOnly = false ∧
    Along (Act.OK P) (World.step P) (World.start P cfg sys d) acts ∧
    w = run (World.step P) (World.start P cfg sys d) acts ∧
    s = run (Model.step P) ⟨⟨OrdMap.lookup dict, mi.expireEnabled⟩, cfg.crypt P, 0⟩ acts

/-- The world was reached by opening files that hold a map read-only. -/
def ReachedReadOnly (P : Platform) (w : World) (s : Model) : Prop :=
  ∃ cfg sys d mi dict, Readable d mi ∧ parseDict (plainOf (cfg.crypt P) mi.iv (d.region mi.actualSize)) = .ok dict ∧
    Stamped mi dict ∧ cfg.readOnly = true ∧ w = World.start P cfg sys d ∧
    s = ⟨⟨OrdMap.lookup dict, mi.expireEnabled⟩, cfg.crypt P, 0⟩

/-- What an instance has to be to import from: open, and with a map once it is probed. -/
structure Offers (sys : Sys) (d : Disk) (m₀ : MMKV) (c : Content) : Prop where
  isOpen : m₀.closed = false
  content : (m₀.checkLoadData d sys).content = c
  wf : WF (m₀.checkLoadData d sys).dict
  stamped : c.expire = true → ∀ k v : Bytes, c.slots k = some v → 5 ≤ v.length

section Reached

variable {P : Platform} {w : World} {s : Model} {sys : Sys} {m₀ : MMKV}

lemma Reached.tracks (h : Reached P w s) : ∃ m, Tracks w s m := by
  obtain ⟨cfg, sys, d, mi, dict, acts, hstored, hro, hacts, rfl, rfl⟩ := h
  exact run_tracks hstored hro hacts

lemma Tracks.writable {m : MMKV} (h : Tracks w s m) (hinst : w.inst = .ok m₀) :
    m₀.closed = false ∧ m₀.readOnly = false := by
  have hdrop := h.upToDrop hinst
  exact ⟨hdrop.closed.trans h.synced.closed, hdrop.readOnly.trans h.synced.readOnly⟩

lemma offers_of_decoded {d : Disk} {m : MMKV} {plain : Bytes} (hdec : parseDict plain = .ok m.dict)
    (hst : Stamped m.info m.dict) (hexp : m.enableExpire = m.info.expireEnabled) (hopen : m₀.closed = false)
    (hprobe : m₀.checkLoadData d sys = m) : Offers sys d m₀ m.content := by
  refine ⟨hopen, by rw [hprobe], by rw [hprobe]; exact parseDict_wf hdec, fun he k v hv => ?_⟩
  exact hst (hexp.symm.trans he) k v hv

lemma Tracks.offers {m : MMKV} (h : Tracks w s m) (hinst : w.inst = .ok m₀) (hsys : sys.remap = none) :
    Offers sys w.disk m₀ s.content := by
  rw [← h.content]
  exact offers_of_decoded h.synced.image.decoded h.synced.image.stamped h.synced.enableExpire (h.writable hinst).1
    (h.checkLoadData hinst hsys)

lemma ReachedReadOnly.offers (h : ReachedReadOnly P w s) (hinst : w.inst = .ok m₀) :
    Offers sys w.disk m₀ s.content := by
  obtain ⟨cfg, sys₀, d, mi, dict, hreadable, hdec, hst, hro, rfl, rfl⟩ := h
  rw [World.start, openMMKV_readOnly hreadable hro hdec] at hinst ⊢
  cases hinst
  exact offers_of_decoded (m := cfg.opened P d mi dict) hdec hst rfl rfl
    (MMKV.checkLoadData_of_parse hreadable.parse rfl rfl rfl)

end Reached

/-! ### A region beyond 32 bits -/

section Large

variable {P : Platform} {d : Disk} {m m' : MMKV}

lemma MMKV.length_decodeRegion {actual crc : UInt32} (hcrypt : m.crypt = none)
    (h : m.decodeRegion d actual crc = (m', none)) :
    (regionOf m'.dict).length < 2 ^ 32 ∧ m'.needFullWriteback = m.needFullWriteback := by
  have hlt := (4 + actual).toNat_lt
  have hregion : (m.region d actual).length ≤ (4 + actual).toNat - 4 := length_slice_le ..
  simp only [decodeRegion, plain, hcrypt] at h
  split at h
  · cases h
  · next dict hparse =>
    have hlen := length_regionOf_parseDict hparse
    cases h
    exact ⟨by simp only; omega, rfl⟩

/-- **A map that a plaintext load finds is one whose size 32 bits can say**, unless it salvages. -/
lemma MMKV.length_loadRegion (hcrypt : m.crypt = none) (hrecover : m.recover = false)
    (h : m.loadRegion d = (m', none)) :
    (regionOf m'.dict).length < 2 ^ 32 ∧ m'.needFullWriteback = m.needFullWriteback := by
  rw [loadRegion] at h
  simp only [hrecover, Bool.false_eq_true, if_false] at h
  split_ifs at h
  · exact length_decodeRegion hcrypt h
  · have hlen := length_decodeRegion ?_ h
    · exact hlen
    · exact hcrypt
  · cases h
    exact ⟨show (regionOf (∅ : Dict)).length < 2 ^ 32 by decide, rfl⟩

lemma MMKV.length_loadData (hcrypt : m.crypt = none) (hrecover : m.recover = false) (h : m.loadData d = (m', none)) :
    (regionOf m'.dict).length < 2 ^ 32 ∧ m'.needFullWriteback = m.needFullWriteback := by
  rw [loadData] at h
  split at h
  · cases h
  dsimp only at h
  split at h
  · cases h
  have hlen := length_loadRegion ?_ ?_ h
  · exact hlen
  · exact hcrypt
  · exact hrecover

/-- **No files reopen to a map whose region is beyond 32 bits.** -/
theorem length_region_reopened {cfg : Config} (hplain : cfg.cryptKey = []) (hrecover : cfg.recover = false) {sys : Sys}
    (hinst : (World.start P cfg sys d).inst = .ok m') : (regionOf m'.dict).length < 2 ^ 32 := by
  have hcrypt : cfg.crypt P = none := by rw [Config.crypt, if_pos hplain]
  have hload : ∀ d' n, ((cfg.instance P ⟨n, true⟩).load P sys d').2 = .ok m' → (regionOf m'.dict).length < 2 ^ 32 := by
    intro d' n hok
    rw [MMKV.load] at hok
    split at hok
    · cases hok
    · next m₁ hm₁ =>
      obtain ⟨hlen, hfull⟩ := MMKV.length_loadData hcrypt hrecover hm₁
      have hnone : m₁.needFullWriteback = false := hfull
      simp only [hnone, Bool.false_and, Bool.false_eq_true, if_false, Except.ok.injEq] at hok
      subst hok
      exact hlen
  rw [World.start, openMMKV] at hinst
  split_ifs at hinst
  · exact hload _ _ hinst
  · exact hload _ _ hinst

/-- A key that no region of 32 bits has room for is in no map that files reopen to. -/
lemma absent_reopened {cfg : Config} (hplain : cfg.cryptKey = []) (hrecover : cfg.recover = false) {sys : Sys}
    {key : Bytes} (hbig : 2 ^ 32 ≤ key.length + 6) (hinst : (World.start P cfg sys d).inst = .ok m') :
    m'.dict[key]? = none := by
  cases hkey : m'.dict[key]? with
  | none => rfl
  | some blob =>
    have hlen := length_region_reopened hplain hrecover hinst
    have hregion := pairSize_le_regionOf hkey
    have hpair := le_pairSize key blob
    omega

end Large

/-! ### Importing -/

section Import

variable {P : Platform} {sys : Sys} {w wSrc : World} {s sSrc : Model} {m₀ mSrc : MMKV} {order : List Bytes}

lemma Offers.ne_nil {c : Content} {d : Disk} (h : Offers sys d mSrc c) {now : UInt32} {key v : Bytes}
    (hv : c.valueAt now key = some v) : key ≠ [] ∧ v ≠ [] := by
  obtain ⟨slot, hslot, hvalue⟩ := Option.bind_eq_some_iff.1 hv
  have hdict : (mSrc.checkLoadData d sys).dict[key]? = some slot := by
    rw [← h.content] at hslot
    exact hslot
  obtain ⟨hk, hne⟩ := h.wf key slot hdict
  refine ⟨hk, ?_⟩
  cases he : c.expire with
  | false =>
    rw [he] at hvalue
    simp only [slotValue, Bool.false_and, Bool.false_eq_true, if_false, Option.some.injEq] at hvalue
    rwa [← hvalue]
  | true =>
    have hlen := h.stamped he key slot hslot
    rw [he, slotValue, if_pos (by simp; omega)] at hvalue
    dsimp only at hvalue
    split at hvalue
    · cases hvalue
    · cases hvalue
      refine List.length_pos_iff.1 ?_
      rw [List.length_take]
      omega

/-- Between two instances that can be used, `ImportFrom` is its loop. -/
lemma importFrom_eq {d dSrc : Disk} (hopenSrc : mSrc.closed = false) (hopen : m₀.closed = false)
    (hro : m₀.readOnly = false) :
    m₀.importFrom P sys d (some (dSrc, mSrc)) order =
      ⟨some (mSrc.checkLoadData dSrc sys),
        ((m₀.checkLoadData d sys).importAll P sys d
          ((mSrc.checkLoadData dSrc sys).liveEntries sys.now order)).1,
        ((m₀.checkLoadData d sys).importAll P sys d
          ((mSrc.checkLoadData dSrc sys).liveEntries sys.now order)).2⟩ := by
  simp [MMKV.importFrom, hopenSrc, hopen, hro]

lemma Offers.liveEntries {c : Content} {d : Disk} (h : Offers sys d mSrc c) (order : List Bytes) :
    (mSrc.checkLoadData d sys).liveEntries sys.now order =
      order.filterMap fun key => (c.valueAt sys.now key).map fun v => (key, v) := by
  simp only [MMKV.liveEntries, MMKV.view_value, h.content]

lemma Offers.mem_order {c : Content} {d : Disk} (h : Offers sys d mSrc c)
    (horder : order.Perm (mSrc.checkLoadData d sys).dict.keys) {now : UInt32} {key v : Bytes}
    (hv : c.valueAt now key = some v) : key ∈ order := by
  obtain ⟨slot, hslot, -⟩ := Option.bind_eq_some_iff.1 hv
  rw [← h.content] at hslot
  rw [horder.mem_iff, ExtTreeMap.mem_keys, ExtTreeMap.mem_iff_isSome_getElem?]
  exact Option.isSome_iff_exists.2 ⟨slot, hslot⟩

lemma Offers.ite_mem_order {c : Content} {d : Disk} (h : Offers sys d mSrc c)
    (horder : order.Perm (mSrc.checkLoadData d sys).dict.keys) (now : UInt32) :
    (fun key => if key ∈ order then c.valueAt now key else none) = c.valueAt now := by
  funext key
  cases hv : c.valueAt now key with
  | none => simp
  | some v => rw [if_pos (h.mem_order horder hv)]

lemma Offers.length_liveEntries {c : Content} {d : Disk} (h : Offers sys d mSrc c)
    (horder : order.Perm (mSrc.checkLoadData d sys).dict.keys) :
    ((mSrc.checkLoadData d sys).liveEntries sys.now order).length =
      Set.ncard {key | (c.valueAt sys.now key).isSome} := by
  have hnodup : order.Nodup := horder.nodup_iff.2 ExtTreeMap.nodup_keys
  have hkeys : order.filterMap (fun key => (c.valueAt sys.now key).map fun _ => key) =
      ((mSrc.checkLoadData d sys).liveEntries sys.now order).map Prod.fst := by
    rw [h.liveEntries, List.map_filterMap]
    simp [Function.comp_def]
  have hset : {key | (c.valueAt sys.now key).isSome} =
      ↑(order.filterMap fun key => (c.valueAt sys.now key).map fun _ => key).toFinset := by
    ext key
    simp only [Set.mem_ofPred_eq, Option.isSome_iff_exists, List.coe_toFinset, List.mem_filterMap,
      Option.map_eq_some_iff]
    constructor
    · rintro ⟨v, hv⟩
      exact ⟨key, h.mem_order horder hv, v, hv, rfl⟩
    · rintro ⟨_, -, v, hv, rfl⟩
      exact ⟨v, hv⟩
  have hnodup' : (order.filterMap fun key => (c.valueAt sys.now key).map fun _ => key).Nodup := by
    refine hnodup.filterMap fun a a' b hb hb' => ?_
    obtain ⟨-, -, rfl⟩ := Option.map_eq_some_iff.1 hb
    obtain ⟨-, -, h'⟩ := Option.map_eq_some_iff.1 hb'
    exact h'.symm
  rw [hset, Set.ncard_coe_finset, List.toFinset_card_of_nodup hnodup', hkeys, List.length_map]

/-- **`ImportFrom` is an overlay**, whatever the order in which the source's map is iterated, as long as the region of the
destination stays below 4 GiB.  A destination whose overlay has a larger region does not reopen to it. -/
theorem importFrom_overlays (hsrc : Reached P wSrc sSrc ∨ ReachedReadOnly P wSrc sSrc) (hdst : Reached P w s)
    (hinstSrc : wSrc.inst = .ok mSrc) (hinst : w.inst = .ok m₀) (hsys : sys.OK)
    (hnow : sys.now.toNat + s.seconds.toNat < 2 ^ 32)
    (horder : order.Perm (mSrc.checkLoadData wSrc.disk sys).dict.keys) :
    let r := m₀.importFrom P sys w.disk (some (wSrc.disk, mSrc)) order
    (Along (ImportBounded sys) (importStep P sys) (w.disk, m₀.checkLoadData w.disk sys)
        ((mSrc.checkLoadData wSrc.disk sys).liveEntries sys.now order) →
      r.dst.err = none ∧
      r.n = Set.ncard {key | (sSrc.content.valueAt sys.now key).isSome} ∧
      (∀ key, r.dst.m.content.valueAt sys.now key =
        (sSrc.content.valueAt sys.now key).or (s.content.valueAt sys.now key)) ∧
      (∀ t key, r.dst.m.content.valueAt t key =
        match sSrc.content.valueAt sys.now key with
        | some v => if pending t.toNat (s.content.deadline sys.now.toNat s.seconds.toNat) then some v else none
        | none => s.content.valueAt t key) ∧
      (∃ m, r.src = some m ∧ m.content = sSrc.content) ∧
      ∀ cfg sys', cfg.readOnly = false → cfg.crypt P = s.crypt →
        ∃ m', (World.start P cfg sys' (w.disk.apply r.dst.writes)).inst = .ok m' ∧ m'.content = r.dst.m.content) ∧
    ∀ after : Dict, OrdMap.lookup after = (s.content.overlay sys s.seconds (sSrc.content.valueAt sys.now)).slots →
      2 ^ 32 ≤ (regionOf after).length → ∀ cfg sys' m', cfg.cryptKey = [] → cfg.recover = false →
        (World.start P cfg sys' (w.disk.apply r.dst.writes)).inst = .ok m' →
        m'.content ≠ s.content.overlay sys s.seconds (sSrc.content.valueAt sys.now) := by
  obtain ⟨m, htracks⟩ := hdst.tracks
  have hoffers : Offers sys wSrc.disk mSrc sSrc.content := by
    rcases hsrc with hsrc | hsrc
    · obtain ⟨m', htracks'⟩ := hsrc.tracks
      exact htracks'.offers hinstSrc hsys.remap
    · exact hsrc.offers hinstSrc
  refine ⟨fun hbounded => ?_, fun after hafter hbig cfg sys' m' hplain hrecover hinst' hcontent => ?_⟩
  · obtain ⟨hopen, hro⟩ := htracks.writable hinst
    rw [importFrom_eq hoffers.isOpen hopen hro]
    rw [htracks.checkLoadData hinst hsys.remap] at hbounded ⊢
    have hne : ∀ e ∈ (mSrc.checkLoadData wSrc.disk sys).liveEntries sys.now order, e.1 ≠ [] ∧ e.2 ≠ [] := by
      intro e he
      rw [hoffers.liveEntries, List.mem_filterMap] at he
      obtain ⟨key, -, hkey⟩ := he
      obtain ⟨v, hv, rfl⟩ := Option.map_eq_some_iff.1 hkey
      exact hoffers.ne_nil hv
    -- the loop is a run of sets, whose order does not matter
    have heffect := importAll_effect htracks.synced hsys hne hbounded
    have hoverlay := heffect.content
    rw [hoffers.liveEntries, foldl_put, hoffers.ite_mem_order horder, htracks.content, htracks.seconds,
      ← hoffers.liveEntries] at hoverlay
    have hvalue := s.content.valueAt_overlay hnow (sSrc.content.valueAt sys.now)
    rw [← hoverlay] at hvalue
    refine ⟨heffect.err, heffect.count.trans (hoffers.length_liveEntries horder), fun key => ?_, hvalue,
      ⟨_, rfl, hoffers.content⟩, fun cfg sys' hro' hkey => ?_⟩
    · rw [hvalue, Content.pending_deadline]
      cases sSrc.content.valueAt sys.now key <;> rfl
    · exact heffect.synced.reopens_content hro' (hkey.trans (htracks.crypt.symm.trans heffect.crypt.symm)) sys' rfl
  -- a map whose region is beyond 32 bits comes back from no files
  · have hlt := length_region_reopened hplain hrecover hinst'
    have hdict : m'.dict = after := OrdMap.lookup_inj ((congrArg Content.slots hcontent).trans hafter.symm)
    rw [hdict] at hlt
    omega

end Import

lemma reached_first : Reached linux
    ⟨defaults.firstDisk linux calm [97] (.bool true), .ok (defaults.afterFirst linux calm [97] (.bool true))⟩
    (run (Model.step linux) ⟨Content.empty, none, 0⟩ [.call (.set [97] (.bool true)) calm]) := by
  obtain ⟨hrun, -⟩ := run_first_set (P := linux) (show defaults.readOnly = false from rfl) calm_ok [97] (.bool true)
    (by simp) (by decide)
  refine ⟨defaults, calm, ⟨[], []⟩, blankMeta, ∅, _, .inr ⟨blank_absent, rfl, rfl⟩, rfl, ?_, hrun.symm, ?_⟩
  · rw [start_absent rfl]
    refine ⟨⟨calm_ok, fun m hm => ?_⟩, trivial⟩
    cases hm
    rw [MMKV.checkLoadData_of_synced (synced_fresh linux rfl)]
    exact ⟨by simp [Op.Good], by decide +kernel⟩
  · rw [OrdMap.lookup_empty]
    rfl

/-- A duration of ten seconds is set on an absent store at time 100. -/
def tenSeconds : List Act := [.call (.enableAutoKeyExpire 10) (calmAt 100)]

lemma reached_tenSeconds : Reached linux
    (run (World.step linux) (World.start linux defaults calm ⟨[], []⟩) tenSeconds)
    (run (Model.step linux) ⟨Content.empty, none, 0⟩ tenSeconds) := by
  refine ⟨defaults, calm, ⟨[], []⟩, blankMeta, ∅, tenSeconds, .inr ⟨blank_absent, rfl, rfl⟩, rfl, ?_, rfl, ?_⟩
  · rw [start_absent rfl]
    refine ⟨⟨calmAt_ok _, fun m hm => ⟨trivial, ?_⟩⟩, trivial⟩
    cases hm
    rw [MMKV.checkLoadData_of_synced (synced_fresh linux rfl)]
    decide +kernel
  · rw [OrdMap.lookup_empty]
    rfl

/-- The key is imported then: it is there for ten seconds. -/
theorem imported_key_expires :
    let w := run (World.step linux) (World.start linux defaults calm ⟨[], []⟩) tenSeconds
    ∃ m, w.inst = .ok m ∧
      let r := m.importFrom linux (calmAt 100) w.disk (some (defaults.firstDisk linux calm [97] (.bool true),
        defaults.afterFirst linux calm [97] (.bool true))) [[97]]
      r.dst.err = none ∧ r.dst.m.content.valueAt 109 [97] = some [1] ∧ r.dst.m.content.valueAt 110 [97] = none := by
  intro w
  have hw : w = (⟨freshDisk linux, .ok (defaults.fresh linux)⟩ : World).step linux
      (.call (.enableAutoKeyExpire 10) (calmAt 100)) := by
    simp only [w, tenSeconds, run_cons, run_nil, start_absent (show defaults.readOnly = false from rfl)]
  have hreached : Reached linux w _ := reached_tenSeconds
  clear_value w
  have hinst := congrArg World.inst hw
  have hdisk := congrArg World.disk hw
  rw [World.step_call] at hinst hdisk
  have hentries : ((defaults.afterFirst linux calm [97] (.bool true)).checkLoadData
      (defaults.firstDisk linux calm [97] (.bool true)) (calmAt 100)).liveEntries (calmAt 100).now [[97]] =
        [([97], [1])] := by decide +kernel
  have hkeys : ([[97]] : List Bytes).Perm ((defaults.afterFirst linux calm [97] (.bool true)).checkLoadData
      (defaults.firstDisk linux calm [97] (.bool true)) (calmAt 100)).dict.keys := by decide +kernel
  have hbounded : Along (ImportBounded (calmAt 100)) (importStep linux (calmAt 100)) (w.disk,
      ((defaults.fresh linux).exec linux (calmAt 100) (freshDisk linux) (.enableAutoKeyExpire 10)).m.checkLoadData w.disk
        (calmAt 100)) [([97], [1])] := by
    rw [hdisk]
    exact ⟨by rw [ImportBounded]; decide +kernel, trivial⟩
  rw [← hentries] at hbounded
  generalize hm : ((defaults.fresh linux).exec linux (calmAt 100) (freshDisk linux) (.enableAutoKeyExpire 10)).m = m at *
  obtain ⟨herr, -, -, hvalue, -⟩ := (importFrom_overlays (.inl reached_first) hreached rfl hinst (calmAt_ok 100)
    (by decide +kernel) hkeys).1 hbounded
  have hten := (hvalue 109 [97]).trans (show _ = some [1] by decide +kernel)
  have heleven := (hvalue 110 [97]).trans (show _ = none by decide +kernel)
  exact ⟨_, hinst, herr, hten, heleven⟩

/-! ### A value of 4 GiB -/

section Large

variable {P : Platform}

lemma parseDict_regionOf_singleton {key blob : Bytes} (hk : key ≠ []) (hne : blob ≠ []) (hkey : key.length < 2 ^ 32)
    (hblob : blob.length < 2 ^ 32) :
    parseDict (regionOf ((∅ : Dict).insert key blob)) = .ok ((∅ : Dict).insert key blob) := by
  have hpair := replayOne_pair ∅ hk hkey hblob []
  rw [List.append_nil] at hpair
  rw [regionOf_singleton, itemSizeHolderBytes, parseDict_of_varint (readVarint64_varint32 itemSizeHolder _),
    replayAll_cons hpair, replayAll_nil, applyPair, if_neg hne]

lemma length_bytesBlob (b : Bytes) : b.length < (bytesBlob b).length ∧ (bytesBlob b).length ≤ b.length + 5 := by
  have hpos : 0 < (Leb128.encode 5 (UInt32.ofNat b.length).toNat).length := Leb128.length_encode_pos 4 _
  have hle := Leb128.length_encode_le 5 (UInt32.ofNat b.length).toNat
  rw [bytesBlob, writeData, List.length_append, writeRawVarint32]
  omega

lemma importFrom_fresh {cfg : Config} {sys : Sys} {src : MMKV} {dSrc : Disk} {key : Bytes} {v : Value}
    (hro : cfg.readOnly = false) (hopen : src.closed = false) (hprobe : src.checkLoadData dSrc sys = src)
    (hvalue : (src.view sys.now).value key = some v.blob)
    (herr : ((cfg.fresh P).exec P sys (freshDisk P) (.set key v)).err = none) :
    (cfg.fresh P).importFrom P sys (freshDisk P) (some (dSrc, src)) [key] =
      ⟨some src, (cfg.fresh P).exec P sys (freshDisk P) (.set key v), 1⟩ := by
  have hsynced := synced_fresh P hro
  rw [MMKV.exec, MMKV.mutate_of_synced hsynced] at herr ⊢
  rw [importFrom_eq hopen hsynced.closed hro, hprobe, MMKV.checkLoadData_of_synced hsynced]
  simp only [MMKV.liveEntries, List.filterMap_cons, hvalue, Option.map_some, List.filterMap_nil, MMKV.importAll, herr,
    List.append_nil]
  rw [← herr]

/-- A value of a little less than 4 GiB is read back in memory, and its region is beyond 32 bits. -/
lemma zeros_imported {n : ℕ} (hn : n + 6 = 2 ^ 32) {v : Value} (hv : v = .bytes (zeros n)) {src : Result}
    (hsrc : (defaults.fresh linux).exec linux calm (freshDisk linux) (.set [97] v) = src) :
    let r := (defaults.fresh linux).importFrom linux calm (freshDisk linux)
      (some ((freshDisk linux).apply src.writes, src.m)) [[97]]
    src.err = none ∧ src.m.content.valueAt 0 [97] = some v.blob ∧ r.dst.err = none ∧ r.n = 1 ∧
      r.dst.m.content.valueAt 0 [97] = some v.blob ∧
      ∀ m', (World.start linux defaults calm ((freshDisk linux).apply r.dst.writes)).inst = .ok m' →
        m'.content ≠ r.dst.m.content := by
  have hlen : n < v.blob.length ∧ v.blob.length ≤ n + 5 := by
    have hblob := length_bytesBlob (zeros n)
    rw [length_zeros] at hblob
    rw [hv]
    exact hblob
  have hparse : parseDict (regionOf ((∅ : Dict).insert [97] v.blob)) = .ok ((∅ : Dict).insert [97] v.blob) :=
    parseDict_regionOf_singleton (by simp) v.blob_ne_nil (by simp) (by omega)
  -- with its prefix, its key and the placeholder, the value is beyond 32 bits
  have hbig : 2 ^ 32 ≤ (regionOf ((∅ : Dict).insert [97] v.blob)).length := by
    have hpair := le_pairSize [97] v.blob
    rw [regionOf_singleton, List.length_append, length_itemSizeHolderBytes, length_pairBytes]
    rw [List.length_singleton] at hpair
    omega
  have hfirst := exec_first_set_parsed (P := linux) (show defaults.readOnly = false from rfl) calm_ok hparse
  rw [hsrc] at hfirst
  obtain ⟨herr, hdict, hexp, hload, hmulti, hopen⟩ := hfirst
  have hvalue : src.m.content.valueAt 0 [97] = some v.blob := by
    rw [← MMKV.view_value]
    simp [MMKV.view, View.value, hdict, hexp, slotValue]
  have hprobe : src.m.checkLoadData ((freshDisk linux).apply src.writes) calm = src.m := by
    rw [show defaults.multiProcess = false from rfl] at hmulti
    simp [MMKV.checkLoadData, hmulti, hload]
  have hr := importFrom_fresh (P := linux) (show defaults.readOnly = false from rfl) hopen hprobe
    ((MMKV.view_value ..).trans hvalue) (hsrc ▸ herr)
  rw [hsrc] at hr
  rw [hr]
  refine ⟨herr, hvalue, herr, rfl, hvalue, fun m' hm' hcontent => ?_⟩
  have hsame : m'.dict = (∅ : Dict).insert [97] v.blob := by
    rw [← hdict]
    exact OrdMap.lookup_inj (congrArg Content.slots hcontent)
  -- what files reopen to is counted in 32 bits
  have hlen' := length_region_reopened rfl rfl hm'
  rw [hsame] at hlen'
  omega

/-- **A destination beyond 4 GiB does not reopen to what it serves**: a value of `2 ^ 32 - 6` bytes is imported. -/
theorem four_gib_import_not_reopened :
    let v := Value.bytes (zeros (2 ^ 32 - 6))
    let src := (defaults.fresh linux).exec linux calm (freshDisk linux) (.set [97] v)
    let r := (defaults.fresh linux).importFrom linux calm (freshDisk linux)
      (some ((freshDisk linux).apply src.writes, src.m)) [[97]]
    src.err = none ∧ src.m.content.valueAt 0 [97] = some v.blob ∧ r.dst.err = none ∧ r.n = 1 ∧
      r.dst.m.content.valueAt 0 [97] = some v.blob ∧
      ∀ m', (World.start linux defaults calm ((freshDisk linux).apply r.dst.writes)).inst = .ok m' →
        m'.content ≠ r.dst.m.content :=
  zeros_imported (by norm_num) rfl rfl

end Large

end MmkvGo.Store
