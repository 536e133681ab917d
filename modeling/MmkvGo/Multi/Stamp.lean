import MmkvGo.Lib.Canary
import MmkvGo.Multi.Sections
import MmkvGo.Store.Reader

/-!
The three words of the meta by which a reader without a lock sees that the store changed, and what it sees of them while
a writer is in its section.

The words are loaded one by one, so a load may fall between any two stores of a writer.  Every operation stores the
meta once, after the data: two words of it, or the whole record from its start to its end (`Shaped`).  In both cases
the sequence number is there before the size of the region (`climbs_callBody`), provided that the copy of the record
stores it first (`Memory.SequenceFirst`), as a copy does that goes up its addresses (`wordwise_sequenceFirst`).
-/

namespace MmkvGo.Multi

open MmkvGo.Lib MmkvGo.Lib.Canary MmkvGo.Lib.Sections MmkvGo.Wire MmkvGo.Crypt MmkvGo.Store

/-- `buildSnapshot`: the mapped meta is parsed first, then the data file is read, in as many reads as it takes. -/
def buildBody (dec : Option Cipher) (dataReads : List ℕ) : Body Disk (Option Store.Snapshot) :=
  .load fun d =>
    match parseMeta d.crc with
    | .error _ => .ret none
    | .ok mi =>
      if maxSupportedVersion < mi.version then .ret none
      else (copyBody Disk.data [] dataReads).bind fun data => .ret (buildSnapshot dec ⟨data, d.crc⟩).toOption

/-- `metaTuple`, and where `reloadFrom` takes the words of a snapshot from. -/
def stamp (dec : Option Cipher) : Stamp Disk UInt32 Store.Snapshot (List ℕ) where
  crcAt d := getUint32 d.crc offCRC
  sizeAt d := getUint32 d.crc offActualSize
  eraAt d := getUint32 d.crc offSequence
  crcOf x := x.info.crcDigest
  sizeOf x := x.info.actualSize
  eraOf x := x.info.sequence
  build := buildBody dec

section Build

variable (dec : Option Cipher) (dataReads : List ℕ)

theorem exec_buildBody (d : Disk) : (buildBody dec dataReads).exec d = (d, (buildSnapshot dec d).toOption) := by
  rw [buildBody, Body.exec_load]
  cases hparse : parseMeta d.crc with
  | error e => simp [buildSnapshot, hparse, Except.toOption]
  | ok mi =>
    simp only
    split
    next hver => simp [buildSnapshot, hparse, hver, Except.toOption]
    next => rw [Body.exec_bind, exec_copyBody d Disk.data dataReads rfl, Body.exec_ret]

theorem readOnly_buildBody : (buildBody dec dataReads).ReadOnly := by
  intro d
  simp only
  split
  · trivial
  · split
    · trivial
    · exact (readOnly_copyBody _ _ _).bind fun _ => trivial

lemma words_of_parseMeta {d : Disk} {x : Store.Snapshot} (h : parseMeta d.crc = .ok x.info) :
    (stamp dec).sizeAt d = (stamp dec).sizeOf x ∧ (stamp dec).eraAt d = (stamp dec).eraOf x := by
  rw [parseMeta_ok (le_length_of_parseMeta h), Except.ok.injEq] at h
  simp only [stamp, ← h, and_self]

end Build

/-! ### What the operations store -/

/-- Stores that leave the meta file alone. -/
def DataOnly (ws : List Write) : Prop := ∀ w ∈ ws, (∃ off b, w = .data off b) ∨ ∃ n, w = .resize n

lemma dataOnly_nil : DataOnly [] := nofun

lemma DataOnly.append {ws vs : List Write} (hws : DataOnly ws) (hvs : DataOnly vs) : DataOnly (ws ++ vs) :=
  fun w hw => (List.mem_append.1 hw).elim (hws w) (hvs w)

lemma dataOnly_dataWrites (off : ℕ) (bs : Bytes) : DataOnly (dataWrites off bs) := by
  induction bs generalizing off with
  | nil => nofun
  | cons b bs ih =>
    intro w hw
    rcases List.mem_cons.1 hw with rfl | hw
    · exact .inl ⟨off, b, rfl⟩
    · exact ih _ w hw

lemma dataOnly_truncate (P : Platform) (fails : Option Syscall) (mf : MemoryFile) (n : ℕ) :
    DataOnly (mf.truncate P fails n).1 := by
  have hwrites : (mf.truncate P fails n).1 = [] ∨ (mf.truncate P fails n).1 = [.resize (pageRoundUp P n)] := by
    unfold MemoryFile.truncate
    simp only
    split
    · exact .inl rfl
    · split
      · exact .inl rfl
      · split <;> exact .inr rfl
      · exact .inr rfl
      · exact .inr rfl
  rcases hwrites with h | h <;> rw [h]
  · exact dataOnly_nil
  · exact fun w hw => .inr ⟨_, List.mem_singleton.1 hw⟩

lemma crc_apply_dataOnly {ws : List Write} (h : DataOnly ws) (d : Disk) : (d.apply ws).crc = d.crc := by
  induction ws generalizing d with
  | nil => rfl
  | cons w ws ih =>
    rw [Disk.apply_cons, ih fun v hv => h v (List.mem_cons_of_mem _ hv)]
    rcases h w List.mem_cons_self with ⟨off, b, rfl⟩ | ⟨n, rfl⟩ <;> rfl

/-- What is stored of the meta: nothing, two words of it, or all of it. -/
def MetaStores (ws : List Write) : Prop :=
  ws = [] ∨ (∃ crc size, ws = MMKV.metaWords crc size) ∨ ∃ mi : MetaInfo, ws = crcWrites 0 mi.marshal

/-- **What every operation stores**: the data, then the meta, and after it at most a new size of the data file. -/
def Shaped (ws : List Write) : Prop :=
  ∃ pre part post, ws = pre ++ part ++ post ∧ DataOnly pre ∧ MetaStores part ∧ DataOnly post

section Shaped

variable {P : Platform} {sys : Sys} {d : Disk} {m : MMKV}

lemma shaped_nil : Shaped [] := ⟨[], [], [], rfl, dataOnly_nil, .inl rfl, dataOnly_nil⟩

lemma DataOnly.shaped {ws : List Write} (h : DataOnly ws) : Shaped ws :=
  ⟨ws, [], [], by simp, h, .inl rfl, dataOnly_nil⟩

lemma shaped_words {ws : List Write} (h : DataOnly ws) (crc size : UInt32) : Shaped (ws ++ MMKV.metaWords crc size) :=
  ⟨ws, _, [], by simp, h, .inr (.inl ⟨crc, size, rfl⟩), dataOnly_nil⟩

lemma shaped_record {ws : List Write} (h : DataOnly ws) (mi : MetaInfo) : Shaped (ws ++ crcWrites 0 mi.marshal) :=
  ⟨ws, _, [], by simp, h, .inr (.inr ⟨mi, rfl⟩), dataOnly_nil⟩

lemma Shaped.append {ws vs : List Write} (h : Shaped ws) (hvs : DataOnly vs) : Shaped (ws ++ vs) := by
  obtain ⟨pre, part, post, rfl, hpre, hpart, hpost⟩ := h
  exact ⟨pre, part, post ++ vs, by simp, hpre, hpart, hpost.append hvs⟩

lemma shaped_fullWritebackGrow (needSync : Bool) (incoming : ℕ) :
    Shaped (m.fullWritebackGrow P sys d needSync incoming).writes := by
  rw [MMKV.fullWritebackGrow]
  split
  · exact shaped_nil
  next payload iv _ =>
  have hgrow : DataOnly (({ m with info := { m.info with iv := iv } } : MMKV).grow P sys (4 + payload.length + incoming)
      needSync incoming).1 := by
    rw [MMKV.grow]
    split
    · exact dataOnly_nil
    · exact dataOnly_truncate _ _ _ _
  simp only
  split
  · exact hgrow.shaped
  · split
    · exact shaped_record ((hgrow.append (dataOnly_dataWrites _ _)).append (dataOnly_dataWrites _ _)) _
    · split <;> exact shaped_record ((hgrow.append (dataOnly_dataWrites _ _)).append (dataOnly_dataWrites _ _)) _

lemma shaped_setBlob (key blob : Bytes) : Shaped (m.setBlob P sys d key blob).writes := by
  rw [MMKV.setBlob]
  split
  · exact shaped_words ((dataOnly_dataWrites _ _).append (dataOnly_dataWrites _ _)) _ _
  · split
    · exact shaped_words (dataOnly_dataWrites _ _) _ _
    · exact shaped_fullWritebackGrow ..

lemma shaped_setValueLocked (key blob : Bytes) : Shaped (m.setValueLocked P sys d key blob).writes := by
  rw [MMKV.setValueLocked]
  split
  · exact shaped_nil
  · exact shaped_setBlob _ _

lemma shaped_removeValuesForKeys (keys : List Bytes) : Shaped (m.removeValuesForKeys P sys d keys).writes := by
  rw [MMKV.removeValuesForKeys]
  split
  · exact shaped_nil
  · exact shaped_fullWritebackGrow _ _

lemma shaped_disableAutoKeyExpire : Shaped (m.disableAutoKeyExpire P sys d).writes := by
  rw [MMKV.disableAutoKeyExpire]
  split
  · exact shaped_nil
  · exact shaped_fullWritebackGrow _ _

lemma shaped_clearAllLocked : Shaped (m.clearAllLocked P sys).writes := by
  rw [MMKV.clearAllLocked]
  split
  next hdata =>
  have hresized := dataOnly_truncate P sys.grow m.data 0
  rw [hdata] at hresized
  split
  · exact hresized.shaped
  · exact shaped_record (hresized.append (dataOnly_dataWrites _ _)) _

lemma dataOnly_shrink : DataOnly (m.shrink P sys d).writes := by
  rw [MMKV.shrink]
  split
  · exact dataOnly_nil
  · have hshrunk := dataOnly_truncate P sys.shrink m.data (trimTarget P m.data.size m.actualSize)
    simp only
    split
    · exact hshrunk
    · split <;> exact hshrunk

lemma shaped_trim : Shaped (m.trim P sys d).writes := by
  rw [MMKV.trim]
  split
  · exact shaped_clearAllLocked
  · simp only
    split
    · exact shaped_fullWritebackGrow ..
    · exact (shaped_fullWritebackGrow ..).append dataOnly_shrink

lemma shaped_removeValueForKey (key : Bytes) : Shaped (m.removeValueForKey P sys d key).writes := by
  rw [MMKV.removeValueForKey]
  split
  · exact shaped_nil
  · simp only
    split
    · exact shaped_words (dataOnly_dataWrites _ _) _ _
    · exact shaped_fullWritebackGrow ..

lemma shaped_reKey (newKey : Bytes) : Shaped (m.reKey P sys d newKey).writes := by
  rw [MMKV.reKey]
  simp only
  split <;> exact shaped_fullWritebackGrow ..

lemma shaped_mutate {body : MMKV → Result} (hbody : ∀ m, Shaped (body m).writes) : Shaped (m.mutate sys d body).writes := by
  rw [MMKV.mutate]
  split
  · exact shaped_nil
  · split
    · exact shaped_nil
    · exact hbody _

/-- **What a call stores**, whichever it is. -/
theorem shaped_exec (op : Op) : Shaped (m.exec P sys d op).writes := by
  cases op with
  | set key v => exact shaped_mutate fun _ => shaped_setValueLocked _ _
  | removeValueForKey key => exact shaped_mutate fun _ => shaped_removeValueForKey key
  | removeValuesForKeys keys => exact shaped_mutate fun _ => shaped_removeValuesForKeys keys
  | clearAll => exact shaped_mutate fun _ => shaped_clearAllLocked
  | trim => exact shaped_mutate fun _ => shaped_trim
  | enableAutoKeyExpire seconds => exact shaped_mutate fun _ => shaped_fullWritebackGrow _ _
  | disableAutoKeyExpire => exact shaped_mutate fun _ => shaped_disableAutoKeyExpire
  | reKey newKey => exact shaped_mutate fun _ => shaped_reKey newKey
  | sync =>
    rw [MMKV.exec, MMKV.syncFlush]
    split
    · exact shaped_nil
    · split <;> exact shaped_nil
  | clearMemoryCache | enableCompareBeforeSet | disableCompareBeforeSet => exact shaped_nil

end Shaped

/-! ### What a load sees between two stores -/

/-- The files after the first `k` groups. -/
def moment (gs : List (List Write)) (d : Disk) (k : ℕ) : Disk := (gs.take k).foldl Disk.apply d

/-- What a reader without a lock relies on: while the stores of a call are made, the sequence number of the meta turns
from the old one to the new one at one moment, the size at one moment, and the size does not turn first. -/
def Memory.SequenceFirst (μ : Memory) : Prop :=
  ∀ ws d, Shaped ws → metaSize ≤ d.crc.length → ∃ s z, s ≤ z ∧ ∀ k,
    getUint32 (moment (μ.groups ws) d k).crc offSequence = getUint32 (if k < s then d else d.apply ws).crc offSequence ∧
    getUint32 (moment (μ.groups ws) d k).crc offActualSize = getUint32 (if k < z then d else d.apply ws).crc offActualSize

section Climbs

variable {dec : Option Cipher} {x y : Store.Snapshot} {α : Type} {a : α} {μ : Memory}

lemma climbs_groups {gs : List (List Write)} {d : Disk} {stage : ℕ → ℕ} (hmono : Monotone stage)
    (hshows : ∀ k, (stamp dec).Shows x y (stage k) (moment gs d k)) :
    (stamp dec).Climbs x y (stage 0) (.stores (gs.map fun g d => d.apply g) (.ret a)) d := by
  induction gs generalizing d stage with
  | nil => exact .ret (hshows 0)
  | cons g gs ih =>
    have hmono' : Monotone fun k => stage (k + 1) := fun _ _ h => hmono (Nat.succ_le_succ h)
    exact .store (hshows 0) (hmono (Nat.zero_le 1)) (ih hmono' fun k => hshows (k + 1))

/-- **The words while the stores of an operation are made**: the sequence number changes before the size does. -/
theorem climbs_shaped (hμ : μ.SequenceFirst) {ws : List Write} (h : Shaped ws) {d : Disk}
    (hx : parseMeta d.crc = .ok x.info) (hy : parseMeta (d.apply ws).crc = .ok y.info) :
    (stamp dec).Climbs x y 0 (.stores (storeSteps μ ws) (.ret a)) d := by
  obtain ⟨s, z, hsz, hturn⟩ := hμ ws d h (le_length_of_parseMeta hx)
  obtain ⟨hxsize, hxera⟩ := words_of_parseMeta dec hx
  obtain ⟨hysize, hyera⟩ := words_of_parseMeta dec hy
  -- at first the words are the old ones, whenever they turn
  let stage : ℕ → ℕ := fun k => if k = 0 ∨ k < s then 0 else if k < z then 1 else 2
  have hmono : Monotone stage := by
    intro k k' hk
    simp only [stage]
    split_ifs <;> omega
  have hshows : ∀ k, (stamp dec).Shows x y (stage k) (moment (μ.groups ws) d k) := by
    intro k
    obtain ⟨hera, hsize⟩ := hturn k
    simp only [stage]
    by_cases hs : k = 0 ∨ k < s
    · rw [if_pos hs]
      rcases hs with rfl | hs
      · exact ⟨hxsize, hxera⟩
      · rw [if_pos hs] at hera
        rw [if_pos (by omega)] at hsize
        exact ⟨hsize.trans hxsize, hera.trans hxera⟩
    · rw [if_neg hs]
      rw [if_neg (by omega)] at hera
      by_cases hz : k < z
      · rw [if_pos hz] at hsize ⊢
        exact ⟨hsize.trans hxsize, hera.trans hyera⟩
      · rw [if_neg hz] at hsize ⊢
        exact ⟨hsize.trans hysize, hera.trans hyera⟩
  exact climbs_groups hmono hshows

end Climbs

/-! ### A copy that goes up its addresses -/

/-- A group leaves the word at `off` of the meta as it is. -/
def Spares (off : ℕ) (g : List Write) : Prop := ∀ d : Disk, getUint32 (d.apply g).crc off = getUint32 d.crc off

/-- The word at `off` changes with the group number `n`, counted from 1, and with no other. -/
inductive Turns (off : ℕ) : List (List Write) → ℕ → Prop where
  | nil (n : ℕ) : Turns off [] n
  | cons {g : List Write} {gs : List (List Write)} {n : ℕ} (hg : n ≠ 1 → Spares off g) (hgs : Turns off gs (n - 1)) :
      Turns off (g :: gs) n

section Turns

variable {off n : ℕ} {gs hs : List (List Write)}

lemma Turns.moment (h : Turns off gs n) (d : Disk) (k : ℕ) :
    getUint32 (moment gs d k).crc off = getUint32 (if k < n then d else gs.foldl Disk.apply d).crc off := by
  induction h generalizing d k with
  | nil n =>
    rw [Multi.moment, List.take_nil]
    split <;> rfl
  | @cons g gs n hg hgs ih =>
    cases k with
    | zero =>
      by_cases hn : 0 < n
      · rw [if_pos hn]
        rfl
      · have hrest := ih (d.apply g) 0
        rw [if_neg (by omega)] at hrest
        rw [if_neg hn]
        exact (hg (by omega) d).symm.trans hrest
    | succ k =>
      refine (ih (d.apply g) k).trans ?_
      by_cases hn : k + 1 < n
      · rw [if_pos hn, if_pos (by omega)]
        exact hg (by omega) d
      · rw [if_neg hn, if_neg (by omega)]
        rfl

lemma turns_of_spares (h : ∀ g ∈ gs, Spares off g) (n : ℕ) : Turns off gs n := by
  induction gs generalizing n with
  | nil => exact .nil n
  | cons g gs ih => exact .cons (fun _ => h g List.mem_cons_self) (ih (fun v hv => h v (List.mem_cons_of_mem _ hv)) _)

lemma Turns.after (h : Turns off hs (n + 1)) (hgs : ∀ g ∈ gs, Spares off g) :
    Turns off (gs ++ hs) (gs.length + n + 1) := by
  induction gs with
  | nil => rwa [List.length_nil, Nat.zero_add]
  | cons g gs ih =>
    refine .cons (fun _ => hgs g List.mem_cons_self) ?_
    rw [List.length_cons, show gs.length + 1 + n + 1 - 1 = gs.length + n + 1 by omega]
    exact ih fun v hv => hgs v (List.mem_cons_of_mem _ hv)

end Turns

section Wordwise

lemma storeUnits_data {pre : List Write} (h : DataOnly pre) (ws : List Write) :
    storeUnits (pre ++ ws) = pre.map (fun w => [w]) ++ storeUnits ws := by
  induction pre with
  | nil => rfl
  | cons w pre ih =>
    have hpre := ih fun v hv => h v (List.mem_cons_of_mem _ hv)
    rcases h w List.mem_cons_self with ⟨off, b, rfl⟩ | ⟨n, rfl⟩ <;>
      rw [List.cons_append, storeUnits, hpre, List.map_cons, List.cons_append] <;> nofun

lemma spares_data {ws : List Write} (h : DataOnly ws) (off : ℕ) : ∀ g ∈ ws.map fun w => [w], Spares off g := by
  intro g hg d
  obtain ⟨w, hw, rfl⟩ := List.mem_map.1 hg
  rcases h w hw with ⟨o, b, rfl⟩ | ⟨n, rfl⟩ <;> rfl

lemma turns_data {ws : List Write} (h : DataOnly ws) (off n : ℕ) : Turns off (storeUnits ws) n := by
  have hunits := storeUnits_data h []
  rw [List.append_nil] at hunits
  rw [hunits, storeUnits, List.append_nil]
  exact turns_of_spares (spares_data h off) n

/-- **The copy of the record, word by word**: of the words to come, the one at `off` has its turn. -/
lemma turns_record {post : List Write} (hpost : DataOnly post) {off : ℕ} (hoff : off % 4 = 0) (n o : ℕ) (bs : Bytes)
    (hn : bs.length = 4 * n) (ho : o % 4 = 0) :
    Turns off (storeUnits (crcWrites o bs ++ post)) (if o ≤ off then (off - o) / 4 + 1 else 0) := by
  induction n generalizing bs o with
  | zero =>
    rw [List.length_eq_zero_iff.1 (hn.trans (Nat.mul_zero 4))]
    exact turns_data hpost off _
  | succ n ih =>
    obtain ⟨b₀, b₁, b₂, b₃, bs, rfl⟩ : ∃ b₀ b₁ b₂ b₃ bs', bs = b₀ :: b₁ :: b₂ :: b₃ :: bs' := by
      rcases bs with _ | ⟨b₀, _ | ⟨b₁, _ | ⟨b₂, _ | ⟨b₃, bs⟩⟩⟩⟩
      all_goals first
        | exact ⟨b₀, b₁, b₂, b₃, bs, rfl⟩
        | (simp only [List.length_cons, List.length_nil] at hn; omega)
    have hunits : storeUnits (crcWrites o (b₀ :: b₁ :: b₂ :: b₃ :: bs) ++ post) =
        crcWrites o [b₀, b₁, b₂, b₃] :: storeUnits (crcWrites (o + 4) bs ++ post) := by
      simp [crcWrites, storeUnits, ho]
    simp only [List.length_cons] at hn
    rw [hunits]
    refine .cons (fun hturn d => ?_) ?_
    · -- the group is that of another word
      rw [Disk.apply_crcWrites]
      rcases Nat.lt_trichotomy o off with hlt | rfl | hgt
      · exact getUint32_patch_of_ge _ (by simp only [List.length_cons, List.length_nil]; omega)
      · simp at hturn
      · exact getUint32_patch_of_le _ (by omega)
    · have hnext := ih (o + 4) bs (by omega) (by omega)
      have hcount : (if o ≤ off then (off - o) / 4 + 1 else 0) - 1 =
          if o + 4 ≤ off then (off - (o + 4)) / 4 + 1 else 0 := by
        split_ifs <;> omega
      rwa [hcount]

lemma spares_word {o off : ℕ} (v : UInt32) (h : off + 4 ≤ o ∨ o + 4 ≤ off) : Spares off [.word o v] :=
  fun _ => getUint32_putUint32_of_ne _ h

lemma storeUnits_words (crc size : UInt32) (post : List Write) :
    storeUnits (MMKV.metaWords crc size ++ post) =
      [.word offCRC crc] :: [.word offActualSize size] :: storeUnits post := by
  simp [MMKV.metaWords, storeUnits]

lemma turns_shaped {ws : List Write} (h : Shaped ws) :
    ∃ s z, s ≤ z ∧ Turns offSequence (storeUnits ws) s ∧ Turns offActualSize (storeUnits ws) z := by
  obtain ⟨pre, part, post, rfl, hpre, hpart, hpost⟩ := h
  have hspares := spares_data hpre
  rw [List.append_assoc, storeUnits_data hpre]
  rcases hpart with hpart | ⟨crc, size, hpart⟩ | ⟨mi, hpart⟩ <;> rw [hpart]
  · have hall : ∀ off, Turns off (pre.map (fun w => [w]) ++ storeUnits ([] ++ post)) 0 := by
      intro off
      rw [← storeUnits_data hpre]
      exact turns_data (hpre.append hpost) off 0
    exact ⟨0, 0, Nat.le_refl 0, hall _, hall _⟩
  · rw [storeUnits_words]
    have hsize : Turns offActualSize ([.word offCRC crc] :: [.word offActualSize size] :: storeUnits post) (1 + 1) :=
      .cons (fun _ => spares_word crc (by decide)) (.cons (fun h => absurd rfl h) (turns_data hpost _ _))
    have hera : Turns offSequence ([.word offCRC crc] :: [.word offActualSize size] :: storeUnits post) (0 + 1) :=
      .cons (fun h => absurd rfl h) (.cons (fun _ => spares_word size (by decide)) (turns_data hpost _ _))
    exact ⟨_, _, Nat.succ_le_succ (Nat.add_le_add_left (Nat.zero_le 1) _), hera.after (hspares _), hsize.after (hspares _)⟩
  · have hlen : mi.marshal.length = 4 * 28 := length_marshal mi
    have hera := turns_record hpost (show offSequence % 4 = 0 from rfl) 28 0 mi.marshal hlen rfl
    have hsize := turns_record hpost (show offActualSize % 4 = 0 from rfl) 28 0 mi.marshal hlen rfl
    rw [if_pos (Nat.zero_le _)] at hera hsize
    refine ⟨_, _, ?_, hera.after (hspares _), hsize.after (hspares _)⟩
    exact Nat.succ_le_succ (Nat.add_le_add_left (by decide) _)

/-- **A copy that goes up its addresses stores the sequence number first.** -/
theorem wordwise_sequenceFirst : wordwise.SequenceFirst := by
  intro ws d h _
  obtain ⟨s, z, hsz, hs, hz⟩ := turns_shaped h
  refine ⟨s, z, hsz, fun k => ?_⟩
  rw [← wordwise.complete ws d]
  exact ⟨hs.moment d k, hz.moment d k⟩

end Wordwise

/-! ### The sections -/

section Sections

variable {dec : Option Cipher} {μ : Memory} {P : Platform} {sys : Sys} {d : Disk} {m : MMKV} {x y : Store.Snapshot}

lemma climbs_mutateBody (hμ : μ.SequenceFirst) {body : Disk → MMKV → Result} (hshaped : Shaped (m.mutate sys d (body d)).writes)
    (hx : parseMeta d.crc = .ok x.info) (hy : parseMeta (d.apply (m.mutate sys d (body d)).writes).crc = .ok y.info) :
    (stamp dec).Climbs x y 0 (mutateBody μ sys m body) d := by
  have hshows : (stamp dec).Shows x y 0 d := words_of_parseMeta dec hx
  rw [MMKV.mutate] at hshaped hy
  rw [mutateBody]
  by_cases hclosed : m.closed = true
  · rw [if_pos hclosed]
    exact .ret hshows
  rw [if_neg hclosed] at hshaped hy ⊢
  by_cases hro : m.readOnly = true
  · rw [if_pos hro]
    exact .ret hshows
  rw [if_neg hro] at hshaped hy ⊢
  refine climbs_bind (readOnly_checkBody sys m) hshows (.load hshows ?_)
  rw [exec_checkBody]
  exact climbs_shaped hμ hshaped hx hy

/-- **A call in its section**: at every moment the words are those before it, the new sequence number with the old size,
or those after it. -/
theorem climbs_callBody (hμ : μ.SequenceFirst) {op : Op} (hx : parseMeta d.crc = .ok x.info)
    (hy : parseMeta (d.apply (m.exec P sys d op).writes).crc = .ok y.info) :
    (stamp dec).Climbs x y 0 (callBody μ P sys m op) d := by
  have hshows : (stamp dec).Shows x y 0 d := words_of_parseMeta dec hx
  have hshaped : Shaped (m.exec P sys d op).writes := shaped_exec op
  cases op with
  | sync | clearMemoryCache | enableCompareBeforeSet | disableCompareBeforeSet => exact .ret hshows
  | _ => exact climbs_mutateBody hμ hshaped hx hy

end Sections

end MmkvGo.Multi
