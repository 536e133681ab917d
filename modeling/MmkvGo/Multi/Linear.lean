import MmkvGo.Multi.Cluster
import MmkvGo.Store.EmptyKey

/-!
The instances of a plaintext store are linearizable: whatever the order of their calls, each of them acts on, and answers
from, the map that the calls before it made.  Nothing is asked of the CRC but that it is a function of the bytes.
The empty key is excluded: the files it leaves cannot be loaded, so the other instances keep the map they had.
-/

namespace MmkvGo.Multi

open MmkvGo.Lib MmkvGo.Wire MmkvGo.Crypt MmkvGo.Store Std

section Linear

variable {ι : Type} [DecidableEq ι] {P : Platform}

/-- The condition on the steps of a plaintext store: calls on open instances, those that access the store on instances
that are open for writing, with keys that are not empty, no failing system call, a region of less than 4 GiB, and fewer
than 2^32 write-backs between two accesses of an instance; an open for reading only finds files of their least sizes. -/
def Move.Plain (P : Platform) (w : Cluster ι) (a : Move ι) : Prop :=
  (∀ j m, (w.step P a).inst j = some m → (w.step P a).behind j < 2 ^ 32) ∧
  match a with
  | .start i cfg _ => w.inst i = none ∧ cfg.multiProcess = true ∧ cfg.cryptKey = [] ∧
      (cfg.readOnly = true → P.pageSize ≤ w.disk.data.length ∧ metaSize ≤ w.disk.crc.length)
  | .close _ => True
  | .call i op sys => sys.OK ∧ (∀ v, op ≠ .set [] v) ∧ (∀ newKey, op ≠ .reKey newKey) ∧
      ∃ m, w.inst i = some m ∧
        (accesses op = true → m.readOnly = false ∧
          4 + (op.regionAfter sys w.disk (m.checkLoadData w.disk sys)).length < 2 ^ 32)
  | .read i sys => sys.remap = none ∧ ∃ m, w.inst i = some m
  | .backup | .restore _ => False

/-- The files hold the one map, every instance follows them, and none is so far behind that the sequence number has come
round. -/
def Linear (P : Platform) (w : Cluster ι) (s : Board ι) : Prop :=
  (∃ mi dict, Served P none w s mi dict) ∧ w.restored = false ∧ ∀ j m, w.inst j = some m → w.behind j < 2 ^ 32

omit [DecidableEq ι] in
lemma tells_of_behind {w : Cluster ι} {s : Board ι} {crypt : Option Cipher} {mi : MetaInfo} {dict : Dict}
    (h : Served P crypt w s mi dict) (hr : w.restored = false) {i : ι}
    (hi : ∀ m, w.inst i = some m → w.behind i < 2 ^ 32) : w.Tells i := by
  intro m mi' hm hparse
  have hfollows := h.follows i m hm
  rw [hr] at hfollows
  obtain rfl := Except.ok.inj ((h.holds i m hm).1.parse.symm.trans hparse)
  exact hfollows.tells (hi m hm)

lemma Move.Plain.ok {w : Cluster ι} {s : Board ι} {mi : MetaInfo} {dict : Dict} {a : Move ι}
    (h : Served P none w s mi dict) (hr : w.restored = false)
    (hbehind : ∀ j m, w.inst j = some m → w.behind j < 2 ^ 32)
    (hplain : a.Plain P w) : a.OK P none w := by
  obtain ⟨-, hplain⟩ := hplain
  cases a with
  | start i cfg sys =>
    obtain ⟨hnone, hmulti, hkey, hro⟩ := hplain
    exact ⟨hnone, hmulti, by rw [Config.crypt, if_pos hkey], hro⟩
  | close i => trivial
  | read i sys => exact ⟨hplain.1, tells_of_behind h hr (hbehind i), hplain.2⟩
  | backup | restore i => cases hplain
  | call i op sys =>
    obtain ⟨hsys, hset, hkey, m, hm, hlt⟩ := hplain
    have htells := tells_of_behind h hr (hbehind i)
    have hcrypt := (h.upToDate hm htells hsys.remap).crypt
    exact ⟨hsys, hkey, fun _ => htells, m, hm, Op.good_of_plaintext hset hcrypt, hlt⟩

lemma restored_step {w : Cluster ι} {a : Move ι} (hplain : a.Plain P w) : (w.step P a).restored = w.restored := by
  cases a with
  | backup | restore i => cases hplain.2
  | close i => rfl
  | start i cfg sys | call i op sys | read i sys =>
    simp only [Cluster.step]
    split <;> rfl

/-- **One step of a plaintext store.** -/
theorem step_linear {w : Cluster ι} {s : Board ι} {a : Move ι} (h : Linear P w s) (hplain : a.Plain P w) :
    Linear P (w.step P a) (s.step a) := by
  obtain ⟨⟨mi, dict, hserved⟩, hr, hbehind⟩ := h
  exact ⟨step_served hserved (hplain.ok hserved hr hbehind), (restored_step hplain).trans hr, hplain.1⟩

/-- **Multi-process instances are linearizable.**  After any interleaving of their steps, the next access of any of them
works on the map of all the steps so far, and every getter answers from it. -/
theorem multiProcess_linearizable {d : Disk} {mi : MetaInfo} {dict : Dict} {acts : List (Move ι)}
    (hstored : Stored none d mi dict) (hacts : Along (Move.Plain P) (Cluster.step P) (Cluster.init d) acts) :
    let w := run (Cluster.step P) (Cluster.init d) acts
    let board := run Board.step (Board.init ⟨OrdMap.lookup dict, mi.expireEnabled⟩) acts
    ∃ dict', OrdMap.lookup dict' = board.content.slots ∧ ∀ i m sys, w.inst i = some m → sys.remap = none →
      (m.checkLoadData w.disk sys).content = board.content ∧
      (m.checkLoadData w.disk sys).expiredSeconds = board.seconds i ∧
      ∀ (α : Type) (getter : View → α) (zero : α),
        (m.get sys w.disk getter zero).2 = getter ⟨dict', board.content.expire, sys.now⟩ := by
  have hinit : Linear P (Cluster.init d : Cluster ι) (Board.init ⟨OrdMap.lookup dict, mi.expireEnabled⟩) :=
    ⟨⟨mi, dict, served_init hstored⟩, rfl, fun _ _ _ => by simp [Cluster.init]⟩
  obtain ⟨⟨mi', dict', h⟩, hr, hbehind⟩ := hacts.simulation (fun _ _ _ => step_linear) hinit
  intro w board
  refine ⟨dict', by rw [h.content], fun i m sys hm hsys => ?_⟩
  exact h.serves hm (tells_of_behind h hr (hbehind i)) hsys

end Linear

/-! ### Two processes -/

/-- The options of a multi-process instance. -/
def shared : Config := ⟨true, false, false, []⟩

/-- The two processes after both opened an absent store. -/
def bothOpen : Cluster Bool := ⟨freshDisk linux, fun _ => some (shared.fresh linux), fun _ => 0, none, false⟩

lemma open_both (d : Disk) (hd : World.start linux shared calm d = ⟨freshDisk linux, .ok (shared.fresh linux)⟩)
    (hseq : sequenceOf d = 0) :
    ((Cluster.init d).step linux (.start true shared calm)).step linux (.start false shared calm) = bothOpen := by
  have hfresh : sequenceOf (freshDisk linux) = 0 := sequenceOf_image (image_freshDisk linux none)
  have hfirst : (Cluster.init d : Cluster Bool).step linux (.start true shared calm) =
      (Cluster.init d).put true (freshDisk linux) (some (shared.fresh linux)) true :=
    Cluster.step_start_eq _ rfl hd
  rw [hfirst, Cluster.step_start_eq _ (by simp [Cluster.put, Cluster.init]) (start_fresh rfl)]
  simp only [Cluster.put, Cluster.init, hfresh, hseq, bothOpen, Cluster.mk.injEq, true_and, and_true]
  constructor <;> funext j <;> cases j <;> simp

/-- Two processes open an absent store, and the first one sets a key. -/
def openBothAndSet : List (Move Bool) :=
  [.start true shared calm, .start false shared calm, .call true (.set [97] (.bool true)) calm]

lemma opened_twice :
    ((Cluster.init ⟨[], []⟩).step linux (.start true shared calm)).step linux (.start false shared calm) = bothOpen :=
  open_both _ (start_absent rfl) rfl

/-- The two processes after the set. -/
def afterSet : Cluster Bool :=
  bothOpen.put true (shared.firstDisk linux calm [97] (.bool true))
    (some (shared.afterFirst linux calm [97] (.bool true))) true

lemma set_bothOpen :
    bothOpen.step linux (.call true (.set [97] (.bool true)) calm) = afterSet ∧
      Synced (shared.firstDisk linux calm [97] (.bool true)) (shared.afterFirst linux calm [97] (.bool true)) := by
  obtain ⟨hset, hdisk, hsynced⟩ := first_set (P := linux) (show shared.readOnly = false from rfl) calm_ok [97]
    (.bool true) (by simp) (by decide)
  have hdisk' : bothOpen.disk.apply ((shared.fresh linux).exec linux calm bothOpen.disk
      (.set [97] (.bool true))).writes = shared.firstDisk linux calm [97] (.bool true) := hdisk
  have hset' : ((shared.fresh linux).exec linux calm bothOpen.disk (.set [97] (.bool true))).m =
      shared.afterFirst linux calm [97] (.bool true) := congrArg Result.m hset
  refine ⟨?_, hsynced⟩
  rw [Cluster.step_call_eq linux (show bothOpen.inst true = some (shared.fresh linux) from rfl), hdisk', hset']
  rfl

lemma set_fresh_bounded {d : Disk} (hd : d = freshDisk linux) : 4 + ((Op.set [97] (.bool true)).regionAfter calm d
    ((shared.fresh linux).checkLoadData d calm)).length < 2 ^ 32 := by
  rw [hd, MMKV.checkLoadData_of_synced (synced_fresh linux rfl), regionAfter_first_set]
  decide

lemma run_openBothAndSet : run (Cluster.step linux) (Cluster.init ⟨[], []⟩) openBothAndSet = afterSet := by
  rw [openBothAndSet, run_cons, run_cons, opened_twice, run_cons, run_nil, set_bothOpen.1]

lemma openBothAndSet_plain :
    Along (Move.Plain linux) (Cluster.step linux) (Cluster.init ⟨[], []⟩) openBothAndSet := by
  have hone : ∀ (w : Cluster Bool) a j k, w.behind j ≤ k → (w.step linux a).behind j ≤ k + 1 :=
    fun w a j k h => Nat.le_trans (behind_step_le linux w a j) (Nat.add_le_add_right h 1)
  have h₀ : ∀ j, (Cluster.init ⟨[], []⟩ : Cluster Bool).behind j ≤ 0 := fun _ => le_rfl
  have h₁ := fun j => hone _ (.start true shared calm) j 0 (h₀ j)
  have h₂ := fun j => hone _ (.start false shared calm) j 1 (h₁ j)
  have h₃ := fun j => hone _ (.call true (.set [97] (.bool true)) calm) j 2 (h₂ j)
  refine ⟨⟨fun j _ _ => Nat.lt_of_le_of_lt (h₁ j) (by decide), rfl, rfl, rfl, by simp [shared]⟩,
    ⟨fun j _ _ => Nat.lt_of_le_of_lt (h₂ j) (by decide), ?_, rfl, rfl, by simp [shared]⟩,
    ⟨fun j _ _ => Nat.lt_of_le_of_lt (h₃ j) (by decide), calm_ok, by simp, by simp, ?_⟩, trivial⟩
  · rw [Cluster.step_start_eq _ rfl (start_absent rfl)]
    simp [Cluster.put, Cluster.init]
  · rw [opened_twice]
    exact ⟨_, rfl, fun _ => ⟨rfl, set_fresh_bounded rfl⟩⟩

theorem openBothAndSet_served :
    let w := run (Cluster.step linux) (Cluster.init ⟨[], []⟩) openBothAndSet
    ∃ m, w.inst false = some m ∧ (m.get calm w.disk (fun v => v.getBool [97]) none).2 = some true := by
  obtain ⟨dict, hdict, hserved⟩ := multiProcess_linearizable (.inr ⟨blank_absent, rfl, rfl⟩) openBothAndSet_plain
  rw [run_openBothAndSet] at hserved ⊢
  obtain ⟨-, -, hget⟩ := hserved false (shared.fresh linux) calm rfl rfl
  refine ⟨_, rfl, (hget _ _ _).trans ?_⟩
  have hslot : dict[([97] : Bytes)]? = some [1] := congrFun hdict [97]
  exact Value.readAs_of_value (v := .bool true) (by decide) (by simp only [View.value, hslot]; rfl)

lemma get_contains_of_empty {m : MMKV} {d : Disk} {sys : Sys} {key : Bytes} (hclosed : m.closed = false)
    (h : (m.checkLoadData d sys).dict = ∅) : (m.get sys d (fun v => v.contains key) true).2 = false := by
  simp [MMKV.get, hclosed, View.contains, View.value, MMKV.view, h]

/-- The first process sets the empty key as well. -/
def thenSetEmptyKey : List (Move Bool) := openBothAndSet ++ [.call true (.set [] (.bool true)) calm]

/-- The files cannot be loaded, so the second process keeps the empty map it opened, without the key that was set
before. -/
theorem empty_key_hides_updates :
    let w := run (Cluster.step linux) (Cluster.init ⟨[], []⟩) thenSetEmptyKey
    (∃ m, w.inst true = some m ∧ m.dict[([97] : Bytes)]? = some [1]) ∧
      ∃ m, w.inst false = some m ∧ (m.get calm w.disk (fun v => v.contains [97]) true).2 = false := by
  obtain ⟨hexec, hsealed, hparse⟩ := append_emptyKey (show shared = _ from rfl)
  have hdisk : afterSet.disk = shared.firstDisk linux calm [97] (.bool true) := rfl
  have hinst : afterSet.inst true = some (shared.afterFirst linux calm [97] (.bool true)) := rfl
  have hother : afterSet.inst false = some (shared.fresh linux) := rfl
  have hopened : Shared none (shared.fresh linux) := ⟨rfl, rfl, rfl, rfl⟩
  -- the probe sees the new sequence number, and the load fails
  have hstale := checkLoadData_dict_of_error hsealed hopened rfl (by decide +kernel) (show calm.remap = none from rfl)
    hparse
  rw [thenSetEmptyKey, run_append, run_openBothAndSet, run_cons, run_nil, Cluster.step_call_eq linux hinst, hdisk,
    hexec]
  refine ⟨⟨_, Cluster.put_inst_self .., ?_⟩, shared.fresh linux, ?_, ?_⟩
  · show (((∅ : Dict).insert [97] [1]).insert [] [1])[([97] : Bytes)]? = some [1]
    decide
  · rw [Cluster.put_inst_of_ne (by decide), hother]
  · exact get_contains_of_empty rfl hstale

end MmkvGo.Multi
