import Mathlib.Data.Set.Disjoint
import Mathlib.Order.CompletePartialOrder
import MmkvGo.Lib.LexPath
import MmkvGo.Store.Refine

/-!
The files of an instance (`path.go`), and how far instances with different names keep apart.

A name without special characters is the name of its data file; any other one is hashed into a directory of its own.
The ".crc" file has the data file's name and a suffix.  A path here is what its lexical cleaning names, and MD5 is a
parameter.  An open makes the directories of its files, and fails where one of them is a file or one of its files is a
directory.
-/

namespace MmkvGo.Path

open Lib Lib.LexPath Wire Store

/-- The bytes of a constant of the source. -/
def ascii (s : String) : Bytes := s.toUTF8.data.toList

def specialCharDir : Bytes := ascii "specialCharacter"

def specialChars : Bytes := ascii "\\/:*?\"<>|"

def crcSuffix : Bytes := ascii ".crc"

/-- `strings.ContainsAny(mmapID, specialChars)`. -/
def special (mmapID : Bytes) : Bool := mmapID.any fun c => specialChars.contains c

/-- A digit of `hex.EncodeToString`. -/
def hexDigit (n : ℕ) : UInt8 := UInt8.ofNat (if n < 10 then 48 + n else 87 + n)

/-- `hex.EncodeToString`. -/
def hexEncode (bs : Bytes) : Bytes := bs.flatMap fun b => [hexDigit (b.toNat / 16), hexDigit (b.toNat % 16)]

section Files

variable (md5 : Bytes → Vector UInt8 16) (rootDir mmapID : Bytes)

def encodeFilePath : Bytes :=
  if special mmapID then join specialCharDir (hexEncode (md5 mmapID).toList) else mmapID

def dataPathFor : Bytes := join rootDir (encodeFilePath md5 mmapID)

/-- The name of the ".crc" file. -/
def metaPathFor : Bytes := dataPathFor md5 rootDir mmapID ++ crcSuffix

/-- The data file. -/
def dataFile : LexPath.Path := clean (dataPathFor md5 rootDir mmapID)

/-- The ".crc" file. -/
def metaFile : LexPath.Path := clean (metaPathFor md5 rootDir mmapID)

/-- The files of an instance. -/
def files : Set LexPath.Path := {dataFile md5 rootDir mmapID, metaFile md5 rootDir mmapID}

end Files

/-! ### What is done to the files of an instance -/

/-- What a path names. -/
inductive Node where
  | file (bytes : Bytes)
  | dir
  deriving DecidableEq

/-- The bytes of a file. -/
def Node.bytes : Node → Bytes
  | .file bytes => bytes
  | .dir => []

/-- The files and the directories of a machine. -/
abbrev Fs := LexPath.Path → Option Node

namespace Fs

variable (md5 : Bytes → Vector UInt8 16) (rootDir mmapID : Bytes) (fs : Fs)

/-- Nothing is there. -/
def empty : Fs := fun _ => none

/-- A directory that the path is in is a file. -/
def obstructed (q : LexPath.Path) : Bool := q.above.any fun p => ((fs p).any (· ≠ .dir))

/-- `os.MkdirAll` of the directory of `q`, where none of those above is a file. -/
def mkdirAll (q : LexPath.Path) : Fs := fun p => if p ∈ q.above ∧ fs p = none then some .dir else fs p

/-- The files an instance opens; one that does not exist is made. -/
def disk : Disk :=
  ⟨((fs (dataFile md5 rootDir mmapID)).map Node.bytes).getD [],
    ((fs (metaFile md5 rootDir mmapID)).map Node.bytes).getD []⟩

/-- What an open finds: the bytes of the two files, unless the way to one of them is obstructed or it is a directory. -/
def found : Option Disk :=
  if fs.obstructed (dataFile md5 rootDir mmapID) || fs.obstructed (metaFile md5 rootDir mmapID) ||
      fs (dataFile md5 rootDir mmapID) = some .dir || fs (metaFile md5 rootDir mmapID) = some .dir then none
  else some (fs.disk md5 rootDir mmapID)

/-- The two files of an instance replaced. -/
def put (data crc : Option Node) : Fs := fun q =>
  if q = dataFile md5 rootDir mmapID then data else if q = metaFile md5 rootDir mmapID then crc else fs q

/-- What is done with a name. -/
inductive Act where
  /-- `MMKVWithID`, and then calls on the instance and reopenings. -/
  | session (cfg : Config) (sys : Sys) (acts : List Store.Act)
  /-- `RemoveStorage`, and which of its two `os.Remove` take their entry away. -/
  | removeStorage (data crc : Bool)

/-- The files after a session on `files`. -/
def serve (P : Platform) (cfg : Config) (sys : Sys) (acts : List Store.Act) (files : Disk) : Fs :=
  let w := run (World.step P) (World.start P cfg sys files) acts
  fs.put md5 rootDir mmapID (some (.file w.disk.data)) (some (.file w.disk.crc))

/-- A session that opens for writing: the directories are made, and the data file is opened before the ".crc" file. -/
def write (P : Platform) (cfg : Config) (sys : Sys) (acts : List Store.Act) : Fs :=
  let data := dataFile md5 rootDir mmapID
  let crc := metaFile md5 rootDir mmapID
  if fs.obstructed data then fs
  else
    let fs := fs.mkdirAll data
    if fs data = some .dir then fs
    else
      let files := fs.disk md5 rootDir mmapID
      if fs crc = some .dir then
        fs.put md5 rootDir mmapID (some (.file (files.apply (openWrites P files)).data)) (some .dir)
      else fs.serve md5 rootDir mmapID P cfg sys acts files

/-- A session that opens for reading: both files must be there. -/
def read (P : Platform) (cfg : Config) (sys : Sys) (acts : List Store.Act) : Fs :=
  match fs (dataFile md5 rootDir mmapID), fs (metaFile md5 rootDir mmapID) with
  | some (.file data), some (.file crc) => fs.serve md5 rootDir mmapID P cfg sys acts ⟨data, crc⟩
  | _, _ => fs

def act (P : Platform) : Act → Fs
  | .session cfg sys acts =>
    if cfg.readOnly then fs.read md5 rootDir mmapID P cfg sys acts else fs.write md5 rootDir mmapID P cfg sys acts
  | .removeStorage data crc =>
    fs.put md5 rootDir mmapID (if data then none else fs (dataFile md5 rootDir mmapID))
      (if crc then none else fs (metaFile md5 rootDir mmapID))

end Fs

/-! ### The conditions on names -/

/-- The name is not one of those that mean a directory. -/
def Ordinary (mmapID : Bytes) : Prop := mmapID ≠ [] ∧ mmapID ≠ [dot] ∧ mmapID ≠ [dot, dot]

instance (mmapID : Bytes) : Decidable (Ordinary mmapID) := by unfold Ordinary; infer_instance

/-- The file named `b` is the ".crc" file of `a`. -/
def Shadows (a b : Bytes) : Prop := special a = false ∧ b = a ++ crcSuffix

instance (a b : Bytes) : Decidable (Shadows a b) := by unfold Shadows; infer_instance

/-- The data file of `a` is the directory of the hashed name `b`. -/
def Houses (a b : Bytes) : Prop := a = specialCharDir ∧ special b = true

instance (a b : Bytes) : Decidable (Houses a b) := by unfold Houses; infer_instance

/-- **Isolation** of the instances of two names: they share no file, all their files are below the root directory, and
nothing done with one name changes what is found under the other. -/
structure Isolated (P : Platform) (md5 : Bytes → Vector UInt8 16) (rootDir a b : Bytes) : Prop where
  disjoint : Disjoint (files md5 rootDir a) (files md5 rootDir b)
  below : ∀ f ∈ files md5 rootDir a ∪ files md5 rootDir b, Below (clean rootDir) f
  unchanged : ∀ (fs : Fs) (l : List Fs.Act),
    (run (fun fs => Fs.act md5 rootDir a fs P) fs l).found md5 rootDir b = fs.found md5 rootDir b ∧
      (run (fun fs => Fs.act md5 rootDir b fs P) fs l).found md5 rootDir a = fs.found md5 rootDir a

/-! ### Names in hexadecimal -/

lemma hexDigit_inj {m n : ℕ} (hm : m < 16) (hn : n < 16) (h : hexDigit m = hexDigit n) : m = n := by
  have hall : ∀ i : Fin 16, ∀ j : Fin 16, hexDigit i = hexDigit j → i = j := by decide
  exact Fin.mk.inj_iff.1 (hall ⟨m, hm⟩ ⟨n, hn⟩ h)

lemma hexDigit_ne_slash {n : ℕ} (hn : n < 16) : hexDigit n ≠ slash := by
  have hall : ∀ i : Fin 16, hexDigit i ≠ slash := by decide
  exact hall ⟨n, hn⟩

lemma hexEncode_cons (b : UInt8) (bs : Bytes) :
    hexEncode (b :: bs) = hexDigit (b.toNat / 16) :: hexDigit (b.toNat % 16) :: hexEncode bs := rfl

lemma length_hexEncode (bs : Bytes) : (hexEncode bs).length = 2 * bs.length := by
  induction bs with
  | nil => rfl
  | cons b bs ih => simp [hexEncode_cons, ih, Nat.mul_succ]

lemma slash_not_mem_hexEncode (bs : Bytes) : slash ∉ hexEncode bs := by
  induction bs with
  | nil => simp [hexEncode]
  | cons b bs ih =>
    have hlt := b.toNat_lt
    have hhigh := hexDigit_ne_slash (n := b.toNat / 16) (by omega)
    have hlow := hexDigit_ne_slash (n := b.toNat % 16) (by omega)
    rw [hexEncode_cons]
    simp [hhigh.symm, hlow.symm, ih]

/-- **Hexadecimal text determines the bytes.** -/
theorem hexEncode_injective : Function.Injective hexEncode := by
  intro as
  induction as with
  | nil =>
    intro bs h
    cases bs with
    | nil => rfl
    | cons b bs => cases h
  | cons a as ih =>
    intro bs h
    cases bs with
    | nil => cases h
    | cons b bs =>
      rw [hexEncode_cons, hexEncode_cons] at h
      obtain ⟨hhigh, h⟩ := List.cons.inj h
      obtain ⟨hlow, h⟩ := List.cons.inj h
      have ha := a.toNat_lt
      have hb := b.toNat_lt
      have hdiv := hexDigit_inj (by omega) (by omega) hhigh
      have hmod := hexDigit_inj (by omega) (by omega) hlow
      have hab : a = b := UInt8.toNat_inj.1 (by omega)
      rw [hab, ih h]

/-! ### Where the files of a name are -/

section Where

variable {md5 : Bytes → Vector UInt8 16} {rootDir id : Bytes}

lemma plain_specialCharDir : Plain specialCharDir := by decide

/-- The name of the data file in its directory. -/
def nameOf (md5 : Bytes → Vector UInt8 16) (id : Bytes) : Bytes :=
  if special id then hexEncode (md5 id).toList else id

/-- The directory of the files of a name, below `p`. -/
def dirOf (p : LexPath.Path) (id : Bytes) : LexPath.Path :=
  if special id then p.child specialCharDir plain_specialCharDir else p

lemma slash_not_mem (h : special id = false) : slash ∉ id := by
  intro hmem
  have hany : special id = true := List.any_eq_true.2 ⟨slash, hmem, by decide⟩
  rw [hany] at h
  cases h

variable (md5)

lemma length_nameOf (h : special id = true) : (nameOf md5 id).length = 32 := by
  rw [nameOf, if_pos h, length_hexEncode]
  simp

lemma plain_nameOf (hid : Ordinary id) : Plain (nameOf md5 id) := by
  cases h : special id with
  | false =>
    rw [nameOf, h]
    exact ⟨slash_not_mem h, hid⟩
  | true =>
    have hlen := length_nameOf md5 h
    refine ⟨?_, ?_, ?_, ?_⟩
    · rw [nameOf, if_pos h]
      exact slash_not_mem_hexEncode _
    all_goals
      intro heq
      simp [heq] at hlen

lemma plain_nameOf_append (hid : Ordinary id) : Plain (nameOf md5 id ++ crcSuffix) := by
  have hslash := (plain_nameOf md5 hid).1
  have hlen : crcSuffix.length = 4 := by decide
  refine ⟨?_, ?_, ?_, ?_⟩
  · have hsuf : slash ∉ crcSuffix := by decide
    simp [hslash, hsuf]
  all_goals
    intro heq
    have := congrArg List.length heq
    simp [hlen] at this

lemma encodeFilePath_special (hid : Ordinary id) (h : special id = true) :
    encodeFilePath md5 id = specialCharDir ++ slash :: nameOf md5 id := by
  have hname := plain_nameOf md5 hid
  rw [nameOf, if_pos h] at hname ⊢
  rw [encodeFilePath, if_pos h, join_plain plain_specialCharDir hname]

lemma encodeFilePath_normal (h : special id = false) : encodeFilePath md5 id = nameOf md5 id := by
  rw [encodeFilePath, nameOf, h]
  rfl

lemma foldl_encodeFilePath (hid : Ordinary id) (p : LexPath.Path) :
    ((encodeFilePath md5 id).splitOn slash).foldl Path.push p = (dirOf p id).child _ (plain_nameOf md5 hid) := by
  have hname := plain_nameOf md5 hid
  cases h : special id with
  | false =>
    rw [encodeFilePath_normal md5 h, splitOn_plain hname, List.foldl_cons, push_plain hname]
    simp [dirOf, h]
  | true =>
    rw [encodeFilePath_special md5 hid h, List.splitOn_append_cons_self, splitOn_plain hname,
      splitOn_plain plain_specialCharDir]
    simp [dirOf, h, push_plain plain_specialCharDir, push_plain hname]

lemma encodeFilePath_head (hid : Ordinary id) :
    encodeFilePath md5 id ≠ [] ∧ (encodeFilePath md5 id).head? ≠ some slash := by
  cases h : special id with
  | false =>
    have hname := plain_nameOf md5 hid
    rw [encodeFilePath_normal md5 h]
    exact ⟨hname.2.1, head_ne_slash_of_plain hname⟩
  | true =>
    rw [encodeFilePath_special md5 hid h]
    refine ⟨by simp, ?_⟩
    have hhead : specialCharDir.head? = some 115 := by decide
    rw [List.head?_append, hhead, Option.some_or]
    decide

theorem dataFile_eq (hid : Ordinary id) :
    dataFile md5 rootDir id = (dirOf (clean rootDir) id).child _ (plain_nameOf md5 hid) := by
  rw [dataFile, dataPathFor, clean_join rootDir (encodeFilePath_head md5 hid).2, foldl_encodeFilePath md5 hid]

theorem metaFile_eq (hid : Ordinary id) :
    metaFile md5 rootDir id = (dirOf (clean rootDir) id).child _ (plain_nameOf_append md5 hid) := by
  have hdata : dataPathFor md5 rootDir id = (dataFile md5 rootDir id).render :=
    join_eq_render (encodeFilePath_head md5 hid).1
  rw [metaFile, metaPathFor, hdata, dataFile_eq md5 hid, render_child_append _ (plain_nameOf_append md5 hid),
    clean_render]

theorem below_of_ordinary (hid : Ordinary id) : ∀ f ∈ files md5 rootDir id, Below (clean rootDir) f := by
  have hchild : ∀ (c : Bytes) (hc : Plain c), Below (clean rootDir) ((dirOf (clean rootDir) id).child c hc) := by
    intro c hc
    unfold dirOf
    split
    · exact (below_child plain_specialCharDir).child hc
    · exact below_child hc
  rintro f (rfl | rfl)
  · exact dataFile_eq md5 hid ▸ hchild _ _
  · exact metaFile_eq md5 hid ▸ hchild _ _

theorem not_below_of_not_ordinary (hid : ¬ Ordinary id) : ¬ Below (clean rootDir) (dataFile md5 rootDir id) := by
  have hcases : id = [] ∨ id = [dot] ∨ id = [dot, dot] := by
    unfold Ordinary at hid
    tauto
  rcases hcases with rfl | rfl | rfl
  · have hdata : dataFile md5 rootDir [] = clean rootDir := clean_join rootDir (b := []) (by simp)
    rw [hdata]
    exact not_below_self
  · have hdata : dataFile md5 rootDir [dot] = clean rootDir :=
      (clean_join rootDir (b := [dot]) (by decide)).trans push_dot
    rw [hdata]
    exact not_below_self
  · have hdata : dataFile md5 rootDir [dot, dot] = (clean rootDir).parent :=
      (clean_join rootDir (b := [dot, dot]) (by decide)).trans push_up
    rw [hdata]
    exact not_below_parent

end Where

/-! ### Shared files -/

section Shared

variable {md5 : Bytes → Vector UInt8 16} {rootDir a b : Bytes}

lemma nameOf_of_child_eq {c c' : Bytes} {hc : Plain c} {hc' : Plain c'}
    (h : (dirOf (clean rootDir) a).child c hc = (dirOf (clean rootDir) b).child c' hc') :
    special a = special b ∧ c = c' := by
  obtain ⟨hdir, hname⟩ := child_inj h
  refine ⟨?_, hname⟩
  have hlen := congrArg List.length hdir
  cases ha : special a <;> cases hb : special b <;> simp [dirOf, ha, hb, Path.child] at hlen ⊢

lemma nameOf_ne (hmd5 : md5 a = md5 b → a = b) (hne : a ≠ b) (hs : special a = special b) :
    nameOf md5 a ≠ nameOf md5 b := by
  intro h
  refine hne ?_
  unfold nameOf at h
  rw [← hs] at h
  split at h
  · exact hmd5 (Vector.toList_inj.1 (hexEncode_injective h))
  · exact h

/-- The data file of one name is the ".crc" file of another only when the one shadows the other. -/
lemma nameOf_ne_append (hs : special a = special b) (hsh : ¬ Shadows a b) :
    nameOf md5 b ≠ nameOf md5 a ++ crcSuffix := by
  intro h
  cases ha : special a with
  | false =>
    simp only [nameOf, ← hs, ha] at h
    exact hsh ⟨ha, h⟩
  | true =>
    have hlen := congrArg List.length h
    rw [List.length_append, length_nameOf md5 ha, length_nameOf md5 (hs ▸ ha)] at hlen
    have hsuf : crcSuffix.length = 4 := by decide
    omega

/-- **Ordinary names share no file unless one shadows the other.** -/
theorem disjoint_files (hmd5 : md5 a = md5 b → a = b) (hne : a ≠ b) (ha : Ordinary a) (hb : Ordinary b)
    (hab : ¬ Shadows a b) (hba : ¬ Shadows b a) : Disjoint (files md5 rootDir a) (files md5 rootDir b) := by
  rw [Set.disjoint_left]
  intro f hfa hfb
  rcases hfa with rfl | rfl <;> rcases hfb with h | h
  · rw [dataFile_eq md5 ha, dataFile_eq md5 hb] at h
    obtain ⟨hs, hname⟩ := nameOf_of_child_eq h
    exact nameOf_ne hmd5 hne hs hname
  · rw [dataFile_eq md5 ha, Set.mem_singleton_iff, metaFile_eq md5 hb] at h
    obtain ⟨hs, hname⟩ := nameOf_of_child_eq h
    exact nameOf_ne_append hs.symm hba hname
  · rw [metaFile_eq md5 ha, dataFile_eq md5 hb] at h
    obtain ⟨hs, hname⟩ := nameOf_of_child_eq h
    exact nameOf_ne_append hs hab hname.symm
  · rw [metaFile_eq md5 ha, Set.mem_singleton_iff, metaFile_eq md5 hb] at h
    obtain ⟨hs, hname⟩ := nameOf_of_child_eq h
    exact nameOf_ne hmd5 hne hs (List.append_cancel_right hname)

/-- **A name that shadows another** has the other's ".crc" file for its data file. -/
theorem metaFile_of_shadows (ha : Ordinary a) (h : Shadows a b) : metaFile md5 rootDir a = dataFile md5 rootDir b := by
  obtain ⟨hspecial, rfl⟩ := h
  have hsuf : special crcSuffix = false := by decide
  have hspecial' : special (a ++ crcSuffix) = false := by
    unfold special at hspecial hsuf ⊢
    rw [List.any_append, hspecial, hsuf]
    rfl
  have hname : ∀ id, special id = false → nameOf md5 id = id := fun id h => by simp [nameOf, h]
  have hb : Ordinary (a ++ crcSuffix) := by
    have hplain := plain_nameOf_append md5 ha
    rw [hname a hspecial] at hplain
    exact hplain.2
  rw [metaFile_eq md5 ha, dataFile_eq md5 hb]
  simp only [dirOf, hspecial, hspecial', hname a hspecial, hname _ hspecial']

/-- **No file of one name is a directory of the other's files**, unless the one houses the other. -/
theorem not_below_files (ha : Ordinary a) (hb : Ordinary b) (hab : ¬ Houses a b) :
    ∀ f ∈ files md5 rootDir a, ∀ q ∈ files md5 rootDir b, ¬ Below f q := by
  intro f hf q hq
  have hroot := below_of_ordinary md5 ha f hf
  -- the files of `b` are entries of its directory, so a file above one is that directory or above it
  have hdir : ¬ (f = dirOf (clean rootDir) b ∨ Below f (dirOf (clean rootDir) b)) := by
    have habove : ¬ (f = clean rootDir ∨ Below f (clean rootDir)) := by
      rintro (rfl | h)
      · exact not_below_self hroot
      · exact hroot.asymm h
    rw [dirOf]
    split
    · next hspecial =>
      rw [below_child_iff, not_or]
      refine ⟨fun h => ?_, habove⟩
      have hname : ∀ (c : Bytes) (hc : Plain c), (dirOf (clean rootDir) a).child c hc = f → special a = false ∧
          c = specialCharDir := by
        rintro c hc rfl
        obtain ⟨hdir, hc⟩ := child_inj h
        refine ⟨?_, hc⟩
        cases hsp : special a with
        | false => rfl
        | true =>
          have hlen := congrArg List.length hdir
          simp [dirOf, hsp, Path.child] at hlen
      rcases hf with hf | hf
      · obtain ⟨hsp, hc⟩ := hname _ (plain_nameOf md5 ha) (by rw [hf, dataFile_eq md5 ha])
        rw [nameOf, hsp] at hc
        exact hab ⟨hc, hspecial⟩
      · obtain ⟨hsp, hc⟩ := hname _ (plain_nameOf_append md5 ha) (by rw [hf, metaFile_eq md5 ha])
        have hlast : specialCharDir.getLast? ≠ crcSuffix.getLast? := by decide
        rw [← hc, List.getLast?_append_of_ne_nil _ (by decide)] at hlast
        exact hlast rfl
    · exact habove
  rcases hq with rfl | rfl
  · rwa [dataFile_eq md5 hb, below_child_iff]
  · rwa [metaFile_eq md5 hb, below_child_iff]

/-- A name that houses another has the directory of the other's files for its data file. -/
lemma below_of_houses (h : Houses a b) : Below (dataFile md5 rootDir a) (dataFile md5 rootDir b) := by
  obtain ⟨rfl, hb⟩ := h
  have hord : Ordinary specialCharDir := by decide
  have hplain : special specialCharDir = false := by decide
  have hordb : Ordinary b := by
    refine ⟨?_, ?_, ?_⟩ <;> rintro rfl <;> exact absurd hb (by decide)
  rw [dataFile_eq md5 hord, dataFile_eq md5 hordb]
  simp only [dirOf, hplain, hb, nameOf, if_true, Bool.false_eq_true, if_false]
  exact below_child _

lemma not_disjoint_of_shadows (ha : Ordinary a) (h : Shadows a b) :
    ¬ Disjoint (files md5 rootDir a) (files md5 rootDir b) := by
  rw [Set.not_disjoint_iff]
  exact ⟨metaFile md5 rootDir a, .inr rfl, .inl (metaFile_of_shadows ha h)⟩

end Shared

/-! ### Sequences of operations -/

namespace Fs

variable {P : Platform} {md5 : Bytes → Vector UInt8 16} {rootDir a b : Bytes}

/-- What an act does to a path that is no file of its name: a directory may be made of nothing. -/
def Keeps (a : Bytes) (md5 : Bytes → Vector UInt8 16) (rootDir : Bytes) (fs fs' : Fs) : Prop :=
  ∀ q ∉ files md5 rootDir a, fs' q = fs q ∨ fs q = none ∧ fs' q = some .dir ∧ Below q (dataFile md5 rootDir a)

lemma keeps_put (fs : Fs) (data crc : Option Node) : Keeps a md5 rootDir fs (fs.put md5 rootDir a data crc) := by
  intro q hq
  have hdata : q ≠ dataFile md5 rootDir a := fun h => hq (.inl h)
  have hmeta : q ≠ metaFile md5 rootDir a := fun h => hq (.inr h)
  exact .inl (by rw [put, if_neg hdata, if_neg hmeta])

lemma keeps_mkdirAll (fs : Fs) : Keeps a md5 rootDir fs (fs.mkdirAll (dataFile md5 rootDir a)) := by
  intro q _
  rw [mkdirAll]
  split
  · next h => exact .inr ⟨h.2, rfl, mem_above.1 h.1⟩
  · exact .inl rfl

lemma Keeps.put {fs fs' : Fs} (h : Keeps a md5 rootDir fs fs') (data crc : Option Node) :
    Keeps a md5 rootDir fs (fs'.put md5 rootDir a data crc) := by
  intro q hq
  rcases keeps_put fs' data crc q hq with hput | ⟨hnone, hdir, hbelow⟩
  · rw [hput]
    exact h q hq
  · rcases h q hq with hsame | ⟨-, hdir', -⟩
    · exact .inr ⟨hsame ▸ hnone, hdir, hbelow⟩
    · rw [hnone] at hdir'
      cases hdir'

/-- **One act** leaves every path alone but the files of its name and the directories they are in. -/
theorem keeps_act (fs : Fs) (x : Act) : Keeps a md5 rootDir fs (fs.act md5 rootDir a P x) := by
  have hself : Keeps a md5 rootDir fs fs := fun q _ => .inl rfl
  have hdirs : Keeps a md5 rootDir fs (fs.mkdirAll (dataFile md5 rootDir a)) := keeps_mkdirAll fs
  cases x with
  | removeStorage data crc => exact keeps_put fs _ _
  | session cfg sys acts =>
    rw [act]
    split
    · rw [read]
      split
      · exact keeps_put fs _ _
      · exact hself
    · simp only [write, serve]
      split
      · exact hself
      · split
        · exact hdirs
        · split
          · exact hdirs.put _ _
          · exact hdirs.put _ _

/-- **What is found under the other name stays.** -/
theorem Keeps.found {fs fs' : Fs} (h : Keeps a md5 rootDir fs fs')
    (hdisj : Disjoint (files md5 rootDir a) (files md5 rootDir b))
    (hab : ∀ f ∈ files md5 rootDir a, ∀ q ∈ files md5 rootDir b, ¬ Below f q)
    (hba : ∀ q ∈ files md5 rootDir b, ¬ Below q (dataFile md5 rootDir a)) :
    fs'.found md5 rootDir b = fs.found md5 rootDir b := by
  have hfile : ∀ q ∈ files md5 rootDir b, fs' q = fs q := by
    intro q hq
    rcases h q (Set.disjoint_right.1 hdisj hq) with hsame | ⟨-, -, hbelow⟩
    · exact hsame
    · exact absurd hbelow (hba q hq)
  have hway : ∀ q ∈ files md5 rootDir b, fs'.obstructed q = fs.obstructed q := by
    intro q hq
    rw [obstructed, obstructed, Bool.eq_iff_iff, List.any_eq_true, List.any_eq_true]
    refine exists_congr fun p => and_congr_right fun hp => ?_
    have hp' : p ∉ files md5 rootDir a := fun hf => hab p hf q hq (mem_above.1 hp)
    rcases h p hp' with hsame | ⟨hnone, hdir, -⟩
    · rw [hsame]
    · simp [hnone, hdir]
  simp only [Fs.found, disk, hfile _ (.inl rfl), hfile _ (.inr rfl), hway _ (.inl rfl), hway _ (.inr rfl)]

/-- **Any sequence of operations** with one name leaves what is found under the other. -/
theorem found_run (ha : Ordinary a) (hb : Ordinary b) (hdisj : Disjoint (files md5 rootDir a) (files md5 rootDir b))
    (hab : ¬ Houses a b) (hba : ¬ Houses b a) (fs : Fs) (l : List Act) :
    (run (fun fs => Fs.act md5 rootDir a fs P) fs l).found md5 rootDir b = fs.found md5 rootDir b := by
  induction l generalizing fs with
  | nil => rfl
  | cons x l ih =>
    rw [run_cons, ih]
    exact (keeps_act fs x).found hdisj (not_below_files ha hb hab) fun q hq => not_below_files hb ha hba q hq _ (.inl rfl)

lemma found_empty (md5 : Bytes → Vector UInt8 16) (rootDir id : Bytes) :
    empty.found md5 rootDir id = some ⟨[], []⟩ := by
  simp [found, obstructed, disk, empty]

/-- **A name that houses another** keeps it from being opened. -/
theorem found_of_houses (h : Houses a b) :
    (empty.act md5 rootDir a P (.session defaults calm [])).found md5 rootDir b = none := by
  have hbelow : Below (dataFile md5 rootDir a) (dataFile md5 rootDir b) := below_of_houses h
  have hpath := mem_above.2 hbelow
  have hclear : empty.obstructed (dataFile md5 rootDir a) = false := by simp [obstructed, empty]
  have hdata : empty.mkdirAll (dataFile md5 rootDir a) (dataFile md5 rootDir a) = none := by
    rw [mkdirAll, if_neg fun h => not_below_self (mem_above.1 h.1)]
    rfl
  have hord : Ordinary a := h.1 ▸ (by decide)
  have hmeta : empty.mkdirAll (dataFile md5 rootDir a) (metaFile md5 rootDir a) = none := by
    refine if_neg fun hm => not_below_files hord hord (fun hh => ?_) _ (.inr rfl) _ (.inl rfl) (mem_above.1 hm.1)
    rw [hh.1] at hh
    exact absurd hh.2 (by decide)
  rw [act, if_neg (show ¬ defaults.readOnly = true by decide), write]
  simp only [hclear, hdata, hmeta, Bool.false_eq_true, if_false, reduceCtorEq]
  rw [found, if_pos]
  simp only [Bool.or_eq_true, decide_eq_true_eq]
  refine .inl (.inl (.inl ?_))
  rw [obstructed, List.any_eq_true]
  exact ⟨_, hpath, by simp [serve, put]⟩

end Fs

/-! ### Isolation -/

/-- **Isolation of instances.**  Two different names, with different MD5 sums, are isolated exactly when neither is
empty, "." or "..", neither is the name of the other's ".crc" file, and neither is the name of the directory that the
other's files are hashed into. -/
theorem isolated_iff (P : Platform) {md5 : Bytes → Vector UInt8 16} (rootDir : Bytes) {a b : Bytes} (hne : a ≠ b)
    (hmd5 : md5 a = md5 b → a = b) :
    Isolated P md5 rootDir a b ↔
      Ordinary a ∧ Ordinary b ∧ (¬ Shadows a b ∧ ¬ Shadows b a) ∧ ¬ Houses a b ∧ ¬ Houses b a := by
  constructor
  · rintro ⟨hdisj, hbelow, hsame⟩
    have ha : Ordinary a := by
      by_contra h
      exact not_below_of_not_ordinary md5 h (hbelow _ (.inl (.inl rfl)))
    have hb : Ordinary b := by
      by_contra h
      exact not_below_of_not_ordinary md5 h (hbelow _ (.inr (.inl rfl)))
    have hopen := hsame .empty [.session defaults calm []]
    rw [Fs.found_empty, Fs.found_empty] at hopen
    refine ⟨ha, hb, ⟨fun h => not_disjoint_of_shadows ha h hdisj, fun h => not_disjoint_of_shadows hb h hdisj.symm⟩,
      fun h => ?_, fun h => ?_⟩
    · cases (Fs.found_of_houses h).symm.trans hopen.1
    · cases (Fs.found_of_houses h).symm.trans hopen.2
  · rintro ⟨ha, hb, ⟨hab, hba⟩, hhab, hhba⟩
    have hdisj : Disjoint (files md5 rootDir a) (files md5 rootDir b) := disjoint_files hmd5 hne ha hb hab hba
    refine ⟨hdisj, ?_, fun fs l =>
      ⟨Fs.found_run ha hb hdisj hhab hhba fs l, Fs.found_run hb ha hdisj.symm hhba hhab fs l⟩⟩
    rintro f (h | h)
    · exact below_of_ordinary md5 ha f h
    · exact below_of_ordinary md5 hb f h

/-- A stand-in for MD5 that tells names of different length apart. -/
def byLength (id : Bytes) : Vector UInt8 16 := Vector.replicate 16 (UInt8.ofNat id.length)

/-- Two names without a file in common. -/
theorem isolated_normal_hashed : Isolated linux byLength (ascii "/data/mmkv") (ascii "user") (ascii "a/b") :=
  (isolated_iff linux _ (by decide) (by decide)).2 (by decide)

/-- The name "a.crc" is not isolated from "a": removing its storage empties the other's ".crc" file. -/
theorem crc_name_not_isolated : byLength (ascii "a") ≠ byLength (ascii "a.crc") ∧
    ¬ Isolated linux byLength (ascii "/data/mmkv") (ascii "a") (ascii "a.crc") ∧
    ∃ fs : Fs, (fs.act byLength (ascii "/data/mmkv") (ascii "a.crc") linux (.removeStorage true true)).found byLength
      (ascii "/data/mmkv") (ascii "a") ≠ fs.found byLength (ascii "/data/mmkv") (ascii "a") := by
  have hshadows : Shadows (ascii "a") (ascii "a.crc") := by decide
  have hord : Ordinary (ascii "a") := by decide
  refine ⟨by decide, fun h => not_disjoint_of_shadows hord hshadows h.disjoint,
    Fs.empty.put byLength (ascii "/data/mmkv") (ascii "a") none (some (.file [1])), ?_⟩
  decide +kernel

/-- The name "specialCharacter" is not isolated from "a/b": what one open makes a file the other one needs as a
directory. -/
theorem hashed_directory_not_isolated :
    ¬ Isolated linux byLength (ascii "/data/mmkv") (ascii "specialCharacter") (ascii "a/b") := by
  intro h
  have hhouses : Houses (ascii "specialCharacter") (ascii "a/b") := by decide
  have hopen := (h.unchanged .empty [.session defaults calm []]).1
  rw [run_cons, run_nil, Fs.found_of_houses hhouses, Fs.found_empty] at hopen
  exact absurd hopen (Option.some_ne_none _).symm

end MmkvGo.Path
