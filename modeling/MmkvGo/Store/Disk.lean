import MmkvGo.Crypt.Cfb

/-!
The two files of an instance and the mapping of its data file (`memfile.go`).

A `Disk` is the content of the data file and of its ".crc" file.  Everything the package does to them is a list of
`Write`s in program order: a byte stored through the data mapping, a word or a byte stored through the
meta mapping, a change of the data file's size.  An operation returns the list of its writes; a process that
is killed in the middle of it has made a prefix of them.

The mapping of the data file is the size it was made with: its bytes are those of the file, so they are shared with
every other mapping of it, while the size stays what it was until the next remap.
-/

namespace MmkvGo.Store

open MmkvGo.Lib MmkvGo.Wire MmkvGo.Crypt

/-- What the operating system and the AES library provide. -/
structure Platform where
  /-- `unix.Getpagesize()` -/
  pageSize : ℕ
  /-- The four header bytes of the data file fit a page. -/
  four_le_pageSize : 4 ≤ pageSize
  pageSize_lt : pageSize < 2 ^ 32
  /-- `aes.NewCipher`, on a key of 16 or 32 bytes -/
  aes : Bytes → Cipher

/-- The data file and its ".crc" file. -/
structure Disk where
  data : Bytes
  crc : Bytes
  deriving DecidableEq

/-- One store to a file. -/
inductive Write where
  /-- A byte of the data mapping. -/
  | data (off : ℕ) (b : UInt8)
  /-- A `PutUint32` into the meta mapping. -/
  | word (off : ℕ) (v : UInt32)
  /-- A byte of the meta mapping. -/
  | crc (off : ℕ) (b : UInt8)
  /-- An `ftruncate` of the data file; what it gains reads as zero. -/
  | resize (n : ℕ)
  /-- An `ftruncate` of the ".crc" file. -/
  | resizeCrc (n : ℕ)
  deriving DecidableEq

def Disk.write (d : Disk) : Write → Disk
  | .data off b => { d with data := d.data.set off b }
  | .word off v => { d with crc := putUint32 d.crc off v }
  | .crc off b => { d with crc := d.crc.set off b }
  | .resize n => { d with data := resize 0 d.data n }
  | .resizeCrc n => { d with crc := resize 0 d.crc n }

/-- The files after a list of stores. -/
def Disk.apply (d : Disk) (ws : List Write) : Disk := ws.foldl Disk.write d

/-- `copy(mem[off:], bs)` on the data mapping, byte by byte. -/
def dataWrites : ℕ → Bytes → List Write
  | _, [] => []
  | off, b :: bs => .data off b :: dataWrites (off + 1) bs

/-- `copy(meta[off:], bs)` on the meta mapping, byte by byte. -/
def crcWrites : ℕ → Bytes → List Write
  | _, [] => []
  | off, b :: bs => .crc off b :: crcWrites (off + 1) bs

/-- `memoryFile`: the size of the mapping; `mapped` is false after an `mmap` failed and left no mapping. -/
structure MemoryFile where
  size : ℕ
  mapped : Bool
  deriving DecidableEq

/-- `memory()`: the file's bytes as far as the mapping reaches. -/
def MemoryFile.memory (mf : MemoryFile) (d : Disk) : Bytes := if mf.mapped then d.data.take mf.size else []

/-- `len(memory())`. -/
def MemoryFile.len (mf : MemoryFile) : ℕ := if mf.mapped then mf.size else 0

/-- `pageRoundUp`. -/
def pageRoundUp (P : Platform) (n : ℕ) : ℕ :=
  if n ≤ P.pageSize then P.pageSize else (n + P.pageSize - 1) / P.pageSize * P.pageSize

/-- `memoryFile.truncate`, with the system call that fails, if one does. -/
def MemoryFile.truncate (P : Platform) (fails : Option Syscall) (mf : MemoryFile) (newSize : ℕ) :
    List Write × MemoryFile × Option Err :=
  let want := pageRoundUp P newSize
  if want = mf.size then ([], mf, none)
  else
    match fails with
    | some .truncate => ([], mf, some (.os .truncate))
    -- the file has its new size already, the mapping the old one
    | some .munmap =>
      if mf.mapped then ([.resize want], mf, some (.os .munmap))
      else ([.resize want], ⟨want, true⟩, none)
    -- the old mapping is gone and there is no new one
    | some .mmap => ([.resize want], { mf with mapped := false }, some (.os .mmap))
    | _ => ([.resize want], ⟨want, true⟩, none)

/-- `memoryFile.remap`, with the system call that fails, if one does. -/
def MemoryFile.remap (fails : Option Syscall) (mf : MemoryFile) (d : Disk) : MemoryFile × Option Err :=
  match fails with
  | some .stat => (mf, some (.os .stat))
  | fails =>
    if d.data.length = mf.size ∧ mf.mapped then (mf, none)
    else
      match fails with
      | some .munmap => if mf.mapped then (mf, some (.os .munmap)) else (⟨d.data.length, true⟩, none)
      | some .mmap => ({ mf with mapped := false }, some (.os .mmap))
      | _ => (⟨d.data.length, true⟩, none)

/-- `memoryFile.msync`: the files of this model are what the mappings hold, so only its error shows. -/
def msync (fails : Bool) : Option Err := if fails then some (.os .msync) else none

/-! ### Lists of stores -/

@[simp] lemma Disk.apply_nil (d : Disk) : d.apply [] = d := rfl

@[simp] lemma Disk.apply_cons (d : Disk) (w : Write) (ws : List Write) : d.apply (w :: ws) = (d.write w).apply ws := rfl

theorem Disk.apply_append (d : Disk) (ws vs : List Write) : d.apply (ws ++ vs) = (d.apply ws).apply vs :=
  List.foldl_append

theorem Disk.apply_dataWrites (d : Disk) (off : ℕ) (bs : Bytes) :
    d.apply (dataWrites off bs) = { d with data := patch d.data off bs } := by
  induction bs generalizing d off with
  | nil => rfl
  | cons b bs ih => rw [dataWrites, Disk.apply_cons, ih]; rfl

theorem Disk.apply_crcWrites (d : Disk) (off : ℕ) (bs : Bytes) :
    d.apply (crcWrites off bs) = { d with crc := patch d.crc off bs } := by
  induction bs generalizing d off with
  | nil => rfl
  | cons b bs ih => rw [crcWrites, Disk.apply_cons, ih]; rfl

lemma dataWrites_append (off : ℕ) (as bs : Bytes) :
    dataWrites off (as ++ bs) = dataWrites off as ++ dataWrites (off + as.length) bs := by
  induction as generalizing off with
  | nil => simp [dataWrites]
  | cons a as ih => simp [dataWrites, ih, Nat.add_assoc, Nat.add_comm 1]

@[simp] lemma length_dataWrites (off : ℕ) (bs : Bytes) : (dataWrites off bs).length = bs.length := by
  induction bs generalizing off with
  | nil => rfl
  | cons b bs ih => simp [dataWrites, ih]

@[simp] lemma length_crcWrites (off : ℕ) (bs : Bytes) : (crcWrites off bs).length = bs.length := by
  induction bs generalizing off with
  | nil => rfl
  | cons b bs ih => simp [crcWrites, ih]

theorem take_dataWrites (n off : ℕ) (bs : Bytes) : (dataWrites off bs).take n = dataWrites off (bs.take n) := by
  induction bs generalizing n off with
  | nil => simp [dataWrites]
  | cons b bs ih =>
    cases n with
    | zero => rfl
    | succ n => simp [dataWrites, ih]

theorem take_crcWrites (n off : ℕ) (bs : Bytes) : (crcWrites off bs).take n = crcWrites off (bs.take n) := by
  induction bs generalizing n off with
  | nil => simp [crcWrites]
  | cons b bs ih =>
    cases n with
    | zero => rfl
    | succ n => simp [crcWrites, ih]

/-! ### The mapping -/

lemma pageRoundUp_zero (P : Platform) : pageRoundUp P 0 = P.pageSize := by simp [pageRoundUp]

theorem le_pageRoundUp (P : Platform) (n : ℕ) : n ≤ pageRoundUp P n := by
  have hp := P.four_le_pageSize
  rw [pageRoundUp]
  split
  · assumption
  · have h := Nat.div_add_mod (n + P.pageSize - 1) P.pageSize
    have hm := Nat.mod_lt (n + P.pageSize - 1) (show 0 < P.pageSize by omega)
    rw [mul_comm]
    omega

lemma pageRoundUp_le (P : Platform) (n : ℕ) : pageRoundUp P n ≤ n + P.pageSize := by
  rw [pageRoundUp]
  split
  · omega
  · have := Nat.div_mul_le_self (n + P.pageSize - 1) P.pageSize
    omega

theorem pageSize_le_pageRoundUp (P : Platform) (n : ℕ) : P.pageSize ≤ pageRoundUp P n := by
  by_cases h : n ≤ P.pageSize
  · rw [pageRoundUp, if_pos h]
  · exact le_trans (by omega) (le_pageRoundUp P n)

/-- The store of a truncate from the size `old` to the size `new`. -/
def resizeWrites (old new : ℕ) : List Write := if new = old then [] else [.resize new]

theorem Disk.apply_resizeWrites (d : Disk) (n : ℕ) :
    d.apply (resizeWrites d.data.length n) = { d with data := resize 0 d.data n } := by
  rw [resizeWrites]
  split
  · next h => rw [h, resize_length, apply_nil]
  · rfl

theorem MemoryFile.truncate_ok (P : Platform) (size newSize : ℕ) :
    MemoryFile.truncate P none ⟨size, true⟩ newSize =
      (resizeWrites size (pageRoundUp P newSize), ⟨pageRoundUp P newSize, true⟩, none) := by
  by_cases h : pageRoundUp P newSize = size
  · simp [truncate, resizeWrites, h]
  · simp [truncate, resizeWrites, h]

theorem MemoryFile.remap_ok (mf : MemoryFile) (d : Disk) :
    mf.remap none d = (⟨d.data.length, true⟩, none) := by
  obtain ⟨size, mapped⟩ := mf
  simp only [remap]
  split
  · next h =>
    rw [h.1, h.2]
  · rfl

@[simp] lemma MemoryFile.memory_whole (d : Disk) : MemoryFile.memory ⟨d.data.length, true⟩ d = d.data := by
  simp [memory]

@[simp] lemma MemoryFile.len_mapped (n : ℕ) : MemoryFile.len ⟨n, true⟩ = n := rfl

end MmkvGo.Store
