import MmkvGo.Wire.Meta

/-!
AES-CFB-128 (`crypt.go`), over an arbitrary block function.  Both loops run a byte at a time on a register
that is encrypted into the keystream whenever its position wraps; the ciphertext byte is what both feed
back, so the two loops pass through the same registers (`decryptLoop_encryptLoop`).
-/

namespace MmkvGo.Crypt

open MmkvGo.Lib MmkvGo.Wire

/-- A block function: `cipher.Block.Encrypt`. -/
abbrev Cipher := Block → Block

/-- `newAESCFB`: the user's key cut or zero-padded to 16 bytes, or to 32 when it is longer than 16. -/
def newAESCFB (aes : Bytes → Cipher) (userKey : Bytes) : Cipher :=
  let n := if 16 < userKey.length then 32 else 16
  aes (resize 0 userKey n)

/-- The variables of the loops: the register, the keystream block and the position in them. -/
structure Cfb where
  reg : Block
  ks : Block
  n : Fin 16

/-- At position zero the register is encrypted into a new keystream block. -/
def Cfb.refresh (E : Cipher) (s : Cfb) : Cfb := if s.n = 0 then { s with ks := E s.reg } else s

/-- The ciphertext byte goes into the register. -/
def Cfb.feed (s : Cfb) (c : UInt8) : Cfb := { s with reg := s.reg.set s.n c, n := s.n + 1 }

def Cfb.key (s : Cfb) : UInt8 := s.ks[s.n]

/-- The loop of `aesCFB.Decrypt`. -/
def decryptLoop (E : Cipher) : Cfb → Bytes → Bytes
  | _, [] => []
  | s, c :: ct =>
    let s := s.refresh E
    (c ^^^ s.key) :: decryptLoop E (s.feed c) ct

/-- The loop of `aesCFB.Encrypt`. -/
def encryptLoop (E : Cipher) : Cfb → Bytes → Bytes
  | _, [] => []
  | s, p :: pt =>
    let s := s.refresh E
    let c := p ^^^ s.key
    c :: encryptLoop E (s.feed c) pt

/-- The loops start with the IV in the register. -/
def Cfb.start (iv : Bytes) : Cfb := ⟨getBlock iv 0, Vector.replicate 16 0, 0⟩

/-- `aesCFB.Decrypt`. -/
def decrypt (E : Cipher) (ct iv : Bytes) : Except Err Bytes :=
  if iv.length < 16 then .error .shortIV else .ok (decryptLoop E (Cfb.start iv) ct)

/-- `aesCFB.Encrypt`. -/
def encrypt (E : Cipher) (pt iv : Bytes) : Except Err Bytes :=
  if iv.length < 16 then .error .shortIV else .ok (encryptLoop E (Cfb.start iv) pt)

@[simp] theorem length_encryptLoop (E : Cipher) (s : Cfb) (pt : Bytes) :
    (encryptLoop E s pt).length = pt.length := by
  induction pt generalizing s with
  | nil => rfl
  | cons p pt ih => simp [encryptLoop, ih]

@[simp] theorem length_decryptLoop (E : Cipher) (s : Cfb) (ct : Bytes) :
    (decryptLoop E s ct).length = ct.length := by
  induction ct generalizing s with
  | nil => rfl
  | cons c ct ih => simp [decryptLoop, ih]

/-- **Decrypting undoes encrypting**, from any state of the loop. -/
theorem decryptLoop_encryptLoop (E : Cipher) (s : Cfb) (pt : Bytes) :
    decryptLoop E s (encryptLoop E s pt) = pt := by
  induction pt generalizing s with
  | nil => rfl
  | cons p pt ih => simp only [encryptLoop, decryptLoop, ih, UInt8.xor_assoc, UInt8.xor_self, UInt8.xor_zero]

/-- **Encrypting undoes decrypting**, from any state of the loop. -/
theorem encryptLoop_decryptLoop (E : Cipher) (s : Cfb) (ct : Bytes) :
    encryptLoop E s (decryptLoop E s ct) = ct := by
  induction ct generalizing s with
  | nil => rfl
  | cons c ct ih => simp only [encryptLoop, decryptLoop, ih, UInt8.xor_assoc, UInt8.xor_self, UInt8.xor_zero]

section WithIV

variable (E : Cipher) (iv : Block)

lemma decrypt_block (ct : Bytes) : decrypt E ct iv.toList = .ok (decryptLoop E (Cfb.start iv.toList) ct) := by
  rw [decrypt, if_neg (by simp)]

lemma encrypt_block (pt : Bytes) : encrypt E pt iv.toList = .ok (encryptLoop E (Cfb.start iv.toList) pt) := by
  rw [encrypt, if_neg (by simp)]

end WithIV

end MmkvGo.Crypt
