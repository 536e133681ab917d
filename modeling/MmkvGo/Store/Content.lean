import MmkvGo.Store.Ops

/-!
What an instance is for: a map from keys to slots.  A `Content` is the map as a partial function and whether its slots
carry an expiration timestamp; `Content.after` says what each call does to it.  Nothing here mentions files,
regions or write paths.
-/

namespace MmkvGo.Store

open MmkvGo.Lib MmkvGo.Wire MmkvGo.Crypt

/-- The map a store holds. -/
@[ext] structure Content where
  slots : Bytes → Option Bytes
  expire : Bool

/-- The empty store. -/
def Content.empty : Content := ⟨fun _ => none, false⟩

/-- What a slot holds for a blob: with expiration on, the blob and its timestamp. -/
def Content.slot (c : Content) (sys : Sys) (seconds : UInt32) (blob : Bytes) : Bytes :=
  if c.expire then MMKV.appendExpire sys blob seconds else blob

/-- The map with the key bound to the slot of the blob. -/
def Content.put (sys : Sys) (seconds : UInt32) (c : Content) (key blob : Bytes) : Content :=
  { c with slots := Function.update c.slots key (some (c.slot sys seconds blob)) }

/-- The map after a call; `seconds` is the caller's default duration. -/
def Content.after (sys : Sys) (seconds : UInt32) (c : Content) : Op → Content
  | .set key v => { c with slots := Function.update c.slots key (some (c.slot sys seconds v.blob)) }
  | .removeValueForKey key => { c with slots := Function.update c.slots key none }
  | .removeValuesForKeys keys => { c with slots := fun k => if k ∈ keys then none else c.slots k }
  | .clearAll => { c with slots := fun _ => none }
  | .enableAutoKeyExpire _ =>
    ⟨if c.expire then c.slots else fun k => (c.slots k).map fun v => v ++ List.replicate 4 0, true⟩
  | .disableAutoKeyExpire =>
    if c.expire then ⟨fun k => (c.slots k).bind fun v => slotValue true sys.now v, false⟩ else c
  | .trim | .sync | .clearMemoryCache | .enableCompareBeforeSet | .disableCompareBeforeSet | .reKey _ => c

/-- The default duration of the caller's instance after a call. -/
def Op.secondsAfter (expire : Bool) (seconds : UInt32) : Op → UInt32
  | .enableAutoKeyExpire s => s
  | .disableAutoKeyExpire => if expire then 0 else seconds
  | _ => seconds

/-- The key of the caller's instance after a call. -/
def Op.cryptAfter (P : Platform) (crypt : Option Cipher) : Op → Option Cipher
  | .reKey newKey => if newKey = [] then none else some (newAESCFB P.aes newKey)
  | _ => crypt

/-- The map in memory. -/
def MMKV.content (m : MMKV) : Content := ⟨OrdMap.lookup m.dict, m.enableExpire⟩

end MmkvGo.Store
