import MmkvGo.Crash.Damage
import MmkvGo.Crash.Kills
import MmkvGo.Crash.Rewrite
import MmkvGo.Crypt.Blockwise
import MmkvGo.Lock.Deadlock
import MmkvGo.Multi.Counter
import MmkvGo.Multi.LiveReader
import MmkvGo.Multi.Opening
import MmkvGo.Multi.Undecodable
import MmkvGo.Multi.ZeroCopy
import MmkvGo.Path.Files
import MmkvGo.Registry.OneLive
import MmkvGo.Store.Amortize
import MmkvGo.Store.Backup
import MmkvGo.Store.Bounds
import MmkvGo.Store.Deadline
import MmkvGo.Store.Import
import MmkvGo.Store.Legacy
import MmkvGo.Store.Limits
import MmkvGo.Store.ReKey
import MmkvGo.Store.Trim
import MmkvGo.Store.WrongKey
import MmkvGo.Wire.Greedy
import MmkvGo.Wire.Replay
