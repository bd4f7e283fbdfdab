import Pintos.Filesys.Bufcache
import Pintos.Threads.Synch

/-!
# The buffer cache under one thread (`filesys/bufcache.c`)

The same functions as in `Pintos.Filesys.Bufcache`, run from one call to its return by the only thread there is, with
`cache_lock` as an object of its own. Nobody else takes the lock and nobody else wakes a sleeper up, so a `sema_down` at
value 0 and a `cond_wait` never return.
-/

namespace Pintos

/-- What ends a call before it returns. -/
inductive CacheFault where
  /-- The assertion that the bytes lie in one sector. -/
  | inSector
  /-- The assertion of `lock_acquire` that the thread does not hold the lock. -/
  | lockAcquire
  /-- The assertion of `lock_release` that the thread holds the lock. -/
  | lockRelease
  /-- The assertion of `clean` that the entry is dirty. -/
  | notDirty
  /-- The assertion of `replace` that the entry is not dirty. -/
  | dirty
  /-- The panic of `check_sector`. -/
  | pastEnd
  /-- A sleep that nobody ends. -/
  | asleep
  /-- More turns of the loop of `bufcache_access` than the model gives it. -/
  | turns
  deriving DecidableEq, Repr

/-- The cache, its device, `cache_lock` and the sectors read from the device so far. -/
structure CacheMachine where
  cache : Cache
  dev : Block
  lock : Lock
  reads : List Nat

/-- The one thread. -/
def onlyThread : Thread := 0

namespace CacheMachine

/-- The state after `bufcache_init`. -/
def start (dev : Block) : CacheMachine := { cache := Cache.init, dev := dev, lock := lockInit, reads := [] }

variable (m : CacheMachine) (i : Slot) (sector : Nat)

/-- `lock_acquire (&cache_lock)`. -/
def lockAcquire : Except CacheFault CacheMachine :=
  if lockHeldByCurrentThread m.lock onlyThread then .error .lockAcquire
  else
    match semaDown m.lock.semaphore onlyThread with
    | (sema, true) => .ok { m with lock := { holder := some onlyThread, semaphore := sema } }
    | (_, false) => .error .asleep

/-- `lock_release (&cache_lock)`. -/
def lockRelease : Except CacheFault CacheMachine :=
  if lockHeldByCurrentThread m.lock onlyThread then .ok
    { m with lock := { holder := none, semaphore := (semaUp m.lock.semaphore).1 } }
  else .error .lockRelease

/-- `block_write` on the device. -/
def blockWrite (c : Contents) : Except CacheFault CacheMachine :=
  match m.dev.write sector c with
  | some dev => .ok { m with dev := dev }
  | none => .error .pastEnd

/-- `block_read` on the device. -/
def blockRead : Except CacheFault (Contents × CacheMachine) :=
  match m.dev.read sector with
  | some c => .ok (c, { m with reads := m.reads ++ [sector] })
  | none => .error .pastEnd

/-- `clean`. -/
def clean : Except CacheFault CacheMachine :=
  if (m.cache.entries i).dirty then do
    let m := { m with cache := m.cache.startClean i }
    let m ← m.lockRelease
    let m ← m.blockWrite (m.cache.entries i).sector (m.cache.entries i).contents
    let m ← m.lockAcquire
    return { m with cache := m.cache.finishClean i }
  else .error .notDirty

/-- `replace`. -/
def replace : Except CacheFault CacheMachine :=
  if (m.cache.entries i).dirty then .error .dirty
  else do
    let m := { m with cache := m.cache.startReplace i sector }
    let m ← m.lockRelease
    let (bytes, m) ← m.blockRead sector
    let m := { m with cache := m.cache.load i bytes }
    let m ← m.lockAcquire
    return { m with cache := m.cache.finishReplace i }

/-- The loop of `bufcache_access`, for a number of turns. -/
def bufcacheAccess : Nat → CacheMachine → Nat → Except CacheFault (CacheMachine × Slot)
  | 0, _, _ => .error .turns
  | turns + 1, m, sector =>
    match m.cache.access sector with
    | .hit i => .ok ({ m with cache := m.cache.touch i }, i)
    | .waitReady _ => .error .asleep
    | .waitOne => .error .asleep
    | .clean i => do
      let m ← m.clean i
      bufcacheAccess turns m sector
    | .replace i => do
      let m ← m.replace i sector
      bufcacheAccess turns m sector

/-- The turns that the loop needs at most: one that cleans an entry, one that replaces it and one that finds it. -/
def accessTurns : Nat := 3

/-- `bufcache_read`. -/
def bufcacheRead (ofs length : Nat) : Except CacheFault (List UInt8 × CacheMachine) :=
  if ofs + length ≤ blockSectorSize then do
    let m ← m.lockAcquire
    let (m, i) ← bufcacheAccess accessTurns m sector
    let bytes := (m.cache.entries i).contents.slice ofs length
    let m ← m.lockRelease
    return (bytes, m)
  else .error .inSector

/-- `bufcache_write`. -/
def bufcacheWrite (ofs : Nat) (buffer : List UInt8) : Except CacheFault CacheMachine :=
  if ofs + buffer.length ≤ blockSectorSize then do
    let m ← m.lockAcquire
    let (m, i) ← bufcacheAccess accessTurns m sector
    let m := { m with cache := m.cache.store i ofs buffer }
    m.lockRelease
  else .error .inSector

/-- The body of the loop of `bufcache_flush`. -/
def flushEntry : Except CacheFault CacheMachine :=
  if (m.cache.entries i).dirty && (m.cache.entries i).ready then m.clean i else .ok m

/-- `bufcache_flush`. It takes the lock and does not release it. -/
def bufcacheFlush : Except CacheFault CacheMachine := do
  let m ← m.lockAcquire
  (List.finRange numEntries).foldlM flushEntry m

end CacheMachine

/-- An operation: a call of `bufcache_read` or `bufcache_write`, or a call of `bufcache_flush`. -/
inductive CacheOp where
  | call (c : CacheCall)
  | flush

namespace CacheMachine

/-- An operation, with the bytes that it reads. -/
def exec (m : CacheMachine) : CacheOp → Except CacheFault (List (List UInt8) × CacheMachine)
  | .call (.read sector ofs length) => do
    let (bytes, m) ← m.bufcacheRead sector ofs length
    return ([bytes], m)
  | .call (.write sector ofs buffer) => do
    let m ← m.bufcacheWrite sector ofs buffer
    return ([], m)
  | .flush => do
    let m ← m.bufcacheFlush
    return ([], m)

/-- Operations one after the other, with the bytes that each read returned. -/
def run (m : CacheMachine) : List CacheOp → Except CacheFault (List (List UInt8) × CacheMachine)
  | [] => .ok ([], m)
  | op :: ops => do
    let (r, m) ← m.exec op
    let (rs, m) ← m.run ops
    return (r ++ rs, m)

end CacheMachine

end Pintos
