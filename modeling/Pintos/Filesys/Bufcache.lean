import Mathlib.Data.List.FinRange
import Pintos.Filesys.Block
import Pintos.Library.Transition

/-!
# The buffer cache (`filesys/bufcache.c`)

The cache holds 64 sectors. A thread that wants a sector takes `cache_lock` and turns the loop of `bufcache_access`: it finds
the sector, or waits for the entry that is being changed, or picks the least recently used ready entry and cleans it or
replaces it. `clean` and `replace` give the lock up around the disk access, with the entry marked not ready.

`Cache` is the data that `cache_lock` protects, with one function for each locked stretch of code. `CacheState` adds the
device and the threads: a step is one thread running from one point where it may give up the lock to the next.
-/

namespace Pintos

/-- `NUM_ENTRIES`: the number of cached sectors. -/
def numEntries : Nat := 64

/-- The index of a cache entry. -/
abbrev Slot : Type := Fin numEntries

/-- `struct metadata`, with the bytes its `entry` points to (entry `i` points to `cached_data[i]` for good). -/
structure Metadata where
  sector : Nat
  contents : Contents
  ready : Bool
  dirty : Bool

/-- The entries and the list of them, most recently used first. -/
structure Cache where
  entries : Slot → Metadata
  lru : List Slot

/-- The entry that `bufcache_init` leaves: ready, clean, of no sector, over zeroed static storage. -/
def Metadata.init : Metadata := { sector := invalidSector, contents := Contents.fill 0, ready := true, dirty := false }

/-- `bufcache_init`: every entry of no sector, each pushed to the front of the list in turn. -/
def Cache.init : Cache :=
  { entries := fun _ => Metadata.init, lru := (List.finRange numEntries).foldl (fun l i => i :: l) [] }

namespace Cache

variable (c : Cache) (i : Slot) (sector : Nat)

/-- The cache with one entry changed. -/
def setEntry (m : Metadata) : Cache := { c with entries := Function.update c.entries i m }

/-- `find`: the first entry of the sector. -/
def find : Option Slot :=
  (List.finRange numEntries).find? (fun i => sector == (c.entries i).sector)

/-- `get_eviction_candidate`: the ready entry that was used longest ago. -/
def getEvictionCandidate : Option Slot := c.lru.reverse.find? (fun i => (c.entries i).ready)

/-- `list_remove` and `list_push_front`: the entry becomes the most recently used one. -/
def touch : Cache := { c with lru := i :: c.lru.erase i }

/-- `clean` up to the point where it gives up the lock. -/
def startClean : Cache := c.setEntry i { c.entries i with ready := false }

/-- `clean` from the point where it takes the lock again. -/
def finishClean : Cache := c.setEntry i { c.entries i with ready := true, dirty := false }

/-- `replace` up to the point where it gives up the lock. -/
def startReplace : Cache :=
  c.setEntry i { c.entries i with sector := sector, ready := false }

/-- The bytes that `block_read` brings into the entry, while the lock is given up. -/
def load (bytes : Contents) : Cache := c.setEntry i { c.entries i with contents := bytes }

/-- `replace` from the point where it takes the lock again. -/
def finishReplace : Cache := c.setEntry i { c.entries i with ready := true }

/-- The `memcpy` of `bufcache_write`, and the mark that the entry differs from the disk. -/
def store (ofs : Nat) (buffer : List UInt8) : Cache :=
  c.setEntry i { c.entries i with contents := (c.entries i).contents.splice ofs buffer, dirty := true }

/-- How one turn of the loop of `bufcache_access` ends. -/
inductive Turn where
  | hit (i : Slot)
  | waitReady (i : Slot)
  | waitOne
  | clean (i : Slot)
  | replace (i : Slot)

/-- One turn of the loop of `bufcache_access`. -/
def access : Turn :=
  match c.find sector with
  | some i => if (c.entries i).ready then .hit i else .waitReady i
  | none =>
    match c.getEvictionCandidate with
    | none => .waitOne
    | some i => if (c.entries i).dirty then .clean i else .replace i

end Cache

/-- A call of `bufcache_read` or `bufcache_write`. -/
inductive CacheCall where
  | read (sector ofs length : Nat)
  | write (sector ofs : Nat) (buffer : List UInt8)

namespace CacheCall

/-- The sector a call is about. -/
def sector : CacheCall → Nat
  | .read x _ _ => x
  | .write x _ _ => x

/-- The assertion at the head of both functions: the bytes named lie in one sector. (The callers keep the offset and the
length below a sector each, so that the sum does not leave a `size_t`.) -/
def inSector : CacheCall → Bool
  | .read _ ofs length => decide (ofs + length ≤ blockSectorSize)
  | .write _ ofs buffer => decide (ofs + buffer.length ≤ blockSectorSize)

end CacheCall

/-- One locked `memcpy`: what was read for a request of so many bytes, or what was written. -/
inductive CacheEvent where
  | read (sector ofs length : Nat) (bytes : List UInt8)
  | write (sector ofs : Nat) (bytes : List UInt8)
  deriving DecidableEq

/-- Where a thread is in its call. -/
inductive CachePc where
  | idle
  /-- At `lock_acquire`, on entry or after a wait; next it turns the loop of `bufcache_access`. -/
  | acquiring (call : CacheCall)
  /-- In `cond_wait` on an entry's `until_ready`. -/
  | waitReady (call : CacheCall) (i : Slot)
  /-- In `cond_wait` on `until_one_ready`. -/
  | waitOne (call : CacheCall)
  /-- In `clean`, before `block_write`. -/
  | cleaning (call : CacheCall) (i : Slot)
  /-- In `clean`, after `block_write`, at `lock_acquire`. -/
  | cleaned (call : CacheCall) (i : Slot)
  /-- In `replace`, before `block_read`. -/
  | loading (call : CacheCall) (i : Slot)
  /-- In `replace`, after `block_read`, at `lock_acquire`. -/
  | loaded (call : CacheCall) (i : Slot)

/-- The whole system: the cache, the device, every thread, the `memcpy` sections so far (latest first) and whether it
panicked. -/
structure CacheState where
  cache : Cache
  dev : Block
  threads : Nat → CachePc
  log : List CacheEvent
  panicked : Bool

/-- What the scheduler may choose: a thread that is not in a call starts one, or a thread goes on to where it next may lose
the lock. -/
inductive CacheAction where
  | call (t : Nat) (c : CacheCall)
  | go (t : Nat)

namespace CacheState

variable (s : CacheState) (t : Nat) (i : Slot)

/-- The state with one thread moved. -/
def setPc (pc : CachePc) : CacheState :=
  { s with threads := fun u => if u = t then pc else s.threads u }

/-- `cond_broadcast` of an entry's `until_ready` and of `until_one_ready`: those waiting go to take the lock. -/
def broadcast : CacheState :=
  { s with
    threads := fun u =>
      match s.threads u with
      | .waitReady call j => if j = i then .acquiring call else .waitReady call j
      | .waitOne call => .acquiring call
      | pc => pc }

/-- The `memcpy` of `bufcache_read` or `bufcache_write` on the entry found, and the return. -/
def finish : CacheCall → CacheState
  | .read x ofs length =>
    { s with
      cache := s.cache.touch i
      log := .read x ofs length ((s.cache.entries i).contents.slice ofs length) :: s.log }.setPc t .idle
  | .write x ofs buffer =>
    { s with
      cache := (s.cache.touch i).store i ofs buffer
      log := .write x ofs buffer :: s.log }.setPc t .idle

/-- A thread that holds the lock turns the loop of `bufcache_access` once: the turn ends the call or gives up the lock. -/
def turn (call : CacheCall) : CacheState :=
  match s.cache.access call.sector with
  | .hit i => s.finish t i call
  | .waitReady i => s.setPc t (.waitReady call i)
  | .waitOne => s.setPc t (.waitOne call)
  | .clean i => { s with cache := s.cache.startClean i }.setPc t (.cleaning call i)
  | .replace i => { s with cache := s.cache.startReplace i call.sector }.setPc t (.loading call i)

/-- A thread goes on to where it next may lose the lock. A thread in `cond_wait` cannot until it is woken. -/
def go : Option CacheState :=
  match s.threads t with
  | .idle => none
  | .waitReady _ _ => none
  | .waitOne _ => none
  | .acquiring call => some (s.turn t call)
  | .cleaning call i =>
    match s.dev.write (s.cache.entries i).sector (s.cache.entries i).contents with
    | some d => some ({ s with dev := d }.setPc t (.cleaned call i))
    | none => some { s with panicked := true }
  | .cleaned call i => some (({ s with cache := s.cache.finishClean i }.broadcast i).turn t call)
  | .loading call i =>
    match s.dev.read call.sector with
    | some b => some ({ s with cache := s.cache.load i b }.setPc t (.loaded call i))
    | none => some { s with panicked := true }
  | .loaded call i => some (({ s with cache := s.cache.finishReplace i }.broadcast i).turn t call)

/-- A step of the system. Nothing moves after a panic. The calls are about sectors other than the invalid one. -/
def step : CacheAction → Option CacheState
  | .call t c =>
    match s.threads t with
    | .idle =>
      if s.panicked ∨ c.sector = invalidSector then none
      else if c.inSector then some (s.setPc t (.acquiring c))
      else some { s with panicked := true }
    | _ => none
  | .go t => if s.panicked then none else s.go t

end CacheState

variable (dev : Block)

/-- The system as `bufcache_init` leaves it over a device, with no thread in a call. -/
def CacheState.start : CacheState :=
  { cache := Cache.init, dev := dev, threads := fun _ => .idle, log := [], panicked := false }

/-- Every interleaving of the calls of every thread, over one device. -/
def cacheSystem : Transition.System CacheState CacheAction where
  init s := s = CacheState.start dev
  step := CacheState.step

/-- The byte of a sector after the `memcpy` sections of a log (latest first): that of the latest write over it, or the one
that the disk held at first. -/
def valueAfter (disk : Nat → Contents) : List CacheEvent → Nat → Contents
  | [], x => disk x
  | .read _ _ _ _ :: log, x => valueAfter disk log x
  | .write y ofs bytes :: log, x => if y = x then (valueAfter disk log x).splice ofs bytes else valueAfter disk log x

/-- Every read of a log returned, byte for byte, what the writes before it left. -/
def ReadsLatest (disk : Nat → Contents) : List CacheEvent → Prop
  | [] => True
  | .read x ofs length bytes :: log => bytes = (valueAfter disk log x).slice ofs length ∧ ReadsLatest disk log
  | .write _ _ _ :: log => ReadsLatest disk log

end Pintos
