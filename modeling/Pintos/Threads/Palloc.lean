import Pintos.Library.Transition
import Pintos.Threads.Synch
import Pintos.Threads.Vaddr

/-!
# The page allocator (`threads/palloc.c`, `lib/kernel/bitmap.c`)

Memory above 1 MB is split into a kernel pool and a user pool, each of which starts with the bitmap of its used pages.
`palloc_get_multiple` looks for a run of clear bits and sets them under the lock of the pool. `palloc_free_multiple` takes no
lock.

Any number of threads run the two functions. A step of a thread is one test, one `orl` or one `andl` of a bit.
-/

namespace Pintos

/-- `kernel_pool` and `user_pool`. -/
inductive PoolId where
  | kernel
  | user
  deriving DecidableEq, Repr

/-- `struct pool` without its lock and bits: where the bitmap is and how many bits it has, and where the pages begin. -/
structure Pool where
  usedMap : Nat
  bitCnt : Nat
  base : Nat
  deriving DecidableEq, Repr

/-- The assertions and panics of the allocator. -/
inductive PallocFault where
  /-- The panic of `init_pool`. -/
  | notEnoughMemory
  /-- The assertion of `bitmap_create_in_buf` on the size of the buffer. -/
  | bufSize
  /-- An assertion of `bitmap.c` on the index of a bit, or on a range of bits. -/
  | bitIndex
  /-- The assertion of `lock_acquire` that the thread does not hold the lock, or that of `lock_release` that it does. -/
  | lockHolder
  /-- The panic of a call with `PAL_ASSERT`. -/
  | outOfPages
  /-- The assertion that the address is that of a page. -/
  | pageOffset
  /-- `NOT_REACHED`, for a page of neither pool. -/
  | noPool
  /-- The assertion `bitmap_all`. -/
  | bitmapAll
  deriving DecidableEq, Repr

/-! ## The pools -/

/-- `ptov`. -/
def ptov (paddr : Nat) : Nat := physBase + paddr

/-- `init_ram_pages`, which `start.S` computes from the kilobytes above 1 MB that the BIOS reports. -/
def initRamPages (ax : Nat) : Nat := min (ax + 1024) 0x10000 / 4

/-- `bitmap_buf_size`: a `struct bitmap` and an element for every 32 bits. -/
def bitmapBufSize (bitCnt : Nat) : Nat := 8 + 4 * ((bitCnt + 32 - 1) / 32)

/-- `init_pool`. -/
def initPool (base pageCnt : Nat) : Except PallocFault Pool :=
  let bmPages := (bitmapBufSize pageCnt + pgsize - 1) / pgsize
  if pageCnt < bmPages then .error .notEnoughMemory
  else if bmPages * pgsize < bitmapBufSize (pageCnt - bmPages) then .error .bufSize
  else .ok { usedMap := base, bitCnt := pageCnt - bmPages, base := base + bmPages * pgsize }

/-- `palloc_init`. -/
def pallocInit (ramPages userPageLimit : Nat) : Except PallocFault (PoolId → Pool) := do
  let freeStart := ptov (1024 * 1024)
  let freeEnd := ptov (ramPages * pgsize)
  let freePages := (freeEnd - freeStart) / pgsize
  let userPages := min (freePages / 2) userPageLimit
  let kernelPages := freePages - userPages
  let kernel ← initPool freeStart kernelPages
  let user ← initPool (freeStart + kernelPages * pgsize) userPages
  return fun
    | .kernel => kernel
    | .user => user

/-- `page_from_pool`. -/
def Pool.pageFromPool (pool : Pool) (page : Nat) : Bool :=
  decide (pgNo pool.base ≤ pgNo page ∧ pgNo page < pgNo pool.base + pool.bitCnt)

/-! ## The threads -/

/-- `enum palloc_flags`. -/
structure PallocFlags where
  assert : Bool
  zero : Bool
  user : Bool
  deriving DecidableEq, Repr

/-- The pool that the flags select. -/
def PallocFlags.pool (flags : PallocFlags) : PoolId := if flags.user then .user else .kernel

/-- Pages that a call of `palloc_get_multiple` with these flags has returned. -/
structure PageGroup where
  flags : PallocFlags
  pages : Nat
  cnt : Nat
  deriving DecidableEq, Repr

/-- Where a thread is. -/
inductive PallocPc where
  | idle
  /-- In `palloc_get_multiple`, about to take the lock. -/
  | acquire (flags : PallocFlags) (cnt : Nat)
  /-- In the loops of `bitmap_scan` and `bitmap_contains`, about to test bit `j` of the run that starts at `i`. -/
  | scan (flags : PallocFlags) (cnt i j : Nat)
  /-- In `bitmap_set_multiple` for the run at `idx`, with `k` bits set. -/
  | flip (flags : PallocFlags) (cnt idx k : Nat)
  /-- About to release the lock, with the result of the scan. -/
  | release (flags : PallocFlags) (cnt : Nat) (result : Option Nat)
  /-- Behind the lock, about to return. -/
  | back (flags : PallocFlags) (cnt : Nat) (result : Option Nat)
  /-- In `palloc_free_multiple`, about to test bit `k` of the group for `bitmap_all`. -/
  | test (pool : PoolId) (cnt idx k : Nat)
  /-- In `bitmap_set_multiple` of `palloc_free_multiple`, with `k` bits cleared. -/
  | clear (pool : PoolId) (cnt idx k : Nat)
  deriving DecidableEq

/-- The bits and locks of the pools, the threads, the groups returned and not yet given to `palloc_free_multiple`, and the
fault that stopped the machine, if one did. -/
structure PallocState where
  bits : PoolId → Nat → Bool
  lock : PoolId → Option Thread
  threads : Thread → PallocPc
  live : List PageGroup
  failed : Option PallocFault

/-- What the scheduler may choose: a thread calls one of the functions, or takes its next step. -/
inductive PallocAction where
  | get (t : Thread) (flags : PallocFlags) (cnt : Nat)
  | free (t : Thread) (group : PageGroup)
  | go (t : Thread)

namespace PallocState

variable (s : PallocState) (t : Thread) (p : PoolId)

/-- The state with a thread moved. -/
def setPc (pc : PallocPc) : PallocState := { s with threads := Function.update s.threads t pc }

/-- The state with a bit written. -/
def setBit (i : Nat) (value : Bool) : PallocState :=
  { s with bits := Function.update s.bits p (Function.update (s.bits p) i value) }

/-- The state with the holder of a lock set. -/
def setLock (holder : Option Thread) : PallocState :=
  { s with lock := Function.update s.lock p holder }

/-- The machine stops. -/
def fail (e : PallocFault) : PallocState := { s with failed := some e }

variable (pools : PoolId → Pool)

/-- `bitmap_contains` is called for the run at `i`, with its assertions. -/
def enterContains (s : PallocState) (t : Thread) (flags : PallocFlags) (cnt i : Nat) : PallocState :=
  if i + cnt ≤ (pools flags.pool).bitCnt then s.setPc t (.scan flags cnt i 0) else s.fail .bitIndex

/-- `lock_acquire`, which waits for another holder, and the start of `bitmap_scan`. -/
def acquireStep (s : PallocState) (t : Thread) (flags : PallocFlags) (cnt : Nat) : Option PallocState :=
  match s.lock flags.pool with
  | some u => if u = t then some (s.fail .lockHolder) else none
  | none =>
    let s := s.setLock flags.pool (some t)
    if cnt ≤ (pools flags.pool).bitCnt then some (s.enterContains pools t flags cnt 0)
    else some (s.setPc t (.release flags cnt none))

/-- A turn of the loops of the scan: a set bit ends the inner loop, and a run without set bits ends both. -/
def scanStep (s : PallocState) (t : Thread) (flags : PallocFlags) (cnt i j : Nat) : PallocState :=
  let bitCnt := (pools flags.pool).bitCnt
  if j < cnt then
    if i + j < bitCnt then
      if s.bits flags.pool (i + j) then
        if i + 1 ≤ bitCnt - cnt then s.enterContains pools t flags cnt (i + 1) else s.setPc t (.release flags cnt none)
      else s.setPc t (.scan flags cnt i (j + 1))
    else s.fail .bitIndex
  else if i + cnt ≤ bitCnt then s.setPc t (.flip flags cnt i 0)
  else s.fail .bitIndex

/-- A turn of the loop that sets the bits. -/
def flipStep (s : PallocState) (t : Thread) (flags : PallocFlags) (cnt idx k : Nat) : PallocState :=
  if k < cnt then
    if idx + k < (pools flags.pool).bitCnt then (s.setBit flags.pool (idx + k) true).setPc t (.flip flags cnt idx (k + 1))
    else s.fail .bitIndex
  else s.setPc t (.release flags cnt (some idx))

/-- `lock_release`. -/
def releaseStep (flags : PallocFlags) (cnt : Nat) (result : Option Nat) : PallocState :=
  if s.lock flags.pool = some t then (s.setLock flags.pool none).setPc t (.back flags cnt result) else s.fail .lockHolder

/-- The return of `palloc_get_multiple`. -/
def backStep (s : PallocState) (t : Thread) (flags : PallocFlags) (cnt : Nat) (result : Option Nat) : PallocState :=
  match result with
  | some idx =>
    let group := { flags := flags, pages := (pools flags.pool).base + pgsize * idx, cnt := cnt }
    setPc { s with live := group :: s.live } t .idle
  | none => if flags.assert then s.fail .outOfPages else s.setPc t .idle

/-- The start of `palloc_free_multiple`, up to the first access to a bit. -/
def freeCall (s : PallocState) (t : Thread) (pages cnt : Nat) : PallocState :=
  if pgOfs pages ≠ 0 then s.fail .pageOffset
  else if pages = 0 ∨ cnt = 0 then s
  else
    let start (p : PoolId) : PallocState :=
      let idx := pgNo pages - pgNo (pools p).base
      if idx + cnt ≤ (pools p).bitCnt then s.setPc t (.test p cnt idx 0) else s.fail .bitIndex
    if (pools .kernel).pageFromPool pages then start .kernel
    else if (pools .user).pageFromPool pages then start .user
    else s.fail .noPool

/-- A turn of the loop of `bitmap_all`, and the assertion on its result. -/
def testStep (s : PallocState) (t : Thread) (p : PoolId) (cnt idx k : Nat) : PallocState :=
  if k < cnt then
    if idx + k < (pools p).bitCnt then if s.bits p (idx + k) then s.setPc t (.test p cnt idx (k + 1)) else s.fail .bitmapAll
    else s.fail .bitIndex
  else if idx + cnt ≤ (pools p).bitCnt then s.setPc t (.clear p cnt idx 0)
  else s.fail .bitIndex

/-- A turn of the loop that clears the bits. -/
def clearStep (s : PallocState) (t : Thread) (p : PoolId) (cnt idx k : Nat) : PallocState :=
  if k < cnt then
    if idx + k < (pools p).bitCnt then (s.setBit p (idx + k) false).setPc t (.clear p cnt idx (k + 1)) else s.fail .bitIndex
  else s.setPc t .idle

/-- A step of the system. Only groups that are live are freed, each by one call. -/
def step (s : PallocState) (a : PallocAction) : Option PallocState :=
  if s.failed.isSome then none
  else
    match a with
    | .get t flags cnt =>
      if s.threads t = .idle then if cnt = 0 then some s else some (s.setPc t (.acquire flags cnt)) else none
    | .free t group =>
      if s.threads t = .idle ∧ group ∈ s.live then some (freeCall pools { s with live := s.live.erase group }
        t group.pages group.cnt)
      else none
    | .go t =>
      match s.threads t with
      | .idle => none
      | .acquire flags cnt => s.acquireStep pools t flags cnt
      | .scan flags cnt i j => some (s.scanStep pools t flags cnt i j)
      | .flip flags cnt idx k => some (s.flipStep pools t flags cnt idx k)
      | .release flags cnt result => some (s.releaseStep t flags cnt result)
      | .back flags cnt result => some (s.backStep pools t flags cnt result)
      | .test p cnt idx k => some (s.testStep pools t p cnt idx k)
      | .clear p cnt idx k => some (s.clearStep pools t p cnt idx k)

/-- The state after `palloc_init`. -/
def start : PallocState :=
  { bits := fun _ _ => false, lock := fun _ => none, threads := fun _ => .idle, live := [], failed := none }

end PallocState

/-- Every interleaving of the calls of every thread. -/
def pallocSystem (pools : PoolId → Pool) : Transition.System PallocState PallocAction where
  init s := s = PallocState.start
  step := PallocState.step pools

end Pintos
