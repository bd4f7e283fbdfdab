import Pintos.Filesys.BlockMap
import Pintos.Library.Transition

/-!
# Writers and write-deniers of one inode under threads (`filesys/inode.c`)

Any number of threads run `inode_write_at`, `inode_deny_write` and `inode_allow_write` on one open inode. A step is the code
between two lock operations, which include the two inside each call of the buffer cache and of the free map. A thread that
waits on a condition variable goes on once the condition holds.

`signed deny_write_cnt` counts denials upwards and active writers downwards.
-/

namespace Pintos

open Program

/-- A call of `inode_write_at`. -/
structure WriteCall where
  buffer : List UInt8
  size : Int
  offset : Int
  deriving DecidableEq

/-- Where the write ends. -/
def WriteCall.stop (c : WriteCall) : Int := c.offset + c.size

/-- Where a thread is. -/
inductive WritePc where
  | idle
  /-- At the first `lock_acquire` of `inode_write_at`. -/
  | enter (c : WriteCall)
  /-- Counted in; at the second `lock_acquire`, or waiting for an extension to end. -/
  | settle (c : WriteCall)
  /-- In `allocate_file`, with this much of it to go. Where it has returned true, at the `lock_acquire` that follows. -/
  | growing (c : WriteCall) (p : BlockM Bool)
  /-- At the head of the copy loop, with `n` bytes written. -/
  | copy (c : WriteCall) (n : Int)
  /-- In `byte_to_sector`, with this much of it to go. -/
  | locating (c : WriteCall) (n : Int) (p : BlockM Nat)
  /-- At the `bufcache_write` of the copy loop. -/
  | put (c : WriteCall) (n : Int) (sector : Nat) (chunk : Int)
  /-- After the loop, at the last `lock_acquire`. -/
  | leave (c : WriteCall) (n : Int)
  /-- At the `lock_acquire` of `inode_deny_write`, or waiting for the writers to end. -/
  | deny (opener : Nat)
  /-- At the assertion that ends `inode_deny_write`. -/
  | denied (opener : Nat)
  /-- Stopped inside `inode_write_at`, by a panic of the block layer or by undefined behaviour. -/
  | halted (h : Halt)
  /-- Stopped by an assertion of `inode_deny_write` or `inode_allow_write`. -/
  | assertFailed

/-- The next request of the thread is `free_map_allocate`. -/
def WritePc.asksFreeMap : WritePc → Bool
  | .growing _ (.call .allocate _) => true
  | .locating _ _ (.call .allocate _) => true
  | _ => false

/-- What an opener of the inode is doing about denial. A denial is outstanding from the moment it is counted. -/
inductive Opener where
  | closed | opened | denying | counted | denied
  deriving DecidableEq

/-- The inode, the free map, the device as seen through the buffer cache, the threads, the openers, and the calls of
`inode_write_at` that have returned, with what they returned. -/
structure WriteState where
  inode : Inode
  used : Nat → Bool
  dev : Block
  threads : Nat → WritePc
  openers : Nat → Opener
  returned : List (WriteCall × Int)

/-- What the scheduler may choose: a thread starts a call, an opener comes or goes, or a thread takes its next step. `choice`
is the answer of the free map, where the step asks it. -/
inductive WriteAction where
  | write (t : Nat) (c : WriteCall)
  | deny (t opener : Nat)
  | allow (t opener : Nat)
  | reopen (opener : Nat)
  | close (opener : Nat)
  | go (t : Nat) (choice : Option Nat)

namespace WriteState

variable (s : WriteState) (t : Nat) (choice : Option Nat)

/-- What block map programs see of the state. -/
def world : BlockWorld := { data := s.inode.data, used := s.used, dev := s.dev }

/-- The state after a block map program has changed what it sees. -/
def setWorld (w : BlockWorld) : WriteState :=
  { s with inode := { s.inode with data := w.data }, used := w.used, dev := w.dev }

/-- The state with one thread moved. -/
def setPc (pc : WritePc) : WriteState :=
  { s with threads := fun u => if u = t then pc else s.threads u }

/-- The state with the inode changed. -/
def setInode (i : Inode) : WriteState := { s with inode := i }

/-- The state with one opener changed. -/
def setOpener (o : Nat) (x : Opener) : WriteState :=
  { s with openers := fun q => if q = o then x else s.openers q }

/-- A thread returns from `inode_write_at`. -/
def ret (c : WriteCall) (result : Int) : WriteState :=
  { s with returned := (c, result) :: s.returned }.setPc t .idle

/-- One request of a block map program that a thread is in. -/
def request (o : BlockOp) (next : o.Res → WritePc) : Option WriteState :=
  if s.world.mayChoose choice then
    match o.exec choice s.world with
    | .ok (r, w) => some ((s.setWorld w).setPc t (next r))
    | .error h => some (s.setPc t (.halted h))
  else none

/-- The next step of a thread inside a call. -/
def advance : WritePc → Option WriteState
  | .idle => none
  | .enter c =>
    match s.inode.enterWrite with
    | none => some (s.ret t c 0)
    | some i => some ((s.setInode i).setPc t (.settle c))
  | .settle c =>
    if s.inode.extending then none
    else if s.inode.needsGrowth c.size c.offset then
      some ((s.setInode s.inode.beginGrowth).setPc t (.growing c (allocateBlocks (toInt32 (c.size + c.offset)))))
    else some (s.setPc t (.copy c 0))
  | .growing c (.ret true) => some ((s.setInode (s.inode.endGrowth (toInt32 (c.size + c.offset)))).setPc t (.copy c 0))
  | .growing c (.ret false) => some (s.setPc t (.copy c 0))
  | .growing c (.call o k) => s.request t choice o (fun r => .growing c (k r))
  | .copy c n =>
    if 0 < c.size - n then some (s.setPc t (.locating c n (byteToSector (c.offset + n)))) else some (s.setPc t (.leave c n))
  | .locating c n (.ret sector) =>
    let chunk := chunkSize s.inode.data.length (c.size - n) (c.offset + n)
    if chunk ≤ 0 then some (s.setPc t (.leave c n)) else some (s.setPc t (.put c n sector chunk))
  | .locating c n (.call o k) => s.request t choice o (fun r => .locating c n (k r))
  | .put c n sector chunk =>
    if s.dev.checkSector sector then
      let bytes := (c.buffer.drop n.toNat).take chunk.toNat
      let block := (s.dev.disk sector).splice (sectorOfs (c.offset + n)).toNat bytes
      some ((s.setWorld (s.world.put sector block)).setPc t (.copy c (n + chunk)))
    else some (s.setPc t (.halted .panic))
  | .leave c n => some ((s.setInode s.inode.leaveWrite).ret t c n)
  | .deny o =>
    if s.inode.denyWriteCnt < 0 then none
    else some (((s.setInode s.inode.denyWrite).setOpener o .counted).setPc t (.denied o))
  | .denied o =>
    if s.inode.denyWriteCnt ≤ s.inode.openCnt then some ((s.setOpener o .denied).setPc t .idle)
    else some (s.setPc t .assertFailed)
  | .halted _ => none
  | .assertFailed => none

/-- A step of the system. An opener denies at most once and allows after that; it is closed only while it does neither, and
the inode stays open. -/
def step : WriteAction → Option WriteState
  | .write t c =>
    match s.threads t with
    | .idle => some (s.setPc t (.enter c))
    | _ => none
  | .deny t o =>
    match s.threads t, s.openers o with
    | .idle, .opened => some ((s.setOpener o .denying).setPc t (.deny o))
    | _, _ => none
  | .allow t o =>
    match s.threads t, s.openers o with
    | .idle, .denied =>
      if 0 < s.inode.denyWriteCnt ∧ s.inode.denyWriteCnt ≤ s.inode.openCnt then
        some ((s.setInode s.inode.allowWrite).setOpener o .opened)
      else some (s.setPc t .assertFailed)
    | _, _ => none
  | .reopen o =>
    match s.openers o with
    | .closed => some ((s.setInode { s.inode with openCnt := s.inode.openCnt + 1 }).setOpener o .opened)
    | _ => none
  | .close o =>
    match s.openers o with
    | .opened =>
      if 1 < s.inode.openCnt then some ((s.setInode { s.inode with openCnt := s.inode.openCnt - 1 }).setOpener o .closed)
      else none
    | _ => none
  | .go t choice => s.advance t choice (s.threads t)

end WriteState

variable (sector : Nat) (w : BlockWorld)

/-- The inode as `inode_open` leaves it, with one opener, and no thread in a call. -/
def WriteState.start : WriteState where
  inode := { sector := sector, openCnt := 1, removed := false, extending := false, denyWriteCnt := 0, data := w.data }
  used := w.used
  dev := w.dev
  threads := fun _ => .idle
  openers := fun o => if o = 0 then .opened else .closed
  returned := []

/-- Every interleaving of the calls of every thread on the inode. -/
def writeSystem : Transition.System WriteState WriteAction where
  init s := s = WriteState.start sector w
  step := WriteState.step

end Pintos
