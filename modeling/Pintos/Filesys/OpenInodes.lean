import Pintos.Filesys.Inode
import Pintos.Library.Transition

/-!
# The table of open inodes under threads (`filesys/inode.c`: `inode_open`, `inode_reopen`, `inode_close`)

Any number of threads open sectors and close what they opened. A step is the code between two lock operations or allocation
calls. `inode_open` looks the sector up under `open_inodes_lock`; if it is not there it gives up the lock, allocates, takes
the lock to push the new `struct inode`, and fills it in after giving up the lock. `inode_close` takes no lock at all.

Memory is explicit: `malloc` returns any free address, and what it returns holds whatever it held. For the statements only,
each structure also carries the sector that it was allocated for and how far its life has gone.
-/

namespace Pintos

/-- How far the life of an allocated `struct inode` has gone: allocated, pushed on the list, its fields assigned, its data
read, and unlinked again by its last closer. -/
inductive Stage where
  | allocated | pushed | assigned | loaded | unlinked
  deriving DecidableEq

/-- An allocated `struct inode`, the sector it is for and the stage of its life. -/
structure InodeCell where
  inode : Inode
  target : Nat
  stage : Stage

/-- Where a thread is. -/
inductive TablePc where
  | idle
  /-- In `inode_open`, at the first `lock_acquire`. -/
  | lookup (sector : Nat)
  /-- The sector was not on the list; at `malloc`. -/
  | missed (sector : Nat)
  /-- At the second `lock_acquire`. -/
  | pushing (sector addr : Nat)
  /-- On the list; the lock is released and the fields come next. -/
  | filling (sector addr : Nat)
  /-- The fields are assigned; at `bufcache_read`. -/
  | reading (sector addr : Nat)
  /-- In `inode_close` as the last closer, unlinked; at `bufcache_write`. -/
  | writing (addr : Nat)
  /-- Written back, and the inode was removed; at the first call of `deallocate_file`. -/
  | deallocating (addr : Nat)
  /-- At `free`. -/
  | freeing (addr : Nat)
  deriving DecidableEq

/-- The system: memory, the list, the disk as seen through the buffer cache, the threads, and the references handed out to
threads and not yet closed. -/
structure TableState where
  cells : Nat → Option InodeCell
  openInodes : List Nat
  disk : Nat → Contents
  threads : Nat → TablePc
  refs : List (Nat × Nat)

/-- What the scheduler may choose. The address and the old bytes are what `malloc` finds; `none` is its null pointer. -/
inductive TableAction where
  | openSector (t sector : Nat)
  | close (t addr : Nat)
  | malloc (t : Nat) (result : Option (Nat × Inode))
  | go (t : Nat)

namespace TableState

variable (s : TableState) (sector t a : Nat) (c : InodeCell)

/-- The state with one thread moved. -/
def setPc (pc : TablePc) : TableState :=
  { s with threads := fun u => if u = t then pc else s.threads u }

/-- The state with the memory at one address changed. -/
def setCell (c : Option InodeCell) : TableState :=
  { s with cells := fun b => if b = a then c else s.cells b }

/-- The sector field of the structure at an address. -/
def sectorAt : Option Nat := (s.cells a).map (·.inode.sector)

/-- The scan of `inode_open`: the first structure on the list whose sector field is the sector. -/
def scan : Option Nat := s.openInodes.find? (fun a => s.sectorAt a == some sector)

/-- `inode_reopen` of what the scan found, by a thread that gets the reference. -/
def reopen : TableState :=
  { s.setCell a (some { c with inode := { c.inode with openCnt := c.inode.openCnt + 1 } }) with refs := (t, a) :: s.refs }

/-- The assignments of `inode_open` after the push. -/
def assign : InodeCell :=
  { c with
    inode := { c.inode with sector := sector, openCnt := 1, denyWriteCnt := 0, removed := false, extending := false }
    stage := .assigned }

/-- A thread goes on to its next lock operation or allocation call. -/
def go : Option TableState :=
  match s.threads t with
  | .idle => none
  | .lookup sector =>
    match s.scan sector with
    | some a => (s.cells a).map (fun c => (s.reopen t a c).setPc t .idle)
    | none => some (s.setPc t (.missed sector))
  | .missed _ => none
  | .pushing sector a =>
    (s.cells a).map (fun c =>
      { s.setCell a (some { c with stage := .pushed }) with openInodes := a :: s.openInodes }.setPc t (.filling sector a))
  | .filling sector a =>
    (s.cells a).map (fun c =>
      { s.setCell a (some (assign sector c)) with refs := (t, a) :: s.refs }.setPc t (.reading sector a))
  | .reading _ a =>
    (s.cells a).map (fun c =>
      (s.setCell a (some { c with inode := { c.inode with data := s.disk c.inode.sector }, stage := .loaded })).setPc t .idle)
  | .writing a =>
    (s.cells a).map (fun c =>
      { s with disk := fun x => if x = c.inode.sector then c.inode.data else s.disk x }.setPc t
        (if c.inode.removed then .deallocating a else .freeing a))
  | .deallocating a => some (s.setPc t (.freeing a))
  | .freeing a => some ((s.setCell a none).setPc t .idle)

/-- `inode_close` up to its first lock operation: the decrement and, for the last closer, the removal from the list. -/
def close : TableState :=
  let n := c.inode.openCnt - 1
  if n = 0 then
    { s.setCell a (some { c with inode := { c.inode with openCnt := n }, stage := .unlinked }) with
      openInodes := s.openInodes.erase a, refs := s.refs.erase (t, a) }.setPc t (.writing a)
  else
    { s.setCell a (some { c with inode := { c.inode with openCnt := n } }) with refs := s.refs.erase (t, a) }

/-- A step of the system. A thread closes only references that it holds. -/
def step : TableAction → Option TableState
  | .openSector t sector => if s.threads t = .idle then some (s.setPc t (.lookup sector)) else none
  | .close t a =>
    if s.threads t = .idle ∧ (t, a) ∈ s.refs then (s.cells a).map (s.close t a) else none
  | .malloc t result =>
    match s.threads t, result with
    | .missed _, none => some (s.setPc t .idle)
    | .missed sector, some (a, old) =>
      match s.cells a with
      | none => some ((s.setCell a (some { inode := old, target := sector, stage := .allocated })).setPc t (.pushing sector a))
      | some _ => none
    | _, _ => none
  | .go t => s.go t

end TableState

variable (disk : Nat → Contents) (s : TableState)

/-- The table as `inode_init` leaves it, with nothing allocated and no thread in a call. -/
def TableState.start : TableState :=
  { cells := fun _ => none, openInodes := [], disk := disk, threads := fun _ => .idle, refs := [] }

/-- Every interleaving of the opens and closes of every thread. -/
def tableSystem : Transition.System TableState TableAction where
  init s := s = TableState.start disk
  step := TableState.step

/-- The sector that a thread is busy with: it has looked it up in vain and has not returned from `inode_open`, or it has
taken the structure off the list as its last closer and has not freed it. -/
def TableState.busyWith (t : Nat) : Option Nat :=
  match s.threads t with
  | .missed sector => some sector
  | .pushing sector _ => some sector
  | .filling sector _ => some sector
  | .reading sector _ => some sector
  | .writing a => (s.cells a).map (·.target)
  | .deallocating a => (s.cells a).map (·.target)
  | .freeing a => (s.cells a).map (·.target)
  | _ => none

/-- What the lookup and the insertion would have to be one critical section for. A thread looks a sector up only while no
other thread is busy with it, and no structure whose fields are not yet assigned carries it in its old bytes. -/
def TableState.LookupApart : TableAction → Prop
  | .go t => ∀ sector, s.threads t = .lookup sector →
      (∀ u, u ≠ t → s.busyWith u ≠ some sector) ∧
      (∀ u x a, s.threads u = .filling x a → s.sectorAt a ≠ some sector)
  | _ => True

/-- What the table is meant to be. At most one structure is live for a sector; a structure whose fields are assigned counts
the references to it; a thread that holds a reference got a structure whose data is read (unless it is still in the
`inode_open` that created the structure); and no thread holds a reference to freed memory. -/
structure TableOk (s : TableState) : Prop where
  sole : ∀ a b c d, s.cells a = some c → s.cells b = some d → c.target = d.target → a = b
  counted : ∀ a c, s.cells a = some c → c.stage ≠ .allocated → c.stage ≠ .pushed →
    c.inode.sector = c.target ∧ c.inode.openCnt = s.refs.countP (fun r => decide (r.2 = a))
  initialised : ∀ t a c, (t, a) ∈ s.refs → s.cells a = some c →
    c.stage = .loaded ∨ ∃ sector, s.threads t = .reading sector a
  noDangling : ∀ t a, (t, a) ∈ s.refs → s.cells a ≠ none

end Pintos
