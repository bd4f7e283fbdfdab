import Pintos.Filesys.BlockMap

/-!
# The file system's memory and programs over it

The functions of the file system are programs. They look at and change what the file system keeps in memory, ask `malloc` for
more of it, and read and write sectors through the buffer cache. How the sectors are kept is left to what runs the program:
here they are those of a device; the buffer cache itself comes in as another way to run the same programs.

These are the functions as one thread runs them with no other in between. A wait that another thread would have to end is a
hang.
-/

namespace Pintos

open Program

/-- `struct file`. -/
structure OpenFile where
  inode : Nat
  pos : Int
  denyWrite : Bool

/-- What the file system keeps in memory: the `struct inode` and `struct file` at each address, the open inodes, the next
address of `malloc`, the free map with the number of its bits and its file, and the `struct inode_disk` that `inode_create`
is filling. -/
structure Fs where
  inodes : Nat → Option Inode
  openInodes : List Nat
  files : Nat → Option OpenFile
  nextAddr : Nat
  bitCnt : Nat
  freeMap : Nat → Bool
  freeMapFile : Option Nat
  diskInode : InodeDisk

namespace Fs

variable (fs : Fs)

/-- The memory with the `struct inode` at an address changed, allocated or freed. -/
def setInode (a : Nat) (i : Option Inode) : Fs := { fs with inodes := fun b => if b = a then i else fs.inodes b }

/-- The memory with the `struct file` at an address changed, allocated or freed. -/
def setFile (f : Nat) (file : Option OpenFile) : Fs := { fs with files := fun g => if g = f then file else fs.files g }

/-- The memory with one bit of the free map changed. -/
def setBit (x : Nat) (b : Bool) : Fs := { fs with freeMap := fun y => if y = x then b else fs.freeMap y }

end Fs

/-- The requests of a file system program. -/
inductive FsOp where
  /-- Look at memory. -/
  | get
  /-- Change memory. -/
  | set (fs : Fs)
  /-- `malloc` or `calloc`: whether there was enough memory. -/
  | malloc
  /-- The free map had no sector to give. Nothing happens; the request marks the run as one in which an allocation failed. -/
  | noSector
  /-- `bufcache_access` of a sector, to read from it. -/
  | read (sector : Nat)
  /-- `bufcache_write`. -/
  | write (sector ofs : Nat) (bytes : List UInt8)
  /-- Execution does not go on. -/
  | halt (h : Halt)

/-- The answers. -/
@[reducible] def FsOp.Res : FsOp → Type
  | .get => Fs
  | .malloc => Bool
  | .read _ => Contents
  | .set _ | .noSector | .write _ _ _ => Unit
  | .halt _ => Empty

/-- The signature of file system programs. -/
@[reducible] def fsSig : Signature where
  Op := FsOp
  Res := FsOp.Res

/-- A file system program. -/
abbrev FsM (α : Type) : Type := Prog fsSig α

namespace FsM

/-- Look at memory. -/
def get : FsM Fs := .op (S := fsSig) .get

/-- Change memory. -/
def set (fs : Fs) : FsM Unit := .op (S := fsSig) (.set fs)

/-- Change memory by a function of it. -/
def modify (f : Fs → Fs) : FsM Unit := do
  let fs ← get
  set (f fs)

/-- Execution does not go on. -/
def halt {α : Type} (h : Halt) : FsM α := .call (S := fsSig) (.halt h) (fun e => nomatch e)

/-- `ASSERT`. -/
def assert (b : Bool) : FsM Unit := if b then pure () else halt .panic

/-- Whether there is memory for one more object. -/
def hasMemory : FsM Bool := .op (S := fsSig) .malloc

/-- `malloc` or `calloc`: a new address, or the null pointer. -/
def malloc : FsM (Option Nat) := do
  if ← hasMemory then
    let fs ← get
    set { fs with nextAddr := fs.nextAddr + 1 }
    pure (some fs.nextAddr)
  else pure none

/-- The free map had no sector to give. -/
def noSector : FsM Unit := .op (S := fsSig) .noSector

variable (sector a : Nat)

/-- `bufcache_read` of a whole sector. -/
def readSector : FsM Contents := .op (S := fsSig) (.read sector)

/-- `bufcache_write` of a whole sector. -/
def writeSector (c : Contents) : FsM Unit := .op (S := fsSig) (.write sector 0 (c.slice 0 blockSectorSize))

/-- `bufcache_read` of a part of a sector. (A negative offset passes the assertion by wrapping around and then misses the
entry.) -/
def bufcacheRead (ofs length : Int) : FsM (List UInt8) :=
  if ofs < 0 then halt .wild
  else do
    assert (ofs + length ≤ blockSectorSize)
    let c ← readSector sector
    pure (c.slice ofs.toNat length.toNat)

/-- `bufcache_write` of the first bytes of a buffer to a part of a sector. A buffer that is shorter ends in memory that is
not mapped. -/
def bufcacheWrite (buffer : List UInt8) (ofs length : Int) : FsM Unit :=
  if ofs < 0 then halt .wild
  else do
    assert (ofs + length ≤ blockSectorSize)
    assert (length ≤ buffer.length)
    .op (S := fsSig) (.write sector ofs.toNat (buffer.take length.toNat))

/-- The `struct inode` that a pointer leads to. -/
def inode : FsM Inode := do
  let fs ← get
  match fs.inodes a with
  | some i => pure i
  | none => halt .wild

/-- Change a `struct inode`. -/
def setInode (i : Inode) : FsM Unit := modify (fun fs => fs.setInode a (some i))

/-- Change a `struct inode` by a function of it. -/
def modifyInode (f : Inode → Inode) : FsM Unit := do
  let i ← inode a
  setInode a (f i)

/-- The `struct file` that a pointer leads to. -/
def file (f : Nat) : FsM OpenFile := do
  let fs ← get
  match fs.files f with
  | some file => pure file
  | none => halt .wild

end FsM

/-! ## Running on a device -/

/-- What a program runs on: memory, the sectors, and the answers that `malloc` will give. -/
structure World where
  mem : Fs
  dev : Block
  heap : Nat → Bool

/-- One request. With `strict` set, a run ends at the first allocation that fails. -/
def FsOp.exec (strict : Bool) : Prog.Handler fsSig World Halt
  | .get, w => .ok (w.mem, w)
  | .set fs, w => .ok ((), { w with mem := fs })
  | .malloc, w =>
    if w.heap 0 = false ∧ strict = true then .error .exhausted
    else .ok (w.heap 0, { w with heap := fun n => w.heap (n + 1) })
  | .noSector, w => if strict then .error .exhausted else .ok ((), w)
  | .read x, w => if w.dev.checkSector x then .ok (w.dev.disk x, w) else .error .panic
  | .write x ofs bs, w =>
    if w.dev.checkSector x then
      .ok ((), { w with dev := { w.dev with disk := fun y => if y = x then (w.dev.disk x).splice ofs bs else w.dev.disk y } })
    else .error .panic
  | .halt h, _ => .error h

end Pintos
