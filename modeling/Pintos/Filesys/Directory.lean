import Pintos.Filesys.DirEntry
import Pintos.Filesys.InodeLife

/-!
# Directories (`filesys/directory.c`)

A directory is a file of entries of 20 bytes each. The functions read and write one entry at a time. A `struct dir` is only
ever used by the function that opened it, so it is the address of its inode here, and its position where one is kept.
-/

namespace Pintos

open Program

/-- `sizeof (struct dir_entry)`. -/
def dirEntrySize : Nat := 20

/-- The entry that stands in 20 bytes. -/
def DirEntry.decode (bs : List UInt8) : DirEntry where
  inodeSector := Bytes.word (fun k => bs.getD k 0) 0
  name := (bs.drop 4).take (nameMax + 1)
  inUse := bs.getD 19 0 != 0

/-- The bytes of an entry. -/
def DirEntry.encode (e : DirEntry) : List UInt8 := Bytes.wordBytes e.inodeSector ++ e.name ++ [if e.inUse then 1 else 0]

variable (a ofs : Nat) (name : CString)

/-- `inode_read_at` of the entry at an offset, or nothing where it does not return a whole entry. -/
def readEntry : FsM (Option DirEntry) := do
  let (n, bs) ← inodeReadAt a dirEntrySize (toInt32 ofs)
  pure (if n = dirEntrySize then some (DirEntry.decode bs) else none)

/-- `inode_write_at` of an entry at an offset: whether the whole entry was written. -/
def writeEntry (e : DirEntry) : FsM Bool := do
  let n ← inodeWriteAt freeMapAllocate a e.encode dirEntrySize (toInt32 ofs)
  pure (n == dirEntrySize)

/-- A bound on the entries of a directory, and with it on the turns of the loops over them. -/
def dirTurns : FsM Nat := do
  let length ← inodeLength a
  pure (length.toNat / dirEntrySize + 1)

/-- The loop of `lookup`. -/
def lookupFrom (a : Nat) (name : CString) : Nat → Nat → FsM (Option (DirEntry × Nat))
  | 0, _ => FsM.halt .hang
  | turns + 1, ofs => do
    match ← readEntry a ofs with
    | none => pure none
    | some e => if e.isNamed name then pure (some (e, ofs)) else lookupFrom a name turns (ofs + dirEntrySize)

/-- `lookup`: the entry of the name and its offset. -/
def lookup : FsM (Option (DirEntry × Nat)) := do
  let turns ← dirTurns a
  lookupFrom a name turns 0

/-- The loop of `dir_add` for a free slot: its offset, and what was last read. -/
def findSlot (a : Nat) : Nat → Nat → DirEntry → FsM (Nat × DirEntry)
  | 0, _, _ => FsM.halt .hang
  | turns + 1, ofs, e => do
    match ← readEntry a ofs with
    | none => pure (ofs, e)
    | some e => if e.inUse then findSlot a turns (ofs + dirEntrySize) e else pure (ofs, e)

/-- What the local variable of `dir_add` holds before it is read into. -/
def DirEntry.unread : DirEntry := { inodeSector := 0, name := List.replicate (nameMax + 1) 0, inUse := false }

/-- `dir_add`. -/
def dirAdd (inodeSector : Nat) : FsM Bool := do
  if name.strlen = 0 ∨ nameMax < name.strlen then pure false
  else
    match ← lookup a name with
    | some _ => pure false
    | none => do
      let turns ← dirTurns a
      let (ofs, e) ← findSlot a turns 0 DirEntry.unread
      writeEntry a ofs (e.fill name inodeSector)

/-- `dir_remove`. -/
def dirRemove : FsM Bool := do
  match ← lookup a name with
  | none => pure false
  | some (e, ofs) =>
    match ← inodeOpen e.inodeSector with
    | none => pure false
    | some inode =>
      let success ← writeEntry a ofs { e with inUse := false }
      if success then inodeRemove inode
      inodeClose (some inode)
      pure success

/-- `dir_lookup`: the inode of the name, opened, or the null pointer. -/
def dirLookup : FsM (Option Nat) := do
  match ← lookup a name with
  | some (e, _) => inodeOpen e.inodeSector
  | none => pure none

/-- `dir_open`: the directory of an inode, of which it takes over the reference or gives it up. -/
def dirOpen (inode : Option Nat) : FsM (Option Nat) := do
  let dir ← FsM.malloc
  match inode, dir with
  | some a, some _ => pure (some a)
  | _, _ =>
    inodeClose inode
    pure none

/-- `dir_open_root`. -/
def dirOpenRoot : FsM (Option Nat) := do
  let inode ← inodeOpen rootDirSector
  dirOpen inode

/-- `dir_close`. -/
def dirClose (dir : Option Nat) : FsM Unit := inodeClose dir

/-- `dir_create`. -/
def dirCreate (sector entryCnt : Nat) : FsM Bool := inodeCreate sector (toInt32 (entryCnt * dirEntrySize))

end Pintos
