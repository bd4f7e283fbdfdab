import Pintos.Filesys.Memory

/-!
# Reading and writing an inode (`filesys/inode.c`: `inode_read_at`, `inode_write_at`)

Both functions copy one stretch of a sector after the other. `inode_write_at` grows the file first. The sectors for that come
from `free_map_allocate`, which itself writes to the free map's file; so the function that gives them out is a parameter
here.
-/

namespace Pintos

open Program

/-- Where a `struct inode_disk` is: inside a `struct inode`, or the one that `inode_create` is filling. -/
inductive DataRef where
  | inode (a : Nat)
  | fresh

/-- `*inode_disk`. -/
def DataRef.get : DataRef → FsM InodeDisk
  | .inode a => do
    let i ← FsM.inode a
    pure i.data
  | .fresh => do
    let fs ← FsM.get
    pure fs.diskInode

/-- A change of `*inode_disk`. -/
def DataRef.modify (f : InodeDisk → InodeDisk) : DataRef → FsM Unit
  | .inode a => FsM.modifyInode a (fun i => { i with data := f i.data })
  | .fresh => FsM.modify (fun fs => { fs with diskInode := f fs.diskInode })

variable (alloc : FsM (Option Nat)) (a : Nat) (ref : DataRef)

/-- The requests of a block map program, as programs over the file system. -/
def blockRequest : (o : BlockOp) → FsM o.Res
  | .data => ref.get
  | .setDirect k x => ref.modify (fun d => d.setDirectPtr k x)
  | .setSingly x => ref.modify (fun d => d.setSinglyIndirectPtr x)
  | .setDoubly x => ref.modify (fun d => d.setDoublyIndirectPtr x)
  | .allocate => alloc
  | .read x => FsM.readSector x
  | .write x c => FsM.writeSector x c
  | .wild => FsM.halt .wild

/-- A block map program, as a program over the file system. -/
def onBlocks {α : Type} (p : BlockM α) : FsM α :=
  p.handle (blockRequest alloc ref)

/-- Where no sector is asked for. -/
def noAlloc : FsM (Option Nat) := FsM.halt .wild

/-- The loop of `inode_read_at`, with `bytes` read so far; the number bounds the turns. -/
def readChunks (a : Nat) : Nat → Int → Int → List UInt8 → FsM (List UInt8)
  | 0, _, _, bytes => pure bytes
  | turns + 1, size, offset, bytes =>
    if 0 < size then do
      let sector ← onBlocks noAlloc (.inode a) (byteToSector offset)
      let i ← FsM.inode a
      let chunk := chunkSize i.data.length size offset
      if chunk ≤ 0 then pure bytes
      else do
        let bs ← FsM.bufcacheRead sector (sectorOfs offset) chunk
        readChunks a turns (size - chunk) (offset + chunk) (bytes ++ bs)
    else pure bytes

/-- `inode_read_at`: what it returns, and the bytes it puts into the buffer. Every turn of its loop copies at least one
byte. -/
def inodeReadAt (size offset : Int) : FsM (Int × List UInt8) := do
  let i ← FsM.inode a
  if i.extending ∨ i.denyWriteCnt < 0 then FsM.halt .hang
  else if i.data.length < toInt32 (offset + size) then pure (-1, [])
  else do
    let bytes ← readChunks a size.toNat size offset []
    pure (bytes.length, bytes)

/-- The loop of `inode_write_at`, with `written` bytes written so far; the number bounds the turns. -/
def writeChunks (a : Nat) (buffer : List UInt8) : Nat → Int → Int → Nat → FsM Nat
  | 0, _, _, written => pure written
  | turns + 1, size, offset, written =>
    if 0 < size then do
      let sector ← onBlocks noAlloc (.inode a) (byteToSector offset)
      let i ← FsM.inode a
      let chunk := chunkSize i.data.length size offset
      if chunk ≤ 0 then pure written
      else do
        FsM.bufcacheWrite sector (buffer.drop written) (sectorOfs offset) chunk
        writeChunks a buffer turns (size - chunk) (offset + chunk) (written + chunk.toNat)
    else pure written

/-- `allocate_file` for an open inode. Where it returns early the inode stays marked as extending. -/
def allocateFile (length : Int) : FsM Unit := do
  FsM.modifyInode a Inode.beginGrowth
  if ← onBlocks alloc (.inode a) (allocateBlocks length) then
    FsM.modifyInode a (fun i => i.endGrowth length)

/-- `inode_write_at`. Every turn of its loop copies at least one byte. -/
def inodeWriteAt (buffer : List UInt8) (size offset : Int) : FsM Int := do
  let i ← FsM.inode a
  match i.enterWrite with
  | none => pure 0
  | some i' =>
    FsM.setInode a i'
    if i'.extending then FsM.halt .hang
    else do
      if i'.needsGrowth size offset then allocateFile alloc a (toInt32 (size + offset))
      let written ← writeChunks a buffer size.toNat size offset 0
      FsM.modifyInode a Inode.leaveWrite
      pure written

/-- `inode_length`. -/
def inodeLength : FsM Int := do
  let i ← FsM.inode a
  pure i.data.length

/-- `inode_deny_write`. -/
def inodeDenyWrite : FsM Unit := do
  let i ← FsM.inode a
  if i.denyWriteCnt < 0 then FsM.halt .hang
  else do
    FsM.setInode a i.denyWrite
    FsM.assert (i.denyWrite.denyWriteCnt ≤ i.openCnt)

/-- `inode_allow_write`. -/
def inodeAllowWrite : FsM Unit := do
  let i ← FsM.inode a
  FsM.assert (0 < i.denyWriteCnt)
  FsM.assert (i.denyWriteCnt ≤ i.openCnt)
  FsM.setInode a i.allowWrite

end Pintos
