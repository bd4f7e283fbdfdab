import Pintos.Filesys.FreeMap

/-!
# Creating, opening and closing inodes (`filesys/inode.c`)

An inode in use is in memory once, however often it is open, and its sector is written only when the last opener closes it.
One that is marked as removed gives its sectors back at that point.
-/

namespace Pintos

open Program

variable (a f sector : Nat) (buffer : List UInt8) (size : Int)

/-- `inode_create`. The data sectors get no contents here: they hold what they held. -/
def inodeCreate (length : Int) : FsM Bool := do
  FsM.assert (0 ≤ length)
  match ← FsM.malloc with
  | none => pure false
  | some _ =>
    FsM.modify (fun fs => { fs with diskInode := InodeDisk.setMagic (Contents.fill 0) inodeMagic })
    if ← onBlocks freeMapAllocate .fresh (allocateBlocks length) then
      DataRef.fresh.modify (fun d => d.setLength length)
      let d ← DataRef.fresh.get
      FsM.writeSector sector d
      pure true
    else pure false

/-- The scan of `inode_open`: the first open inode of the sector. -/
def Fs.findOpen (fs : Fs) (sector : Nat) : Option Nat :=
  fs.openInodes.find? (fun a => (fs.inodes a).any (fun i => i.sector == sector))

/-- `inode_reopen`. -/
def inodeReopen : FsM Unit := FsM.modifyInode a (fun i => { i with openCnt := i.openCnt + 1 })

/-- `inode_open`: the address of the inode, or the null pointer. -/
def inodeOpen : FsM (Option Nat) := do
  let fs ← FsM.get
  match fs.findOpen sector with
  | some a =>
    inodeReopen a
    pure (some a)
  | none =>
    match ← FsM.malloc with
    | none => pure none
    | some a =>
      FsM.modify (fun fs => { fs with openInodes := a :: fs.openInodes })
      let d ← FsM.readSector sector
      FsM.setInode a { sector := sector, openCnt := 1, removed := false, extending := false, denyWriteCnt := 0, data := d }
      pure (some a)

/-- A list of sectors given back, one after the other. -/
def releaseAll : List Nat → FsM Unit
  | [] => pure ()
  | x :: xs => do
    freeMapRelease x
    releaseAll xs

/-- The entries of an index block that `deallocate_file` looks at, as sectors. -/
def entries (block : Contents) (n : Nat) : List Nat := (List.range (min numBlocksInIndirect n)).map block.word

/-- The loop of `deallocate_file` over the doubly indirect block: `todo` more entries, the next one number `i`. -/
def releaseIndirects (doublyIndirect : Contents) : Nat → Nat → Nat → FsM Unit
  | 0, _, _ => pure ()
  | todo + 1, i, numSectors =>
    if i < numBlocksInIndirect then do
      let indirect ← FsM.readSector (doublyIndirect.word i)
      releaseAll (entries indirect numSectors)
      freeMapRelease (doublyIndirect.word i)
      releaseIndirects doublyIndirect todo (i + 1) (numSectors - min numBlocksInIndirect numSectors)
    else FsM.halt .wild

/-- `deallocate_file`. -/
def deallocateFile : FsM Unit := do
  let i ← FsM.inode a
  let numSectors := bytesToSectors i.data.length
  releaseAll ((List.range (min numDirect numSectors)).map i.data.directPtr)
  let numSectors := numSectors - min numDirect numSectors
  if 0 < numSectors then
    let indirect ← FsM.readSector i.data.singlyIndirectPtr
    releaseAll (entries indirect numSectors)
    freeMapRelease i.data.singlyIndirectPtr
  let numSectors := numSectors - min numBlocksInIndirect numSectors
  if 0 < numSectors then
    let doublyIndirect ← FsM.readSector i.data.doublyIndirectPtr
    let numIndirectBlocks := (numSectors + (blockSectorSize - 1)) % 2 ^ 32 / blockSectorSize
    releaseIndirects doublyIndirect numIndirectBlocks 0 numSectors
    freeMapRelease i.data.doublyIndirectPtr
  freeMapRelease i.sector

/-- `inode_close`. -/
def inodeClose : Option Nat → FsM Unit
  | none => pure ()
  | some a => do
    let i ← FsM.inode a
    let i := { i with openCnt := i.openCnt - 1 }
    FsM.setInode a i
    if i.openCnt = 0 then
      FsM.modify (fun fs => { fs with openInodes := fs.openInodes.erase a })
      FsM.writeSector i.sector i.data
      if i.removed then deallocateFile a
      FsM.modify (fun fs => fs.setInode a none)

/-- `inode_remove`. -/
def inodeRemove : FsM Unit := FsM.modifyInode a (fun i => { i with removed := true })

/-! ## Files (`filesys/file.c`) -/

/-- `file_open`: the address of the file, or the null pointer. It takes over the reference to the inode, or gives it up. -/
def fileOpen (inode : Option Nat) : FsM (Option Nat) := do
  let file ← FsM.malloc
  match inode, file with
  | some a, some f =>
    FsM.modify (fun fs => fs.setFile f (some { inode := a, pos := 0, denyWrite := false }))
    pure (some f)
  | _, _ =>
    inodeClose inode
    pure none

/-- `file_allow_write`. -/
def fileAllowWrite : FsM Unit := do
  let file ← FsM.file f
  if file.denyWrite then
    FsM.modify (fun fs => fs.setFile f (some { file with denyWrite := false }))
    inodeAllowWrite file.inode

/-- `file_deny_write`. -/
def fileDenyWrite : FsM Unit := do
  let file ← FsM.file f
  if !file.denyWrite then
    FsM.modify (fun fs => fs.setFile f (some { file with denyWrite := true }))
    inodeDenyWrite file.inode

/-- `file_close`. -/
def fileClose : Option Nat → FsM Unit
  | none => pure ()
  | some f => do
    fileAllowWrite f
    let file ← FsM.file f
    inodeClose (some file.inode)
    FsM.modify (fun fs => fs.setFile f none)

/-- `file_read_at`. -/
def fileReadAt (ofs : Int) : FsM (Int × List UInt8) := do
  let file ← FsM.file f
  inodeReadAt file.inode size ofs

/-- `file_read`: what is read, even the error value -1, is added to the position. -/
def fileRead : FsM (Int × List UInt8) := do
  let file ← FsM.file f
  let (n, bytes) ← inodeReadAt file.inode size file.pos
  FsM.modify (fun fs => fs.setFile f (some { file with pos := toInt32 (file.pos + n) }))
  pure (n, bytes)

/-- `file_write_at`. -/
def fileWriteAt (ofs : Int) : FsM Int := do
  let file ← FsM.file f
  inodeWriteAt freeMapAllocate file.inode buffer size ofs

/-- `file_write`. -/
def fileWrite : FsM Int := do
  let file ← FsM.file f
  let n ← inodeWriteAt freeMapAllocate file.inode buffer size file.pos
  FsM.modify (fun fs => fs.setFile f (some { file with pos := toInt32 (file.pos + n) }))
  pure n

/-- `file_seek`. -/
def fileSeek (pos : Int) : FsM Unit := do
  let file ← FsM.file f
  FsM.assert (0 ≤ pos)
  FsM.modify (fun fs => fs.setFile f (some { file with pos := pos }))

/-- `file_tell`. -/
def fileTell : FsM Int := do
  let file ← FsM.file f
  pure file.pos

/-! ## Calls one after the other -/

/-- The blocks of a file of a length: `ceil (length / 512)`. -/
def blocksIn (length : Int) : Nat := (length.toNat + 511) / 512

/-- The sectors that `byte_to_sector` gives for the first `n` blocks of an open inode. -/
def blockSectors (a : Nat) : Nat → FsM (List Nat)
  | 0 => pure []
  | n + 1 => do
    let sectors ← blockSectors a n
    let sector ← onBlocks noAlloc (.inode a) (byteToSector (n * blockSectorSize : Nat))
    pure (sectors ++ [sector])

/-- `inode_create` with one length, and an extension to another by `allocate_file`: the address of the inode, and the sectors
of its blocks before the extension and after. -/
def createAndExtend (s : Nat) (len0 len1 : Int) : FsM (Option (Nat × List Nat × List Nat)) := do
  if ← inodeCreate s len0 then
    match ← inodeOpen s with
    | none => pure none
    | some a =>
      let before ← blockSectors a (blocksIn len0)
      allocateFile freeMapAllocate a len1
      let after ← blockSectors a (blocksIn len1)
      pure (some (a, before, after))
  else pure none

/-- A file of a length is made in a sector that `free_map_allocate` gives, opened, and marked as removed. The result is the
address of the inode, if nothing failed. -/
def createRemoved (length : Int) : FsM (Option Nat) := do
  match ← freeMapAllocate with
  | none => pure none
  | some sector =>
    if ← inodeCreate sector length then
      match ← inodeOpen sector with
      | none => pure none
      | some a =>
        inodeRemove a
        pure (some a)
    else pure none

end Pintos
