import Pintos.Filesys.Directory
import Pintos.Threads.Vaddr

/-!
# The file system (`filesys/filesys.c`, the file of the free map in `filesys/free-map.c`, and `fsutil_cat` in `filesys/fsutil.c`)

Files are created, opened and removed by name, in the one directory there is. Formatting makes the free map's file and the
root directory.
-/

namespace Pintos

open Program

/-- `filesys_create`. -/
def filesysCreate (name : CString) (initialSize : Int) : FsM Bool := do
  match ← dirOpenRoot with
  | none => pure false
  | some dir =>
    let success ← do
      match ← freeMapAllocate with
      | none => pure false
      | some inodeSector => do
        let success ← do
          if ← inodeCreate inodeSector initialSize then dirAdd dir name inodeSector else pure false
        if !success ∧ inodeSector ≠ 0 then freeMapRelease inodeSector
        pure success
    dirClose (some dir)
    pure success

/-- `filesys_open`. -/
def filesysOpen (name : CString) : FsM (Option Nat) := do
  let dir ← dirOpenRoot
  let inode ← match dir with
    | some a => dirLookup a name
    | none => pure none
  dirClose dir
  fileOpen inode

/-- `filesys_remove`. -/
def filesysRemove (name : CString) : FsM Bool := do
  let dir ← dirOpenRoot
  let success ← match dir with
    | some a => dirRemove a name
    | none => pure false
  dirClose dir
  pure success

/-- `bitmap_read` of the free map from its file. -/
def bitmapRead (f : Nat) : FsM Bool := do
  let fs ← FsM.get
  let size := toInt32 (byteCnt fs.bitCnt)
  let (n, bytes) ← fileReadAt f size 0
  FsM.modify (fun fs => { fs with freeMap := bitsOfBytes fs.bitCnt bytes })
  pure (n == size)

/-- The part that `free_map_create` and `free_map_open` share: the file of the free map is opened. -/
def openFreeMapFile : FsM Nat := do
  let inode ← inodeOpen freeMapSector
  let file ← fileOpen inode
  FsM.modify (fun fs => { fs with freeMapFile := file })
  match file with
  | none => FsM.halt .panic
  | some f => pure f

/-- `free_map_create`. -/
def freeMapCreate : FsM Unit := do
  let fs ← FsM.get
  if ← inodeCreate freeMapSector (toInt32 (byteCnt fs.bitCnt)) then
    let _ ← openFreeMapFile
    if ← bitmapWrite then pure () else FsM.halt .panic
  else FsM.halt .panic

/-- `free_map_open`. -/
def freeMapOpen : FsM Unit := do
  let f ← openFreeMapFile
  if ← bitmapRead f then pure () else FsM.halt .panic

/-- `free_map_close`. The pointer to the file stays. -/
def freeMapClose : FsM Unit := do
  let fs ← FsM.get
  fileClose fs.freeMapFile

/-- `do_format`. -/
def doFormat : FsM Unit := do
  freeMapCreate
  if ← dirCreate rootDirSector 16 then freeMapClose else FsM.halt .panic

/-- `filesys_init`, on a device with this many sectors. -/
def filesysInit (sectors : Nat) (format : Bool) : FsM Unit := do
  FsM.modify (fun fs => { fs with openInodes := [] })
  freeMapInit sectors
  if format then doFormat
  freeMapOpen

/-- The loop of `fsutil_cat`, for at most so many turns: the positions and numbers of bytes that are passed to `hex_dump`,
and whether the loop has been left. -/
def catLoop (f : Nat) : Nat → FsM (List (Int × Int) × Bool)
  | 0 => pure ([], false)
  | turns + 1 => do
    let pos ← fileTell f
    let (n, _) ← fileRead f pgsize
    if n = 0 then pure ([], true)
    else do
      let (ranges, ended) ← catLoop f turns
      pure ((pos, n) :: ranges, ended)

/-- The memory of the file system when the kernel starts. -/
def Fs.boot : Fs where
  inodes _ := none
  openInodes := []
  files _ := none
  nextAddr := 0
  bitCnt := 0
  freeMap _ := false
  freeMapFile := none
  diskInode := Contents.fill 0

end Pintos
