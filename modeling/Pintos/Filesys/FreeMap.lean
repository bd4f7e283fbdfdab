import Pintos.Filesys.InodeIo

/-!
# The free map (`filesys/free-map.c`, `lib/kernel/bitmap.c`)

The free map has a bit for each sector, set where the sector is in use. It is kept in a file of its own, which is written as
a whole after every change. `free_map_lock` is held while that is done: a write to the free map's file that asked for a
sector would take the lock a second time, which is a panic.
-/

namespace Pintos

open Program

/-- `FREE_MAP_SECTOR`. -/
def freeMapSector : Nat := 0

/-- `ROOT_DIR_SECTOR`. -/
def rootDirSector : Nat := 1

variable (bitCnt : Nat) (bits : Nat → Bool) (x : Nat)

/-- `byte_cnt`: the bytes of a bitmap, in elements of four bytes. -/
def byteCnt : Nat := 4 * ((bitCnt + 31) % 2 ^ 32 / 32)

/-- Byte number `j` of a bitmap. -/
def bitmapByte (j : Nat) : UInt8 :=
  UInt8.ofNat ((List.range 8).foldl (fun v k => v + if bits (8 * j + k) then 2 ^ k else 0) 0)

/-- The bytes of a bitmap. -/
def bitmapBytes : List UInt8 := (List.range (byteCnt bitCnt)).map (bitmapByte bits)

/-- The bits that `bitmap_read` leaves, from the bytes of a bitmap: those past its end are cleared. -/
def bitsOfBytes (bytes : List UInt8) (x : Nat) : Bool :=
  decide (x < bitCnt) && (bytes.getD (x / 8) 0).toNat.testBit (x % 8)

/-- `bitmap_scan` for one clear bit. -/
def bitmapScan : Option Nat := (List.range bitCnt).find? (fun x => !bits x)

/-- `free_map_allocate` called with `free_map_lock` held: the assertion in `lock_acquire` fails. -/
def lockedAllocate : FsM (Option Nat) := FsM.halt .panic

/-- `bitmap_write` of the free map to its file. A null pointer there is a fault. -/
def bitmapWrite : FsM Bool := do
  let fs ← FsM.get
  match fs.freeMapFile with
  | none => FsM.halt .panic
  | some f => do
    let file ← FsM.file f
    let size := toInt32 (byteCnt fs.bitCnt)
    let written ← inodeWriteAt lockedAllocate file.inode (bitmapBytes fs.bitCnt fs.freeMap) size 0
    pure (written == size)

/-- `free_map_allocate` of one sector. -/
def freeMapAllocate : FsM (Option Nat) := do
  let fs ← FsM.get
  match bitmapScan fs.bitCnt fs.freeMap with
  | none =>
    FsM.noSector
    pure none
  | some x =>
    FsM.set (fs.setBit x true)
    if fs.freeMapFile.isSome then
      if ← bitmapWrite then pure (some x)
      else
        FsM.modify (fun fs => fs.setBit x false)
        FsM.noSector
        pure none
    else pure (some x)

/-- `free_map_release` of one sector. -/
def freeMapRelease : FsM Unit := do
  let fs ← FsM.get
  FsM.assert (x < fs.bitCnt && fs.freeMap x)
  FsM.set (fs.setBit x false)
  let _ ← bitmapWrite
  pure ()

/-- `free_map_init`. -/
def freeMapInit (sectors : Nat) : FsM Unit := do
  -- `bitmap_create` allocates the bitmap and its bits. For no sectors the bits are a null pointer, and marking one faults.
  if (← FsM.malloc).isNone then FsM.halt .panic
  FsM.assert (sectors ≠ 0)
  if (← FsM.malloc).isNone then FsM.halt .panic
  FsM.modify (fun fs => { fs with bitCnt := sectors, freeMap := fun x => x == freeMapSector || x == rootDirSector })

end Pintos
