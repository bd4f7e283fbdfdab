import Pintos.Filesys.FreeMap
import Pintos.Lib.Bitmap

/-!
# The free map and its file (`filesys/free-map.c`)

The static variables of `free-map.c`, with the free map as a bitmap of elements and its file as an array of bytes. What the
file system does to keep such an array on disk is left to the layer below; what `free-map.c` itself does is all here, for any
number of sectors at a time, with the lock.
-/

namespace Pintos

/-- `free_map`, `free_map_file` (what is in the file, unless the pointer is null), and whether `free_map_lock` is held. -/
structure FreeMapVars where
  freeMap : Bitmap
  freeMapFile : Option (List UInt8)
  locked : Bool

namespace FreeMapVars

variable (sectors : Nat) (file : Option (List UInt8)) (cnt : Nat) (m : FreeMapVars) (room : Bool)
  (elems : Option (Nat → BitVec 32))

/-- `lock_acquire (&free_map_lock)`, by the only thread. -/
def lockAcquire : Except BitmapFault FreeMapVars := do
  BitmapFault.assert (!m.locked)
  return { m with locked := true }

/-- `lock_release (&free_map_lock)`. -/
def lockRelease : Except BitmapFault FreeMapVars := do
  BitmapFault.assert m.locked
  return { m with locked := false }

/-- `bitmap_write (free_map, free_map_file)`. -/
def writeMap : Except BitmapFault (Bool × FreeMapVars) :=
  match m.freeMapFile with
  | none => .error .wild
  | some file => .ok ((m.freeMap.write file).1, { m with freeMapFile := some (m.freeMap.write file).2 })

/-- `free_map_init`, for a device of so many sectors. The memory that `malloc` gives, if it gives any, holds anything. -/
def freeMapInit : Except BitmapFault FreeMapVars := do
  match ← Bitmap.create sectors room elems with
  | none => .error .panic
  | some b =>
    let b ← b.mark freeMapSector
    let b ← b.mark rootDirSector
    return { freeMap := b, freeMapFile := none, locked := false }

/-- `free_map_allocate`: the first of `cnt` sectors, if it returns true. -/
def freeMapAllocate : Except BitmapFault (Option Nat × FreeMapVars) := do
  let m ← m.lockAcquire
  let (sector, b) ← m.freeMap.scanAndFlip 0 cnt false
  let m := { m with freeMap := b }
  if sector ≠ bitmapError && m.freeMapFile.isSome then
    let (written, m) ← m.writeMap
    if !written then
      let b ← m.freeMap.setMultiple sector cnt false
      return (none, ← { m with freeMap := b }.lockRelease)
    else return (some sector, ← m.lockRelease)
  else if sector ≠ bitmapError then return (some sector, ← m.lockRelease)
  else return (none, ← m.lockRelease)

/-- `free_map_release`. -/
def freeMapRelease (sector cnt : Nat) (m : FreeMapVars) : Except BitmapFault FreeMapVars := do
  BitmapFault.assert (← m.freeMap.all sector cnt)
  let m ← m.lockAcquire
  let b ← m.freeMap.setMultiple sector cnt false
  let (_, m) ← { m with freeMap := b }.writeMap
  m.lockRelease

/-- `free_map_open`, with what is in the file, if it can be opened. -/
def freeMapOpen : Except BitmapFault FreeMapVars :=
  match file with
  | none => .error .panic
  | some file => do
    let (success, b) ← m.freeMap.read file
    BitmapFault.assert success
    return { m with freeMap := b, freeMapFile := some file }

/-- The part of `free_map_create` behind `inode_create`: the new file is opened, if it can be, and the free map is written to
it. -/
def freeMapCreate : Except BitmapFault FreeMapVars :=
  match file with
  | none => .error .panic
  | some file => do
    let (written, m) ← { m with freeMapFile := some file }.writeMap
    BitmapFault.assert written
    return m

/-- The free map when a disk is mounted: `free_map_init` and `free_map_open`. -/
def mount (file : List UInt8) : Except BitmapFault FreeMapVars := do
  (← freeMapInit sectors room elems).freeMapOpen (some file)

end FreeMapVars

/-- The calls, for one sector at a time. -/
inductive FreeMapCall where
  | allocate
  | release (sector : Nat)
  deriving DecidableEq, Repr

/-- A call, with the sector that an allocation has got. -/
def FreeMapVars.exec (m : FreeMapVars) : FreeMapCall → Except BitmapFault (Option Nat × FreeMapVars)
  | .allocate => m.freeMapAllocate 1
  | .release sector => do return (none, ← m.freeMapRelease sector 1)

/-- Calls have been made, one after the other, and the sectors `live` were handed out by them and have not been released
since. A release is of such a sector. -/
inductive FreeMapRun (m0 : FreeMapVars) : List Nat → FreeMapVars → Prop where
  | start : FreeMapRun m0 [] m0
  | allocate {live : List Nat} {m m' : FreeMapVars} {r : Option Nat} (h : FreeMapRun m0 live m)
    (hc : m.exec .allocate = .ok (r, m')) : FreeMapRun m0 (r.toList ++ live) m'
  | release {live : List Nat} {m m' : FreeMapVars} {r : Option Nat} {x : Nat} (h : FreeMapRun m0 live m) (hx : x ∈ live)
    (hc : m.exec (.release x) = .ok (r, m')) : FreeMapRun m0 (live.erase x) m'

end Pintos
