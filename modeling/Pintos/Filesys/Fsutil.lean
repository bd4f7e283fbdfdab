import Pintos.Filesys.Block
import Pintos.Lib.Ustar

/-!
# Archives on the scratch device (`filesys/fsutil.c`)

`fsutil_extract` reads an archive from the scratch device into the file system, and `fsutil_append` adds a file of the file
system to one. Each keeps its own position on the device from call to call. The file system is a store of byte arrays here: a
list of names and contents in the order of their creation. The device is there, and memory for the buffers.
-/

namespace Pintos

/-- The files of the file system, in the order of their creation. -/
abbrev FileStore := List (CString × List UInt8)

namespace FileStore

variable (store : FileStore) (name : CString) (pos size : Nat)

/-- `filesys_create`, which fails where the name is taken. -/
def create : Option FileStore :=
  if (store.lookup name).isSome then none else some (store ++ [(name, List.replicate size 0)])

/-- `file_write` at a position: the store, and the number of bytes written. -/
def write (data : List UInt8) : FileStore × Nat :=
  (store.map (fun file => if file.1 = name then (name, file.2.take pos ++ data ++ file.2.drop (pos + data.length))
    else file), data.length)

/-- `file_read` at a position. -/
def read (contents : List UInt8) (pos size : Nat) : List UInt8 := (contents.drop pos).take size

end FileStore

/-- The ways in which the two functions panic. -/
inductive FsutilPanic where
  /-- The panic of `check_sector`. -/
  | sectorPastEnd (sector : Nat)
  | badHeader (sector : Nat) (error : String)
  | createFailed (name : CString)
  | openFailed (name : CString)
  | writeFailed (name : CString) (size : Nat)
  | nameTooLong (name : CString)
  | outOfSpace (name : CString)
  | readFailed (name : CString) (size : Nat)
  deriving DecidableEq

variable (b src : Block) (sector : Nat) (s : Extraction)

/-- `block_read`. -/
def readSector : Except FsutilPanic Contents :=
  match b.read sector with
  | some c => .ok c
  | none => .error (.sectorPastEnd sector)

/-- `block_write`. -/
def writeSector (c : Contents) : Except FsutilPanic Block :=
  match b.write sector c with
  | some b => .ok b
  | none => .error (.sectorPastEnd sector)

/-! ## Extracting -/

/-- The position of `fsutil_extract` on the device, and the file system. -/
structure Extraction where
  sector : Nat
  store : FileStore

/-- The loop that copies the data of a file, with `size` bytes to go and the file at position `pos`. Every turn copies a byte
at least, so that as many turns as there are bytes are enough. -/
def copyIn (src : Block) (name : CString) : Nat → Nat → Nat → Extraction → Except FsutilPanic Extraction
  | 0, _, _, s => .ok s
  | turns + 1, size, pos, s =>
    if size = 0 then .ok s
    else do
      let chunkSize := min size blockSectorSize
      let data ← readSector src s.sector
      let written := s.store.write name pos (data.slice 0 chunkSize)
      if written.2 ≠ chunkSize then .error (.writeFailed name size)
      else copyIn src name turns (size - chunkSize) (pos + chunkSize) { sector := s.sector + 1, store := written.1 }

/-- A turn of the loop of `fsutil_extract`: the state after it, or `none` at the end of the archive. -/
def extractEntry : Except FsutilPanic (Option Extraction) := do
  let header ← readSector src s.sector
  let s := { s with sector := s.sector + 1 }
  match ustarParseHeader (header.slice 0 blockSectorSize) with
  | .error e => .error (.badHeader (s.sector - 1) e)
  | .ok none => .ok none
  | .ok (some entry) =>
    match entry.type with
    | .directory => .ok (some s)
    | .regular =>
      match s.store.create entry.fileName entry.size with
      | none => .error (.createFailed entry.fileName)
      | some store =>
        if (store.lookup entry.fileName).isNone then .error (.openFailed entry.fileName)
        else do
          let s ← copyIn src entry.fileName entry.size entry.size 0 { s with store := store }
          return some s

/-- The state after some turns of the loop of `fsutil_extract`, or `none` where the archive ended before. -/
def extractTurns (src : Block) : Nat → Extraction → Except FsutilPanic (Option Extraction)
  | 0, s => .ok (some s)
  | turns + 1, s => do
    match ← extractEntry src s with
    | none => return none
    | some s => extractTurns src turns s

/-- The loop of `fsutil_extract`. Every turn goes on by a sector at least and panics past the end of the device, so that as
many turns as the device has sectors are enough. -/
def extractLoop (src : Block) : Nat → Extraction → Except FsutilPanic Extraction
  | 0, s => .error (.sectorPastEnd s.sector)
  | turns + 1, s => do
    match ← extractEntry src s with
    | none => return { s with sector := s.sector + 1 }
    | some s => extractLoop src turns s

/-- `fsutil_extract`, which erases the first two sectors at the end. -/
def fsutilExtract : Except FsutilPanic (Block × Extraction) := do
  let s ← extractLoop src (src.size + 1) s
  let src ← writeSector src 0 (Contents.fill 0)
  let src ← writeSector src 1 (Contents.fill 0)
  return (src, s)

/-! ## Appending -/

/-- The device and the position of `fsutil_append` on it. -/
structure Appending where
  dst : Block
  sector : Nat

/-- A sector that starts with given bytes and goes on with zeros. -/
def sectorOf (bs : List UInt8) : Contents := (Contents.fill 0).splice 0 bs

/-- The loop that copies the data of a file to the device, with `size` bytes to go and the file at position `pos`. -/
def copyOut (name : CString) (contents : List UInt8) : Nat → Nat → Nat → Appending → Except FsutilPanic Appending
  | 0, _, _, s => .ok s
  | turns + 1, size, pos, s =>
    if size = 0 then .ok s
    else
      let chunkSize := min size blockSectorSize
      if s.dst.size ≤ s.sector then .error (.outOfSpace name)
      else
        let chunk := FileStore.read contents pos chunkSize
        if chunk.length ≠ chunkSize then .error (.readFailed name size)
        else do
          let dst ← writeSector s.dst s.sector (sectorOf chunk)
          copyOut name contents turns (size - chunkSize) (pos + chunkSize) { dst := dst, sector := s.sector + 1 }

/-- `fsutil_append`. The marker at the end is written twice to the same sector. The second time the 512 bytes start at
`buffer + 1`, so that the last of them is whatever byte lies behind the buffer. -/
def fsutilAppend (store : FileStore) (fileName : CString) (behindBuffer : UInt8) (s : Appending) : Except FsutilPanic Appending :=
  match store.lookup fileName with
  | none => .error (.openFailed fileName)
  | some contents =>
    match ustarMakeHeader fileName .regular contents.length with
    | none => .error (.nameTooLong fileName)
    | some header => do
      let dst ← writeSector s.dst s.sector (sectorOf header)
      let s ← copyOut fileName contents contents.length contents.length 0 { dst := dst, sector := s.sector + 1 }
      let dst ← writeSector s.dst s.sector (Contents.fill 0)
      let dst ← writeSector dst s.sector ((Contents.fill 0).splice 511 [behindBuffer])
      return { s with dst := dst }

/-- Successive calls of `fsutil_append`. The byte behind the buffer may be another one in every call. -/
def appendAll (store : FileStore) (behindBuffer : Nat → UInt8) : List CString → Appending → Except FsutilPanic Appending
  | [], s => .ok s
  | name :: rest, s => do
    let s ← fsutilAppend store name (behindBuffer s.sector) s
    appendAll store behindBuffer rest s

end Pintos
