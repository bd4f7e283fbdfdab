import Pintos.Lib.Ustar
import Pintos.Utils.Disk

/-!
# Archives on the host (`utils/pintos`)

`put_scratch_file` writes a file to the scratch partition in ustar format, and `get_scratch_file` reads one from it. Both
work on a file handle, which moves on with every byte that is read or written.
-/

namespace Pintos

open List

/-- `mk_ustar_field`; `none` where it dies. -/
def mkUstarField (number size : Nat) : Option (List UInt8) :=
  let out := Octal.numeral (size - 1) number ++ [0]
  if out.length ≠ size then none else some out

variable (s : List UInt8) (name : CString) (files : List (CString × List UInt8)) (f : HostFile) (size pos : Nat)

/-- `calc_ustar_chksum`; `none` where it dies. `unpack ("%32a*", ...)` is the sum of the bytes, modulo 2^32. -/
def calcUstarChksum : Option Nat :=
  if s.length ≠ 512 then none
  else some (((s.take 148 ++ replicate 8 32 ++ s.drop 156).map UInt8.toNat).sum % 2 ^ 32)

/-- The header that `put_scratch_file` composes, before the checksum is put in. -/
def hostHeaderWithoutChksum (mode uid gid size mtime : List UInt8) : List UInt8 :=
  packA 100 name.bytes ++ mode ++ uid ++ gid ++ size ++ mtime ++ replicate 8 32 ++ ascii "0" ++ replicate 100 0 ++
    (ascii "ustar" ++ [0]) ++ ascii "00" ++ (ascii "root" ++ replicate 28 0) ++ (ascii "root" ++ replicate 28 0) ++
    replicate 8 0 ++ replicate 8 0 ++ replicate 155 0 ++ replicate 12 0

/-- The header for a file of a given name and size; `none` where the script dies. -/
def hostHeader : Option (List UInt8) := do
  let mode ← mkUstarField 0o644 8
  let uid ← mkUstarField 0 8
  let gid ← mkUstarField 0 8
  let sizeField ← mkUstarField size 12
  let mtime ← mkUstarField 1136102400 12
  let header := hostHeaderWithoutChksum name mode uid gid sizeField mtime
  let chksum ← calcUstarChksum header
  let field ← mkUstarField chksum 8
  return header.take 148 ++ field ++ header.drop 156

/-- `put_scratch_file`: the bytes written to the handle; `none` where the script dies. -/
def putScratchFile (data : List UInt8) : Option (List UInt8) :=
  if 99 < name.strlen then none
  else do
    let header ← hostHeader name data.length
    return header ++ data ++ (if data.length % 512 ≠ 0 then replicate (512 - data.length % 512) 0 else [])

/-- `put_scratch_file` for one file after the other. -/
def putScratchFiles : Option (List UInt8) := do
  let written ← files.mapM (fun file => putScratchFile file.1 file.2)
  return written.flatten

/-- What `prepare_scratch_disk` writes to the scratch partition: the files, and 1024 null bytes. -/
def scratchArchive : Option (List UInt8) := do
  let written ← putScratchFiles files
  return written ++ replicate 1024 0

/-- A file that the host reads: its bytes and their number. -/
structure HostFile where
  bytes : Bytes.Memory
  length : Nat

/-- The scratch device as the file that it is on the host. -/
def Block.hostFile (b : Block) : HostFile where
  bytes k := (b.disk (k / 512)).byte (k % 512)
  length := 512 * b.size

/-- `read_fully` at a position: the bytes and the position behind them. Where the file ends before, the script dies. -/
def readFully (n : Nat) : Except String (List UInt8 × Nat) :=
  if pos + n ≤ f.length then .ok (Bytes.slice f.bytes pos n, pos + n) else .error "unexpected end of file"

/-- `copy_file` from a position, with the bytes that it has written already. Every turn copies a byte at least, so that as
many turns as there are bytes are enough. -/
def copyFile (f : HostFile) : Nat → Nat → Nat → List UInt8 → Except String (List UInt8 × Nat)
  | 0, pos, _, out => .ok (out, pos)
  | turns + 1, pos, size, out =>
    if size = 0 then .ok (out, pos)
    else do
      let chunkSize := min 4096 size
      let (data, pos) ← readFully f pos chunkSize
      copyFile f turns pos (size - chunkSize) (out ++ data)

/-- Perl's `oct`, for a string that starts with octal digits: it stops at the first other character. -/
def oct : Nat := Octal.valueFrom 0 (s.takeWhile Octal.isDigit)

/-- `unpack ("Z*", ...)`: up to the first null byte. -/
def unpackZ : List UInt8 := (cstr s).bytes

/-- `get_scratch_file`, with the handle at `pos` and `old` in the file that is written to, which is opened without `O_TRUNC`:
the contents of that file and the position behind it, or a message. -/
def getScratchFile (old : List UInt8) : Except String (List UInt8 × Nat) := do
  let (header, pos) ← readFully f pos 512
  if header = replicate 512 0 then .error "scratch disk tar archive ends unexpectedly"
  else if substr header 257 6 ≠ ascii "ustar" ++ [0] then .error "corrupt ustar signature"
  else if substr header 263 2 ≠ ascii "00" then .error "invalid ustar version"
  else if some (oct (unpackZ (substr header 148 8))) ≠ calcUstarChksum header then .error "checksum mismatch"
  else if substr header 156 1 ≠ ascii "0" ∧ substr header 156 1 ≠ [0] then .error "not a regular file"
  else do
    let size := oct (unpackZ (substr header 124 12))
    let (data, pos) ← copyFile f size pos size []
    let (_, pos) ← if size % 512 ≠ 0 then readFully f pos (512 - size % 512) else .ok ([], pos)
    return (data ++ old.drop size, pos)

/-- `get_scratch_file` for one file after the other, each into a file that is new on the host: the contents, and the position
at the end. -/
def getScratchFiles (f : HostFile) : Nat → Nat → Except String (List (List UInt8) × Nat)
  | 0, pos => .ok ([], pos)
  | n + 1, pos => do
    let (data, pos) ← getScratchFile f pos []
    let (rest, pos) ← getScratchFiles f n pos
    return (data :: rest, pos)

end Pintos
