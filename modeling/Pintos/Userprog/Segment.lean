import Pintos.Filesys.BlockMap
import Pintos.Userprog.Pagedir

/-!
# Loading a segment of an executable (`userprog/process.c`: `load`, `validate_segment`, `load_segment`)

The fields of a program header are 32-bit numbers from the file, and the arithmetic on them is that of `uint32_t`. Whether a
page is there for `palloc_get_page`, and whether `install_page` succeeds, is left open for each page.
-/

namespace Pintos

/-- `struct Elf32_Phdr`, as far as a segment of type `PT_LOAD` is concerned. -/
structure Elf32Phdr where
  pOffset : UInt32
  pVaddr : UInt32
  pFilesz : UInt32
  pMemsz : UInt32
  pFlags : UInt32

variable (phdr : Elf32Phdr) (x : Nat) (data : List UInt8) (getPage installPage : Nat → Bool) (tests : Nat)

/-- `validate_segment`, for a file of `length` bytes. -/
def validateSegment (length : Nat) : Bool :=
  if pgOfs phdr.pOffset.toNat ≠ pgOfs phdr.pVaddr.toNat then false
  else if length < phdr.pOffset.toNat then false
  else if phdr.pMemsz.toNat < phdr.pFilesz.toNat then false
  else if phdr.pMemsz.toNat = 0 then false
  else if !isUserVaddr phdr.pVaddr.toNat then false
  else if !isUserVaddr (ptrAdd phdr.pVaddr.toNat phdr.pMemsz.toNat) then false
  else if ptrAdd phdr.pVaddr.toNat phdr.pMemsz.toNat < phdr.pVaddr.toNat then false
  else if phdr.pVaddr.toNat < pgsize then false
  else true

/-- `X & ~PGMASK`. -/
def pageOf : Nat := x - pgOfs x

/-- `ROUND_UP (X, PGSIZE)`. -/
def roundUpPage : Nat := toUInt32 (x + pgsize - 1) / pgsize * pgsize

/-- `ROUND_UP (page_offset + phdr.p_memsz, PGSIZE)` in `load`. -/
def Elf32Phdr.rounded : Nat := roundUpPage (toUInt32 (pgOfs phdr.pVaddr.toNat + phdr.pMemsz.toNat))

/-- `read_bytes` in `load`. -/
def Elf32Phdr.readBytes : Nat :=
  if 0 < phdr.pFilesz.toNat then toUInt32 (pgOfs phdr.pVaddr.toNat + phdr.pFilesz.toNat) else 0

/-- `zero_bytes` in `load`. -/
def Elf32Phdr.zeroBytes : Nat :=
  if 0 < phdr.pFilesz.toNat then toUInt32 (phdr.rounded - phdr.readBytes) else phdr.rounded

/-- `file_read` at a position of a file: the number returned and the bytes put into the buffer. -/
def readFile (pos size : Nat) : Int × List UInt8 :=
  if (data.length : Int) < toInt32 (pos + size) then (-1, [])
  else (((data.drop pos).take size).length, (data.drop pos).take size)

/-- A page put into the address space. -/
structure LoadedPage where
  upage : Nat
  bytes : List UInt8
  writable : Bool

/-- The loop of `load_segment`: what the function returns, and the pages installed, in order. The number bounds the tests of
the loop's condition. -/
def loadPages (data : List UInt8) (getPage installPage : Nat → Bool) (writable : Bool) :
    Nat → Nat → Nat → Nat → Nat → Except Halt (Bool × List LoadedPage)
  | 0, _, _, _, _ => .error .hang
  | tests + 1, pos, upage, readBytes, zeroBytes =>
    if 0 < readBytes ∨ 0 < zeroBytes then
      let pageReadBytes := if readBytes < pgsize then readBytes else pgsize
      let pageZeroBytes := pgsize - pageReadBytes
      let r := readFile data pos pageReadBytes
      if getPage upage ∧ r.1 = pageReadBytes ∧ installPage upage then
        (loadPages data getPage installPage writable tests (pos + pageReadBytes) (ptrAdd upage pgsize) (readBytes - pageReadBytes)
          (toUInt32 (zeroBytes - pageZeroBytes))).map fun (ok, pages) =>
            (ok, { upage := upage, bytes := r.2 ++ List.replicate pageZeroBytes 0, writable := writable } :: pages)
      else .ok (false, [])
    else .ok (true, [])

/-- `load_segment`. The last assertion is that of `file_seek`. -/
def loadSegment (ofs : Int) (upage readBytes zeroBytes : Nat)
    (writable : Bool) : Except Halt (Bool × List LoadedPage) :=
  if toUInt32 (readBytes + zeroBytes) % pgsize = 0 ∧ pgOfs upage = 0 ∧ Int.tmod ofs pgsize = 0 ∧ 0 ≤ ofs then
    loadPages data getPage installPage writable tests ofs.toNat upage readBytes zeroBytes
  else .error .panic

/-- What `load` does with a segment that `validate_segment` has accepted. -/
def Elf32Phdr.load :
    Except Halt (Bool × List LoadedPage) :=
  loadSegment data getPage installPage tests (toInt32 (pageOf phdr.pOffset.toNat)) (pageOf phdr.pVaddr.toNat) phdr.readBytes
    phdr.zeroBytes (phdr.pFlags &&& 2 ≠ 0)

end Pintos
