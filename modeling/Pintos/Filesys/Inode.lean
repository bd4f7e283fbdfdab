import Pintos.Filesys.Block

/-!
# Inodes (`filesys/inode.c`): the data types

`struct inode_disk` is exactly one sector of 32-bit words: the length, the directory mark, 123 direct pointers, the singly
and the doubly indirect pointer and the magic number. It is kept as the bytes of that sector, so that writing it to disk and
reading it back is the copy that the code makes; the fields are words of it.
-/

namespace Pintos

open Contents

/-- `NUM_DIRECT`: the direct pointers of an inode. -/
def numDirect : Nat := 123

/-- `NUM_BLOCKS_IN_INDIRECT`: the pointers of an index block. -/
def numBlocksInIndirect : Nat := 128

/-- `INODE_MAGIC`. -/
def inodeMagic : Nat := 0x494e4f44

variable (x offset : Int)

/-- A value of C's signed 32-bit type, from any integer: what is left after the bits above the 32nd are lost. -/
def toInt32 : Int := Int.bmod x (2 ^ 32)

/-- A value of C's unsigned 32-bit type, from any integer. -/
def toUInt32 : Nat := (x % 2 ^ 32).toNat

theorem toInt32_of_fits {x : Int} (h1 : -2147483648 ≤ x) (h2 : x < 2147483648) : toInt32 x = x := by
  unfold toInt32
  rw [Int.bmod_def]
  split <;> omega

theorem toUInt32_of_fits {x : Int} (h1 : 0 ≤ x) (h2 : x < 4294967296) : (toUInt32 x : Int) = x := by
  unfold toUInt32
  omega

theorem toUInt32_lt : toUInt32 x < 2 ^ 32 := by
  unfold toUInt32
  omega

/-- Storing a signed value as unsigned and reading it as signed again. -/
theorem toInt32_toUInt32 {x : Int} (h1 : -2147483648 ≤ x) (h2 : x < 2147483648) : toInt32 (toUInt32 x) = x := by
  unfold toInt32 toUInt32
  rw [Int.bmod_def]
  split <;> omega

theorem toInt32_le {x : Int} (h : 0 ≤ x) : toInt32 x ≤ x := by
  unfold toInt32
  rw [Int.bmod_def]
  split <;> omega

/-- A value of 32 bits, not negative, is kept or becomes negative. -/
theorem toInt32_pos {x : Int} (h0 : 0 ≤ x) (h1 : x < 4294967296) (hp : 0 < toInt32 x) : toInt32 x = x := by
  unfold toInt32 at hp ⊢
  rw [Int.bmod_def] at hp ⊢
  split at hp
  · omega
  · omega

theorem le_toInt32 : -2147483648 ≤ toInt32 x := by
  unfold toInt32
  rw [Int.bmod_def]
  split <;> omega

theorem toInt32_lt : toInt32 x < 2147483648 := by
  unfold toInt32
  rw [Int.bmod_def]
  split <;> omega

-- Only these facts are used about the two conversions: unfolded, their moduli are slow to compute with.
attribute [irreducible] toInt32 toUInt32

/-- `struct inode_disk`, as the bytes of its sector. -/
abbrev InodeDisk : Type := Contents

namespace InodeDisk

variable (d : InodeDisk) (k sector : Nat)

/-- `length`, a signed `off_t`. -/
def length : Int := toInt32 (d.word 0)

/-- `direct_ptrs[k]`, for `k` below 123. -/
def directPtr : Nat := d.word (2 + k)

/-- `singly_indirect_ptr`. -/
def singlyIndirectPtr : Nat := d.word 125

/-- `doubly_indirect_ptr`. -/
def doublyIndirectPtr : Nat := d.word 126

/-- `magic`. -/
def magic : Nat := d.word 127

/-- The inode with another length. -/
def setLength (n : Int) : InodeDisk := d.setWord 0 (toUInt32 n)

/-- The inode with another direct pointer. -/
def setDirectPtr : InodeDisk := d.setWord (2 + k) sector

/-- The inode with another singly indirect pointer. -/
def setSinglyIndirectPtr : InodeDisk := d.setWord 125 sector

/-- The inode with another doubly indirect pointer. -/
def setDoublyIndirectPtr : InodeDisk := d.setWord 126 sector

/-- The inode with another magic number. -/
def setMagic (n : Nat) : InodeDisk := d.setWord 127 n

section Fields

variable (d : InodeDisk)

variable {k sector : Nat}

theorem directPtr_setDirectPtr (hk : k < numDirect) (hs : sector < 2 ^ 32) : (d.setDirectPtr k sector).directPtr k = sector := by
  unfold directPtr setDirectPtr
  rw [word_setWord_self _ _ _ (by unfold numDirect at hk; omega), Nat.mod_eq_of_lt hs]

theorem directPtr_setDirectPtr_ne {j : Nat} (sector : Nat) (h : j ≠ k) : (d.setDirectPtr k sector).directPtr j = d.directPtr j :=
  word_setWord_ne _ _ _ _ (by omega)

theorem singlyIndirectPtr_setDirectPtr (sector : Nat) (hk : k < numDirect) :
    (d.setDirectPtr k sector).singlyIndirectPtr = d.singlyIndirectPtr :=
  word_setWord_ne _ _ _ _ (by unfold numDirect at hk; omega)

theorem doublyIndirectPtr_setDirectPtr (sector : Nat) (hk : k < numDirect) :
    (d.setDirectPtr k sector).doublyIndirectPtr = d.doublyIndirectPtr :=
  word_setWord_ne _ _ _ _ (by unfold numDirect at hk; omega)

theorem directPtr_setSinglyIndirectPtr (sector : Nat) (hk : k < numDirect) :
    (d.setSinglyIndirectPtr sector).directPtr k = d.directPtr k :=
  word_setWord_ne _ _ _ _ (by unfold numDirect at hk; omega)

theorem directPtr_setDoublyIndirectPtr (sector : Nat) (hk : k < numDirect) :
    (d.setDoublyIndirectPtr sector).directPtr k = d.directPtr k :=
  word_setWord_ne _ _ _ _ (by unfold numDirect at hk; omega)

theorem singlyIndirectPtr_setSinglyIndirectPtr (hs : sector < 2 ^ 32) :
    (d.setSinglyIndirectPtr sector).singlyIndirectPtr = sector := by
  unfold singlyIndirectPtr setSinglyIndirectPtr
  rw [word_setWord_self _ _ _ (by omega), Nat.mod_eq_of_lt hs]

theorem doublyIndirectPtr_setDoublyIndirectPtr (hs : sector < 2 ^ 32) :
    (d.setDoublyIndirectPtr sector).doublyIndirectPtr = sector := by
  unfold doublyIndirectPtr setDoublyIndirectPtr
  rw [word_setWord_self _ _ _ (by omega), Nat.mod_eq_of_lt hs]

variable (n : Int) (sector k : Nat)

@[simp] theorem length_setDirectPtr (sector : Nat) : (d.setDirectPtr k sector).length = d.length :=
  congrArg (fun x : Nat => toInt32 x) (word_setWord_ne _ _ _ _ (by omega))

@[simp] theorem length_setSinglyIndirectPtr : (d.setSinglyIndirectPtr sector).length = d.length :=
  congrArg (fun x : Nat => toInt32 x) (word_setWord_ne _ _ _ _ (by omega))

@[simp] theorem length_setDoublyIndirectPtr : (d.setDoublyIndirectPtr sector).length = d.length :=
  congrArg (fun x : Nat => toInt32 x) (word_setWord_ne _ _ _ _ (by omega))

@[simp] theorem doublyIndirectPtr_setSinglyIndirectPtr :
    (d.setSinglyIndirectPtr sector).doublyIndirectPtr = d.doublyIndirectPtr :=
  word_setWord_ne _ _ _ _ (by omega)

@[simp] theorem singlyIndirectPtr_setDoublyIndirectPtr :
    (d.setDoublyIndirectPtr sector).singlyIndirectPtr = d.singlyIndirectPtr :=
  word_setWord_ne _ _ _ _ (by omega)

theorem length_le : d.length ≤ 2147483647 := Int.le_of_lt_add_one (toInt32_lt _)

theorem length_setLength {n : Int} (h1 : -2147483648 ≤ n) (h2 : n < 2147483648) : (d.setLength n).length = n := by
  have hlt : toUInt32 n < 2 ^ 32 := toUInt32_lt n
  unfold length setLength
  rw [word_setWord_self _ _ _ (by omega), Nat.mod_eq_of_lt hlt, toInt32_toUInt32 h1 h2]

@[simp] theorem directPtr_setLength : (d.setLength n).directPtr k = d.directPtr k := word_setWord_ne _ _ _ _ (by omega)

@[simp] theorem singlyIndirectPtr_setLength : (d.setLength n).singlyIndirectPtr = d.singlyIndirectPtr :=
  word_setWord_ne _ _ _ _ (by omega)

@[simp] theorem doublyIndirectPtr_setLength : (d.setLength n).doublyIndirectPtr = d.doublyIndirectPtr :=
  word_setWord_ne _ _ _ _ (by omega)

end Fields

end InodeDisk

/-- `struct inode`. (Its lock and condition variables are part of the systems that interleave threads over it.) -/
structure Inode where
  sector : Nat
  openCnt : Int
  removed : Bool
  extending : Bool
  denyWriteCnt : Int
  data : InodeDisk

namespace Inode

variable (i : Inode)

/-- The first critical section of `inode_write_at`: the writer counts itself in, or finds writes denied. -/
def enterWrite : Option Inode :=
  if 0 < i.denyWriteCnt then none else some { i with denyWriteCnt := i.denyWriteCnt - 1 }

/-- The test of the second critical section of `inode_write_at`. The sum is a signed 32-bit one. -/
def needsGrowth (size offset : Int) : Bool := decide (i.data.length < toInt32 (size + offset))

/-- `allocate_file` begins: the inode is marked, and its lock is given up. -/
def beginGrowth : Inode := { i with extending := true }

/-- `allocate_file` ends: with the lock taken again, the new length is published and the mark cleared. -/
def endGrowth (length : Int) : Inode := { i with data := i.data.setLength length, extending := false }

/-- The last critical section of `inode_write_at`: the writer counts itself out. -/
def leaveWrite : Inode := { i with denyWriteCnt := i.denyWriteCnt + 1 }

/-- The critical section of `inode_deny_write`, once no writer is left. -/
def denyWrite : Inode := { i with denyWriteCnt := i.denyWriteCnt + 1 }

/-- `inode_allow_write`, after its assertions. -/
def allowWrite : Inode := { i with denyWriteCnt := i.denyWriteCnt - 1 }

end Inode

/-- `sector_ofs` of the loops of `inode_read_at` and `inode_write_at`. -/
def sectorOfs : Int := offset.tmod blockSectorSize

/-- `chunk_size` of these loops: as many bytes as are left to copy, in the inode and in the sector. -/
def chunkSize (length size offset : Int) : Int :=
  let inodeLeft := toInt32 (length - offset)
  let sectorLeft := blockSectorSize - sectorOfs offset
  let minLeft := if inodeLeft < sectorLeft then inodeLeft else sectorLeft
  if size < minLeft then size else minLeft

end Pintos
