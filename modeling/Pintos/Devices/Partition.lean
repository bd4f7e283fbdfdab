import Pintos.Filesys.Block

/-!
# Partitions of a disk (`devices/partition.c`)

`partition_scan` reads the table in the master boot record, follows the extended entries it finds and registers every other
entry that lies inside the disk as a block device of its own. `read_partition_table` takes the number of a sector, but the
sector that it reads is always number 0.

The recursion has no bound in the source. Here it has a depth: a scan that would nest deeper ends in an error, with all that
it had done by then, so what holds at every depth holds at every moment of a scan, whether it ends or not.
-/

namespace Pintos

/-- `enum block_type`. -/
inductive BlockType where
  | kernel
  | filesys
  | scratch
  | swap
  | raw
  | foreign
  deriving DecidableEq, Repr

/-- `struct partition_table_entry`. The kernel reads neither the bootable mark nor the two geometric addresses. -/
structure PartitionTableEntry where
  type : UInt8
  offset : Nat
  size : Nat
  deriving DecidableEq, Repr

namespace PartitionTableEntry

variable (e : PartitionTableEntry)

/-- An entry that stands for no partition. -/
def isEmpty : Bool := e.size == 0 || e.type == 0

/-- The types of the entries that point to a further table. -/
def isExtended : Bool := e.type == 0x05 || e.type == 0x0f || e.type == 0x85 || e.type == 0xc5

end PartitionTableEntry

/-- Where the table entries lie in a sector: after the loader. -/
def partitionsOffset : Nat := 446

/-- The bytes of a table entry. -/
def partitionEntrySize : Nat := 16

namespace Contents

variable (pt : Contents)

/-- `pt->partitions[i]`. -/
def partitionEntry (i : Nat) : PartitionTableEntry :=
  let e := partitionsOffset + partitionEntrySize * i
  { type := pt.byte (e + 4), offset := Bytes.wordAt pt.byte (e + 8), size := Bytes.wordAt pt.byte (e + 12) }

/-- `pt->partitions`. -/
def partitions : List PartitionTableEntry := (List.range 4).map pt.partitionEntry

/-- `pt->signature`. -/
def signature : Nat := (pt.byte 510).toNat + 256 * (pt.byte 511).toNat

end Contents

/-- A registered partition: its number on the disk, its role, its first sector (`struct partition`) and its size. -/
structure Partition where
  partNr : Nat
  type : BlockType
  start : Nat
  size : Nat
  deriving DecidableEq, Repr

/-- The lines that a scan prints. -/
inductive ScanLine where
  /-- "Partition table at sector %u past end of device." -/
  | tablePastEnd (sector : Nat)
  /-- "Invalid partition table signature" -/
  | invalidSignature
  /-- "Invalid extended partition table in sector %u" -/
  | invalidExtended (sector : Nat)
  /-- "Extended partition in sector %u" -/
  | extended (sector : Nat)
  /-- "Partition starts past end of device (sector %u)" -/
  | startsPastEnd (partNr start : Nat)
  /-- "Partition end (%u) past end of device (%u)" -/
  | endPastEnd (partNr partEnd size : Nat)
  /-- "Device contains no partitions" -/
  | noPartitions
  deriving DecidableEq, Repr

/-- What a scan has done: the partitions counted, and those registered, the lines printed and the sectors read, all in
order. -/
structure Scan where
  partNr : Nat
  registered : List Partition
  lines : List ScanLine
  reads : List Nat
  deriving DecidableEq, Repr

/-- The scan before the first table. -/
def Scan.start : Scan := { partNr := 0, registered := [], lines := [], reads := [] }

/-- The scan with one more line printed. -/
def Scan.print (scan : Scan) (line : ScanLine) : Scan := { scan with lines := scan.lines ++ [line] }

/-- The scan with one more sector read. -/
def Scan.read (scan : Scan) (sector : Nat) : Scan := { scan with reads := scan.reads ++ [sector] }

variable (b : Block) (partType : UInt8)

/-- The role that a partition type stands for. -/
def blockTypeOf : BlockType :=
  if partType = 0x20 then .kernel
  else if partType = 0x21 then .filesys
  else if partType = 0x22 then .scratch
  else if partType = 0x23 then .swap
  else .foreign

/-- `found_partition`: a partition that lies inside the device is registered. The sums are those of `block_sector_t`. -/
def foundPartition (start size : Nat) (scan : Scan) : Scan :=
  let partEnd := (start + size) % 2 ^ 32
  if b.size ≤ start then scan.print (.startsPastEnd scan.partNr start)
  else if partEnd < start ∨ b.size < partEnd then scan.print (.endPastEnd scan.partNr partEnd b.size)
  else
    { scan with
      registered := scan.registered ++ [{ partNr := scan.partNr, type := blockTypeOf partType, start := start, size := size }] }

/-- The body of the loop of `read_partition_table`, over the way a nested table is read. -/
def readTableEntry (nested : Nat → Nat → Scan → Except Scan Scan) (sector primaryExtendedSector : Nat) (scan : Scan)
    (e : PartitionTableEntry) : Except Scan Scan :=
  if e.isEmpty then .ok scan
  else if e.isExtended then
    let scan := scan.print (.extended sector)
    if sector = 0 then nested e.offset e.offset scan
    else nested ((e.offset + primaryExtendedSector) % 2 ^ 32) primaryExtendedSector scan
  else .ok (foundPartition b e.type ((e.offset + sector) % 2 ^ 32) e.size { scan with partNr := scan.partNr + 1 })

/-- `read_partition_table`, where the calls nest at most to the given depth. The sector is one of the device when
`block_read` is reached, so sector 0 is one too. -/
def readPartitionTable (b : Block) : Nat → Nat → Nat → Scan → Except Scan Scan
  | 0, _, _, scan => .error scan
  | depth + 1, sector, primaryExtendedSector, scan =>
    if b.size ≤ sector then .ok (scan.print (.tablePastEnd sector))
    else
      match b.read 0 with
      | none => .error scan
      | some pt =>
        let scan := scan.read 0
        if pt.signature ≠ 0xaa55 then
          .ok (scan.print (if primaryExtendedSector = 0 then .invalidSignature else .invalidExtended sector))
        else pt.partitions.foldlM (readTableEntry b (readPartitionTable b depth) sector primaryExtendedSector) scan

/-- `partition_scan`, where the calls nest at most to the given depth. -/
def partitionScan (depth : Nat) : Except Scan Scan := do
  let scan ← readPartitionTable b depth 0 0 .start
  return if scan.partNr = 0 then scan.print .noPartitions else scan

/-- The scan as far as it got. -/
def Scan.soFar : Except Scan Scan → Scan
  | .ok scan => scan
  | .error scan => scan

/-! ## The partition as a device -/

namespace Partition

variable (p : Partition) (b : Block) (sector : Nat)

/-- `check_sector` of the partition. -/
def checkSector : Bool := decide (sector < p.size)

/-- The sector of the disk that `partition_read` and `partition_write` name, a sum of `block_sector_t`. -/
def underlying : Nat := (p.start + sector) % 2 ^ 32

/-- `block_read` on the partition: its own check, then `partition_read`, the `block_read` of the disk with the check of the
disk. -/
def read : Option Contents :=
  if p.checkSector sector then b.read (p.underlying sector) else none

/-- `block_write` on the partition: its own check, the assertion that the partition is not a foreign one, then
`partition_write`. -/
def write (c : Contents) : Option Block :=
  if p.checkSector sector then
    if p.type = .foreign then none else b.write (p.underlying sector) c
  else none

end Partition

end Pintos
