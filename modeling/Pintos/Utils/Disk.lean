import Pintos.Filesys.Block
import Pintos.Lib.String

/-!
# The disks that the host makes (`utils/Pintos.pm`)

`assemble_disk` lays the partitions out one after the other behind the master boot record, and writes the record: the loader,
the kernel command line, the partition table and the signature. `interpret_partition_table` reads a table back. The numbers
are those of Perl: none of them leaves the integers that a double holds exactly, so they are natural numbers here.
-/

namespace Pintos

/-- The roles that a partition may have. -/
inductive Role where
  | kernel
  | filesys
  | scratch
  | swap
  deriving DecidableEq, Repr

/-- `@role_order`: the order of the roles within a disk. -/
def roleOrder : List Role := [.kernel, .filesys, .scratch, .swap]

/-- `%role2type`. -/
def Role.type : Role → UInt8
  | .kernel => 0x20
  | .filesys => 0x21
  | .scratch => 0x22
  | .swap => 0x23

/-- `%type2role`, the reverse of `%role2type`. -/
def roleOfType (type : UInt8) : Option Role := roleOrder.find? (fun r => r.type == type)

/-- A disk geometry: heads per cylinder and sectors per track. -/
structure Geometry where
  h : Nat
  s : Nat

/-- The geometry that `assemble_disk` uses where it is given none. -/
def Geometry.default : Geometry := { h := 16, s := 63 }

/-- `cyl_sectors`. -/
def Geometry.cylSectors (g : Geometry) : Nat := g.h * g.s

/-- `div_round_up`. -/
def divRoundUp (x y : Nat) : Nat := (x + y - 1) / y

/-- `round_up`. -/
def roundUp (x y : Nat) : Nat := divRoundUp x y * y

/-- `pack ("a$n", ...)`: cut, or filled with null bytes, to the given length. -/
def packA (n : Nat) (bs : List UInt8) : List UInt8 := (bs ++ List.replicate n 0).take n

/-! ## The master boot record -/

/-- `lba_to_chs`: the cylinder, head and sector of a logical sector; past the last cylinder that can be named, always the
same ones. -/
def lbaToChs (lba : Nat) (g : Geometry) : Nat × Nat × Nat :=
  let cyl := lba / (g.h * g.s)
  let temp := lba % (g.h * g.s)
  let head := temp / g.s
  let sect := temp % g.s + 1
  if cyl ≤ 1023 then (cyl, head, sect) else (1023, 254, 63)

/-- `pack_chs`. -/
def packChs (lba : Nat) (g : Geometry) : List UInt8 :=
  let (cyl, head, sect) := lbaToChs lba g
  [UInt8.ofNat head, UInt8.ofNat (sect ||| ((cyl >>> 2) &&& 0xc0)), UInt8.ofNat (cyl &&& 0xff)]

/-- A partition of a new disk: its role, its contents and where it was put. -/
structure HostPartition where
  role : Role
  bytes : List UInt8
  start : Nat
  sectors : Nat

/-- The 16 bytes that `make_partition_table` writes for a partition. -/
def HostPartition.entry (g : Geometry) (p : HostPartition) : List UInt8 :=
  [if p.role = .kernel then 0x80 else 0] ++ packChs p.start g ++ [p.role.type] ++ packChs (p.start + p.sectors - 1) g ++
    Bytes.wordBytes p.start ++ Bytes.wordBytes p.sectors

/-- `make_partition_table`, over the partitions of the disk in the order of their roles. -/
def makePartitionTable (g : Geometry) (parts : List HostPartition) : List UInt8 :=
  packA 64 (parts.flatMap (HostPartition.entry g))

/-- `make_kernel_command_line`: the number of arguments and the arguments, each with its null byte; or it dies. -/
def makeKernelCommandLine (args : List CString) : Option (List UInt8) :=
  let line := args.flatMap (fun a => a.bytes ++ [0])
  if 128 < line.length then none else some (Bytes.wordBytes args.length ++ packA 128 line)

/-- `$LOADER_SIZE`. -/
def loaderSize : Nat := 314

/-- `$mbr`: the loader, the command line, the partition table and the signature. -/
def masterRecord (g : Geometry) (loader line : List UInt8) (parts : List HostPartition) : List UInt8 :=
  packA loaderSize loader ++ line ++ makePartitionTable g parts ++ [0x55, 0xaa]

/-! ## The disk -/

/-- The three ways to align partitions. -/
inductive Align where
  | bochs
  | full
  | none
  deriving DecidableEq, Repr

/-- `$align`: whether partitions start and end on cylinder boundaries. -/
def Align.align : Align → Bool
  | .full => true
  | _ => false

/-- `$pad`: whether the end of the disk is padded out to a cylinder boundary. -/
def Align.pad : Align → Bool
  | .bochs => true
  | _ => false

/-- The loop that calculates the disk size: where each partition goes, and the sectors up to the end of the last one. -/
def layOut (align : Bool) (g : Geometry) : Nat → List (Role × List UInt8) → List HostPartition × Nat
  | totalSectors, [] => ([], totalSectors)
  | totalSectors, (role, bytes) :: rest =>
    let stop := totalSectors + divRoundUp bytes.length 512
    let stop := if align then roundUp stop g.cylSectors else stop
    let next := layOut align g stop rest
    ({ role := role, bytes := bytes, start := totalSectors, sectors := stop - totalSectors } :: next.1, next.2)

/-- What `assemble_disk` leaves: the partitions, the sectors up to the end of the last one and the bytes of the disk file. -/
structure DiskImage where
  parts : List HostPartition
  totalSectors : Nat
  bytes : List UInt8

/-- The partitions that are in use, in the order of their roles, with the bytes to copy into each. -/
def inRoleOrder (parts : Role → Option (List UInt8)) : List (Role × List UInt8) :=
  roleOrder.filterMap (fun r => (parts r).map (fun bytes => (r, bytes)))

/-- What `assemble_disk` writes after the master boot record: the rest of the first track where partitions are aligned, the
copy of each partition filled up to its last sector, and the padding of the disk. -/
def writeParts (align : Align) (g : Geometry) (parts : List HostPartition) (totalSectors : Nat) : List UInt8 :=
  (if align.align then List.replicate (512 * (g.s - 1)) 0 else []) ++
    parts.flatMap (fun p => p.bytes ++ List.replicate (p.sectors * 512 - p.bytes.length) 0) ++
    (if align.pad then List.replicate ((roundUp totalSectors g.cylSectors - totalSectors) * 512) 0 else [])

/-- `assemble_disk` with the format `partitioned`; it dies where the command line is too long. -/
def assembleDisk (align : Align) (g : Geometry) (loader : List UInt8) (args : List CString) (parts : Role → Option (List UInt8)) :
    Option DiskImage := do
  let (laid, totalSectors) := layOut align.align g (if align.align then g.s else 1) (inRoleOrder parts)
  let line ← makeKernelCommandLine args
  let mbr := masterRecord g loader line laid
  if mbr.length ≠ 512 then none
  else some { parts := laid, totalSectors := totalSectors, bytes := mbr ++ writeParts align g laid totalSectors }

/-- The disk file as the device that the machine runs on. -/
def DiskImage.block (image : DiskImage) : Block where
  size := image.bytes.length / 512
  disk sector :=
    { byte := fun k => if k < blockSectorSize then image.bytes.getD (512 * sector + k) 0 else 0
      beyond := fun _ hk => if_neg (Nat.not_lt.mpr hk) }

/-! ## Reading a table back -/

/-- What `unpack ("C X V C x3 V V", ...)` takes from an entry: its first byte, its first four bytes as a word, its type, its
start and its length. -/
structure UnpackedEntry where
  bootable : UInt8
  valid : Nat
  type : UInt8
  lbaStart : Nat
  lbaLength : Nat
  deriving DecidableEq, Repr

/-- Entry `i` of the table of a master boot record. -/
def unpackEntry (mbr : Bytes.Memory) (i : Nat) : UnpackedEntry :=
  let e := 446 + 16 * i
  { bootable := mbr e, valid := Bytes.wordAt mbr e, type := mbr (e + 4), lbaStart := Bytes.wordAt mbr (e + 8),
    lbaLength := Bytes.wordAt mbr (e + 12) }

/-- Where a partition was found to be. -/
structure Extent where
  start : Nat
  sectors : Nat
  deriving DecidableEq, Repr

/-- The body of the loop of `interpret_partition_table`: an entry that is in use, well marked and of a role not seen yet is
taken. -/
def interpretEntry (parts : Role → Option Extent) (e : UnpackedEntry) : Role → Option Extent :=
  if e.valid = 0 then parts
  else if e.bootable ≠ 0 ∧ e.bootable ≠ 0x80 then parts
  else
    match roleOfType e.type with
    | none => parts
    | some role =>
      if (parts role).isSome then parts
      else Function.update parts role (some { start := e.lbaStart, sectors := e.lbaLength })

/-- `interpret_partition_table`. -/
def interpretPartitionTable (mbr : Bytes.Memory) : Role → Option Extent :=
  ((List.range 4).map (unpackEntry mbr)).foldl interpretEntry (fun _ => none)

end Pintos
