import Pintos.Filesys.Inode
import Pintos.Library.Program

/-!
# The block map of an inode (`filesys/inode.c`: `byte_to_sector`, `allocate_file`)

Both functions are programs over the requests they make: to look at the inode's data, to store a pointer in it, to ask the
free map for a sector, and to read or write an index block through the buffer cache. Between two requests other threads may
run; handled one after the other they are the functions run alone.
-/

namespace Pintos

open Program

/-- What the code that walks or grows a block map asks for. -/
inductive BlockOp where
  /-- Look at `*inode_disk`. -/
  | data
  /-- `inode_disk->direct_ptrs[k] = sector`. -/
  | setDirect (k sector : Nat)
  /-- `inode_disk->singly_indirect_ptr = sector`. -/
  | setSingly (sector : Nat)
  /-- `inode_disk->doubly_indirect_ptr = sector`. -/
  | setDoubly (sector : Nat)
  /-- `free_map_allocate (1, &sector)`. -/
  | allocate
  /-- `bufcache_read` of a whole sector. -/
  | read (sector : Nat)
  /-- `bufcache_write` of a whole sector. -/
  | write (sector : Nat) (block : Contents)
  /-- An array is accessed outside its bounds: the behaviour is undefined. -/
  | wild

/-- The answers. Nothing comes back from undefined behaviour. -/
@[reducible] def BlockOp.Res : BlockOp → Type
  | .data => InodeDisk
  | .setDirect _ _ | .setSingly _ | .setDoubly _ | .write _ _ => Unit
  | .allocate => Option Nat
  | .read _ => Contents
  | .wild => Empty

/-- The signature of block map programs. -/
def blockSig : Signature where
  Op := BlockOp
  Res := BlockOp.Res

/-- A program over a block map. -/
abbrev BlockM (α : Type) : Type := Prog blockSig α

namespace BlockM

/-- Look at `*inode_disk`. -/
def data : BlockM InodeDisk := .op (S := blockSig) .data

/-- Store a direct pointer. -/
def setDirect (k sector : Nat) : BlockM Unit := .op (S := blockSig) (.setDirect k sector)

/-- Store the singly indirect pointer. -/
def setSingly (sector : Nat) : BlockM Unit := .op (S := blockSig) (.setSingly sector)

/-- Store the doubly indirect pointer. -/
def setDoubly (sector : Nat) : BlockM Unit := .op (S := blockSig) (.setDoubly sector)

/-- `free_map_allocate (1, &sector)`. -/
def allocate : BlockM (Option Nat) := .op (S := blockSig) .allocate

/-- `bufcache_read` of a whole sector. -/
def read (sector : Nat) : BlockM Contents := .op (S := blockSig) (.read sector)

/-- `bufcache_write` of a whole sector. -/
def write (sector : Nat) (block : Contents) : BlockM Unit := .op (S := blockSig) (.write sector block)

/-- Undefined behaviour. -/
def wild {α : Type} : BlockM α := .call (S := blockSig) .wild (fun e => nomatch e)

/-- `blocks[k]` of a local index block. -/
def entry (block : Contents) (k : Nat) : BlockM Nat := if k < numBlocksInIndirect then pure (block.word k) else wild

end BlockM

/-- `bytes_to_sectors`: the sum is a signed 32-bit one, the result an unsigned one. -/
def bytesToSectors (size : Int) : Nat := toUInt32 ((toInt32 (size + (blockSectorSize - 1))).tdiv blockSectorSize)

/-- `byte_to_sector`. -/
def byteToSector (pos : Int) : BlockM Nat := do
  let d ← BlockM.data
  if pos < d.length then
    let blockNum := pos.tdiv blockSectorSize
    if blockNum < 0 then BlockM.wild
    else if blockNum < numDirect then pure (d.directPtr blockNum.toNat)
    else if blockNum < numDirect + numBlocksInIndirect then do
      let indirect ← BlockM.read d.singlyIndirectPtr
      BlockM.entry indirect (blockNum.toNat - numDirect)
    else do
      let doublyIndirect ← BlockM.read d.doublyIndirectPtr
      let blockNum := blockNum.toNat - (numDirect + numBlocksInIndirect)
      let indirectSector ← BlockM.entry doublyIndirect (blockNum / numBlocksInIndirect)
      let indirect ← BlockM.read indirectSector
      BlockM.entry indirect (blockNum % blockSectorSize)
  else pure invalidSector

/-- `byte_to_sector (inode_disk, block_num * BLOCK_SECTOR_SIZE) == -1`. -/
def isHole (blockNum : Nat) : BlockM Bool := do
  let sector ← byteToSector (toInt32 (blockNum * blockSectorSize))
  pure (sector == invalidSector)

/-- The first loop of `allocate_file`, over the direct pointers: `todo` more of them, the next one number `count`. False is
its early return. -/
def allocateDirect : Nat → Nat → BlockM Bool
  | 0, _ => pure true
  | todo + 1, count => do
    if ← isHole count then
      match ← BlockM.allocate with
      | none => pure false
      | some sector =>
        BlockM.setDirect count sector
        allocateDirect todo (count + 1)
    else allocateDirect todo (count + 1)

/-- The loops of `allocate_file` over the entries of a local index block: `todo` more of them, the next one number `count`,
for block `blockNum` of the file. The result is the index block, or nothing on the early return. -/
def allocateEntries : Nat → Nat → Nat → Contents → BlockM (Option Contents)
  | 0, _, _, indirect => pure (some indirect)
  | todo + 1, count, blockNum, indirect => do
    if ← isHole blockNum then
      match ← BlockM.allocate with
      | none => pure none
      | some sector => allocateEntries todo (count + 1) (blockNum + 1) (indirect.setWord count sector)
    else allocateEntries todo (count + 1) (blockNum + 1) indirect

/-- What `allocate_file` does first for an index block: if the first block under it is a hole, it stores a new sector as its
pointer. -/
def allocateIndex (store : Nat → BlockM Unit) (blockNum : Nat) : BlockM Bool := do
  if ← isHole blockNum then
    match ← BlockM.allocate with
    | none => pure false
    | some sector =>
      store sector
      pure true
  else pure true

/-- The part of `allocate_file` for the singly indirect block, with `numSectors` sectors still to come from block `blockNum`
on. -/
def allocateSingly (numSectors blockNum : Nat) : BlockM Bool := do
  if ← allocateIndex BlockM.setSingly blockNum then
    let d ← BlockM.data
    let indirect ← BlockM.read d.singlyIndirectPtr
    match ← allocateEntries (min numBlocksInIndirect numSectors) 0 blockNum indirect with
    | none => pure false
    | some indirect =>
      let d ← BlockM.data
      BlockM.write d.singlyIndirectPtr indirect
      pure true
  else pure false

/-- What the loop over the doubly indirect block does first: if the first block under entry `i` is a hole, the entry gets a
new sector. -/
def allocateIndirectEntry (i blockNum : Nat) (doublyIndirect : Contents) : BlockM (Option Contents) := do
  if ← isHole blockNum then
    match ← BlockM.allocate with
    | none => pure none
    | some sector => if i < numBlocksInIndirect then pure (some (doublyIndirect.setWord i sector)) else BlockM.wild
  else pure (some doublyIndirect)

/-- The loop of `allocate_file` over the entries of the doubly indirect block: `todo` more of them, the next one number
`i`. -/
def allocateIndirects : Nat → Nat → Nat → Nat → Contents → BlockM (Option Contents)
  | 0, _, _, _, doublyIndirect => pure (some doublyIndirect)
  | todo + 1, i, numSectors, blockNum, doublyIndirect => do
    match ← allocateIndirectEntry i blockNum doublyIndirect with
    | none => pure none
    | some doublyIndirect =>
      let indirectSector ← BlockM.entry doublyIndirect i
      let indirect ← BlockM.read indirectSector
      match ← allocateEntries (min numBlocksInIndirect numSectors) 0 blockNum indirect with
      | none => pure none
      | some indirect =>
        let indirectSector ← BlockM.entry doublyIndirect i
        BlockM.write indirectSector indirect
        let count := min numBlocksInIndirect numSectors
        allocateIndirects todo (i + 1) (numSectors - count) (blockNum + count) doublyIndirect

/-- The part of `allocate_file` for the doubly indirect block. The number of index blocks is computed with the sector size,
512, where an index block has 128 entries. -/
def allocateDoubly (numSectors blockNum : Nat) : BlockM Bool := do
  if ← allocateIndex BlockM.setDoubly blockNum then
    let d ← BlockM.data
    let doublyIndirect ← BlockM.read d.doublyIndirectPtr
    let numIndirectBlocks := (numSectors + (blockSectorSize - 1)) % 2 ^ 32 / blockSectorSize
    match ← allocateIndirects numIndirectBlocks 0 numSectors blockNum doublyIndirect with
    | none => pure false
    | some doublyIndirect =>
      let d ← BlockM.data
      BlockM.write d.doublyIndirectPtr doublyIndirect
      pure true
  else pure false

/-- `allocate_file`, between giving up the inode's lock and taking it again: sectors for every block of a file of the given
length that has none yet. False is its early return, when the free map has no sector left. -/
def allocateBlocks (length : Int) : BlockM Bool := do
  let numSectors := bytesToSectors length
  let direct := min numDirect numSectors
  if ← allocateDirect direct 0 then
    let numSectors := numSectors - direct
    if 0 < numSectors then
      if ← allocateSingly numSectors direct then
        let singly := min numBlocksInIndirect numSectors
        let numSectors := numSectors - singly
        if 0 < numSectors then allocateDoubly numSectors (direct + singly) else pure true
      else pure false
    else pure true
  else pure false

/-! ## What the requests do -/

/-- What block map programs work on: the inode's data, the free map (true where a sector is used) and the device, as it is
seen through the buffer cache. -/
structure BlockWorld where
  data : InodeDisk
  used : Nat → Bool
  dev : Block

/-- The world with a sector marked as used. -/
def BlockWorld.mark (w : BlockWorld) (x : Nat) : BlockWorld := { w with used := fun y => if y = x then true else w.used y }

/-- The world with the bytes of a sector replaced. -/
def BlockWorld.put (w : BlockWorld) (x : Nat) (c : Contents) : BlockWorld :=
  { w with dev := { w.dev with disk := fun y => if y = x then c else w.dev.disk y } }

/-- Why execution does not go on: a kernel panic, undefined behaviour, a wait for what no other thread will bring about, or
an allocation that failed where the runs in which one fails are left out. -/
inductive Halt where
  | panic | wild | hang | exhausted
  deriving DecidableEq

/-- One request. `choice` is the answer of the free map. -/
def BlockOp.exec (choice : Option Nat) : (o : BlockOp) → BlockWorld → Except Halt (o.Res × BlockWorld)
  | .data, w => .ok (w.data, w)
  | .setDirect k x, w => .ok ((), { w with data := w.data.setDirectPtr k x })
  | .setSingly x, w => .ok ((), { w with data := w.data.setSinglyIndirectPtr x })
  | .setDoubly x, w => .ok ((), { w with data := w.data.setDoublyIndirectPtr x })
  | .allocate, w =>
    match choice with
    | some x => .ok (some x, w.mark x)
    | none => .ok (none, w)
  | .read x, w => if w.dev.checkSector x then .ok (w.dev.disk x, w) else .error .panic
  | .write x c, w => if w.dev.checkSector x then .ok ((), w.put x c) else .error .panic
  | .wild, _ => .error .wild

/-- What the free map may answer: a sector of the device that is not used, or that there is none. -/
def BlockWorld.mayChoose (w : BlockWorld) : Option Nat → Bool
  | some x => w.dev.checkSector x && !w.used x
  | none => true

end Pintos
