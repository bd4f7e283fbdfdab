import Mathlib.Algebra.Group.Nat.Defs
import Mathlib.Data.Finset.Card
import Pintos.Library.Transition
import Pintos.Threads.Vaddr

/-!
# The block allocator (`threads/malloc.c`)

`malloc` cuts pages into blocks of seven sizes and hands out whole pages for what is bigger. Block, arena and descriptor are
tied by addresses only: the arena of a block starts the page of the block, and its header says which descriptor it belongs
to. So a header is whatever lies in the first bytes of a page, and a `memset` over it destroys it.

`palloc` is the environment: it hands out pages that `malloc` does not hold yet, or fails. The calls come one after the
other; every path through `malloc` and `free` gives the lock of its descriptor back.
-/

namespace Pintos

/-- `sizeof (struct arena)`. -/
def arenaSize : Nat := 12

/-- `ARENA_MAGIC`. -/
def arenaMagic : Nat := 0x9a548eed

/-- The constant part of a `struct desc`. -/
structure Desc where
  blockSize : Nat
  blocksPerArena : Nat
  deriving DecidableEq, Repr

/-- The loop of `malloc_init`, which stops at the end of the array at the latest. -/
def mallocInitFrom : Nat → Nat → List Desc
  | 0, _ => []
  | room + 1, blockSize =>
    if blockSize < pgsize / 2 then
      { blockSize := blockSize, blocksPerArena := (pgsize - arenaSize) / blockSize } :: mallocInitFrom room (blockSize * 2)
    else []

/-- The descriptors that `malloc_init` leaves in the array of ten. -/
def descs : List Desc := mallocInitFrom 10 16

/-- The size of the blocks of a descriptor, named by its index. -/
def blockSize (d : Nat) : Nat := (descs.getD d { blockSize := 0, blocksPerArena := 0 }).blockSize

/-- The number of blocks in an arena of a descriptor. -/
def blocksPerArena (d : Nat) : Nat := (descs.getD d { blockSize := 0, blocksPerArena := 0 }).blocksPerArena

/-- The `desc` field of an arena header: a null pointer, a pointer to a descriptor, or another value. -/
inductive DescPtr where
  | null
  | desc (d : Nat)
  | wild
  deriving DecidableEq, Repr

/-- `struct arena`. -/
structure Arena where
  magic : Nat
  desc : DescPtr
  freeCnt : Nat
  deriving DecidableEq, Repr

/-- What `memset` with `0xcc` leaves of a header. -/
def Arena.cleared : Arena := { magic := 0xcccccccc, desc := .wild, freeCnt := 0xcccccccc }

/-- What `memset` with 0 leaves of a header. -/
def Arena.zeroed : Arena := { magic := 0, desc := .null, freeCnt := 0 }

/-- `memset (p, 0, size)` on the bytes of the memory. -/
def zeroBytes (bytes : Nat → UInt8) (p size : Nat) : Nat → UInt8 := fun x => if p ≤ x ∧ x < p + size then 0 else bytes x

/-- The memory as `malloc` sees it: what lies in the first bytes of every page, read as a header; the free lists, as the
addresses of the blocks on them; and the groups of pages that `palloc` has handed out, each a first page and a number. -/
structure Heap where
  header : Nat → Arena
  freeList : Nat → List Nat
  groups : List (Nat × Nat)

/-- The assertions and the undefined steps that a call may run into. -/
inductive MallocFault where
  /-- The assertion that the arena is not a null pointer. -/
  | nullArena
  /-- The assertion on the magic number. -/
  | magic
  /-- The assertion that the block is aligned for its arena. -/
  | alignment
  /-- The assertion that a big block starts behind the header. -/
  | bigOffset
  /-- The assertion on the index of a block. -/
  | blockIndex
  /-- The assertion that the arena is entirely free. -/
  | freeCount
  /-- A pointer to a descriptor that is none. -/
  | wildDesc
  /-- The assertion of `list_pop_front` that the list is not empty. -/
  | emptyList
  /-- A `list_remove` of an element that is not on the list. -/
  | notOnList
  /-- Pages given back to `palloc` that are no group of it. -/
  | notHeld
  deriving DecidableEq, Repr

namespace Heap

/-- `memset (b, 0xcc, len)`: every header that the bytes reach is destroyed. -/
def fill (h : Heap) (b len : Nat) : Heap :=
  { h with header := fun p => if p * pgsize < b + len ∧ b < p * pgsize + arenaSize then Arena.cleared else h.header p }

/-- The heap with the header of a page set. -/
def setHeader (h : Heap) (p : Nat) (a : Arena) : Heap := { h with header := Function.update h.header p a }

/-- The heap with a free list set. -/
def setList (h : Heap) (d : Nat) (l : List Nat) : Heap := { h with freeList := Function.update h.freeList d l }

/-- The pages are none of those held, none is the page at address 0 and all have addresses. -/
def fresh (h : Heap) (p cnt : Nat) : Bool :=
  decide (0 < p ∧ (p + cnt) * pgsize ≤ 2 ^ 32) && h.groups.all (fun g => decide (p + cnt ≤ g.1 ∨ g.1 + g.2 ≤ p))

/-- `palloc_get_multiple (0, cnt)`, where the environment answers with a page or none; an answer that is not fresh stands for
none too. -/
def pallocGet (h : Heap) (cnt : Nat) (answer : Option Nat) : Option (Nat × Heap) :=
  if cnt = 0 then none
  else
    match answer with
    | none => none
    | some p => if h.fresh p cnt then some (p, { h with groups := (p, cnt) :: h.groups }) else none

/-- `palloc_free_multiple (p, cnt)`, which clears the pages. -/
def pallocFree (h : Heap) (p cnt : Nat) : Except MallocFault Heap :=
  if h.groups.contains (p, cnt) then .ok ({ h with groups := h.groups.erase (p, cnt) }.fill (p * pgsize) (cnt * pgsize))
  else .error .notHeld

/-- `block_to_arena`: the page of the block, after the four assertions. The subtraction is one of `size_t`. -/
def blockToArena (h : Heap) (b : Nat) : Except MallocFault Nat :=
  let a := pgNo b
  if a = 0 then .error .nullArena
  else if (h.header a).magic ≠ arenaMagic then .error .magic
  else
    match (h.header a).desc with
    | .wild => .error .wildDesc
    | .desc d => if (pgOfs b + 2 ^ 32 - arenaSize) % 2 ^ 32 % blockSize d ≠ 0 then .error .alignment else .ok a
    | .null => if pgOfs b ≠ arenaSize then .error .bigOffset else .ok a

/-- `arena_to_block`. -/
def arenaToBlock (h : Heap) (a idx : Nat) : Except MallocFault Nat :=
  if a = 0 then .error .nullArena
  else if (h.header a).magic ≠ arenaMagic then .error .magic
  else
    match (h.header a).desc with
    | .desc d => if idx < blocksPerArena d then .ok (a * pgsize + arenaSize + idx * blockSize d) else .error .blockIndex
    | _ => .error .wildDesc

/-- The body of the loop that adds the blocks of a new arena to the free list. -/
def addBlock (d a : Nat) (h : Heap) (i : Nat) : Except MallocFault Heap := do
  let b ← h.arenaToBlock a i
  return h.setList d (h.freeList d ++ [b])

/-- A new arena for a descriptor, with all its blocks on the free list. -/
def newArena (h : Heap) (d a : Nat) : Except MallocFault Heap :=
  (List.range (blocksPerArena d)).foldlM (addBlock d a)
    (h.setHeader a { magic := arenaMagic, desc := .desc d, freeCnt := blocksPerArena d })

/-- The end of `malloc` for a small block: the first block of the free list is taken. -/
def takeBlock (h : Heap) (d : Nat) : Except MallocFault (Option Nat × Heap) :=
  match h.freeList d with
  | [] => .error .emptyList
  | b :: rest => do
    let h := h.setList d rest
    let a ← h.blockToArena b
    return (some b, h.setHeader a { h.header a with freeCnt := ((h.header a).freeCnt + 2 ^ 32 - 1) % 2 ^ 32 })

/-- `malloc` of a `size_t`, with the answer of the environment to a request for pages. The number of pages is a `size_t`
too. -/
def malloc (h : Heap) (size : Nat) (answer : Option Nat) : Except MallocFault (Option Nat × Heap) :=
  if size = 0 then .ok (none, h)
  else
    match descs.findIdx? (fun d => decide (size ≤ d.blockSize)) with
    | none =>
      let pageCnt := (size + arenaSize + pgsize - 1) % 2 ^ 32 / pgsize
      match h.pallocGet pageCnt answer with
      | none => .ok (none, h)
      | some (a, h) =>
        .ok (some (a * pgsize + arenaSize), h.setHeader a { magic := arenaMagic, desc := .null, freeCnt := pageCnt })
    | some d =>
      if h.freeList d = [] then
        match h.pallocGet 1 answer with
        | none => .ok (none, h)
        | some (a, h) => do
          let h ← h.newArena d a
          h.takeBlock d
      else h.takeBlock d

/-- `memset (b, 0, len)`, as far as it reaches a header. -/
def clear (h : Heap) (b len : Nat) : Heap :=
  { h with header := fun p => if p * pgsize < b + len ∧ b < p * pgsize + arenaSize then Arena.zeroed else h.header p }

/-- `calloc`. Besides the heap there are the bytes of the memory, as `malloc` leaves them. -/
def calloc (h : Heap) (bytes : Nat → UInt8) (a b : Nat) (answer : Option Nat) :
    Except MallocFault (Option Nat × Heap × (Nat → UInt8)) :=
  let size := a * b % 2 ^ 32
  if size < a ∨ size < b then .ok (none, h, bytes)
  else do
    let (p, h) ← h.malloc size answer
    match p with
    | none => return (none, h, bytes)
    | some p => return (some p, h.clear p size, zeroBytes bytes p size)

/-- The body of the loop that takes the blocks of an unused arena off the free list: `list_remove`. -/
def removeBlock (d a : Nat) (h : Heap) (i : Nat) : Except MallocFault Heap := do
  let b ← h.arenaToBlock a i
  if b ∈ h.freeList d then .ok (h.setList d ((h.freeList d).erase b)) else .error .notOnList

/-- `free` of a small block of an arena of descriptor `d`, from the point where the arena and the descriptor are known. -/
def freeSmall (h : Heap) (b a d : Nat) : Except MallocFault Heap :=
  let h := h.fill b (blockSize d)
  let h := h.setList d (b :: h.freeList d)
  let freeCnt := ((h.header a).freeCnt + 1) % 2 ^ 32
  let h := h.setHeader a { h.header a with freeCnt := freeCnt }
  if blocksPerArena d ≤ freeCnt then
    if freeCnt ≠ blocksPerArena d then .error .freeCount
    else do
      let h ← (List.range (blocksPerArena d)).foldlM (removeBlock d a) h
      h.pallocFree a 1
  else .ok h

/-- `free`. -/
def free (h : Heap) (p : Option Nat) : Except MallocFault Heap :=
  match p with
  | none => .ok h
  | some b => do
    let a ← h.blockToArena b
    match (h.header a).desc with
    | .desc d => h.freeSmall b a d
    | .null => h.pallocFree a (h.header a).freeCnt
    | .wild => .error .wildDesc

end Heap

/-! ## Sequences of calls -/

/-- The heap, the blocks returned and not yet freed, and the fault that a call ran into, if one did. -/
structure HeapState where
  heap : Heap
  live : List Nat
  failed : Option MallocFault

/-- A call, with the answer of `palloc` in case it is asked. -/
inductive HeapCall where
  | malloc (size : Nat) (answer : Option Nat)
  | free (p : Option Nat)

/-- What may be freed: a null pointer, or a block returned and not yet freed. -/
def HeapState.mayFree (s : HeapState) : Option Nat → Bool
  | none => true
  | some b => decide (b ∈ s.live)

/-- The blocks that remain when one is freed. -/
def HeapState.liveWithout (s : HeapState) : Option Nat → List Nat
  | none => s.live
  | some b => s.live.erase b

/-- A call on the heap; nothing comes after a fault. The sizes are those of a `size_t`. -/
def HeapState.step (s : HeapState) : HeapCall → Option HeapState
  | .malloc size answer =>
    if s.failed.isSome ∨ 2 ^ 32 ≤ size then none
    else
      match s.heap.malloc size answer with
      | .error e => some { s with failed := some e }
      | .ok (none, h) => some { s with heap := h }
      | .ok (some b, h) => some { s with heap := h, live := b :: s.live }
  | .free p =>
    if s.failed.isSome ∨ s.mayFree p = false then none
    else
      match s.heap.free p with
      | .error e => some { s with failed := some e }
      | .ok h => some { s with heap := h, live := s.liveWithout p }

/-- The state after `malloc_init`: no pages, empty lists, and any bytes where headers would be. -/
def HeapState.start (header : Nat → Arena) : HeapState :=
  { heap := { header := header, freeList := fun _ => [], groups := [] }, live := [], failed := none }

/-- Every sequence of calls of `malloc` and `free`. -/
def heapSystem : Transition.System HeapState HeapCall where
  init s := ∃ header, s = HeapState.start header
  step := HeapState.step

end Pintos
