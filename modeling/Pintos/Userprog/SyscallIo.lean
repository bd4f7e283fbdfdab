import Pintos.Filesys.BlockMap
import Pintos.Userprog.Pagedir

/-!
# The read and write system calls (`userprog/syscall.c`)

`SYS_READ` and `SYS_WRITE` look at two words of the caller's range, at its start and at its end, and translate the first
address of the range once. From there on they use kernel addresses, one after the other.

The functions are over any file layer: what `file_read` and `file_write` do is a parameter.
-/

namespace Pintos

/-- What the system calls ask of open files, over a state of files `φ`. A file is the address of its `struct file`. -/
structure FileLayer (φ : Type) where
  /-- `file_read`: the bytes that it puts at the start of the buffer, and what it returns. -/
  read : Nat → Int → φ → Except Halt (List UInt8 × Int × φ)
  /-- `file_write` of a buffer and a size. -/
  write : Nat → List UInt8 → Int → φ → Except Halt (Int × φ)
  /-- No more bytes are put into the buffer than the size says. -/
  read_le : ∀ file size s bs n s', read file size s = .ok (bs, n, s') → bs.length ≤ size.toNat

/-- What the system calls work on: physical memory, the console, the keys still to be typed and the files. -/
structure SysState (φ : Type) where
  ram : Ram
  console : List UInt8
  keys : Nat → UInt8
  files : φ

/-- `struct file_descriptor`, with the file that its global file holds. -/
structure FileDescriptor where
  value : Int
  file : Nat

/-- The calling process. `syscall_open` hands out descriptors from 2 on. -/
structure Caller (r : RamSize) where
  pagedir : PageDir r
  fds : List FileDescriptor
  fromTwo : ∀ d ∈ fds, 2 ≤ d.value

/-- How a system call ends: it returns a value in `eax`, or the process is terminated, or the kernel does not go on. -/
inductive Outcome (φ : Type) where
  | returned (eax : Nat) (s : SysState φ)
  | exited (status : Int) (s : SysState φ)
  | halted (h : Halt)

namespace Caller

variable {r : RamSize}

variable (c : Caller r)

/-- `validate_pointer`: whether it returns. Otherwise it terminates the process with status -1. -/
def validatePointer (pointer : Nat) : Bool :=
  if pointer = 0 then false
  else if !isUserVaddr pointer || !isUserVaddr (ptrAdd pointer 3) then false
  else (c.pagedir.getPage pointer).isSome && (c.pagedir.getPage (ptrAdd pointer 3)).isSome

/-- `search_fd`. -/
def searchFd (fd : Int) : Option Nat := (c.fds.find? (fun d => d.value == fd)).map (·.file)

/-- The two checks that `SYS_READ` and `SYS_WRITE` make of their buffer. -/
def validateBuffer (buffer size : Nat) : Bool :=
  c.validatePointer buffer && c.validatePointer (ptrAdd buffer (size - 4))

end Caller

section Calls

variable {r : RamSize} {φ : Type}

/-- The loop of `syscall_read` over keys: each is stored as a word, at the next byte. -/
def readKeys (r : RamSize) : Nat → Nat → SysState φ → Option (SysState φ)
  | 0, _, s => some s
  | n + 1, kaddr, s =>
    match Ram.kernelStore r s.ram kaddr (Bytes.wordBytes (s.keys 0).toNat) with
    | some ram => readKeys r n (kaddr + 1) { s with ram := ram, keys := fun i => s.keys (i + 1) }
    | none => none

/-- What follows `file_read`: its bytes are in the buffer, as `store` says where that is, and its result is returned. -/
def afterRead (store : List UInt8 → Option Ram) (s : SysState φ) : Except Halt (List UInt8 × Int × φ) → Outcome φ
  | .error h => .halted h
  | .ok (bs, n, files) =>
    match store bs with
    | some ram => .returned (toUInt32 n) { s with ram := ram, files := files }
    | none => .halted .panic

/-- What follows `file_write`: its result is returned. -/
def afterWrite (s : SysState φ) : Except Halt (Int × φ) → Outcome φ
  | .error h => .halted h
  | .ok (n, files) => .returned (toUInt32 n) { s with files := files }

variable (L : FileLayer φ) (c : Caller r) (fd : Int)

/-- `syscall_read`, with the buffer as a kernel address. -/
def syscallRead (kbuffer size : Nat) (s : SysState φ) : Outcome φ :=
  if fd < 0 ∨ 128 < fd ∨ fd = 1 then .returned (toUInt32 (-1)) s
  else
    match c.searchFd fd with
    | none => .returned (toUInt32 (-1)) s
    | some file =>
      if fd = 0 then
        match readKeys r size kbuffer s with
        | some s' => .returned size s'
        | none => .halted .panic
      else afterRead (Ram.kernelStore r s.ram kbuffer) s (L.read file (toInt32 size) s.files)

/-- `syscall_write`, with the buffer as a kernel address. -/
def syscallWrite (kbuffer size : Nat) (s : SysState φ) : Outcome φ :=
  let bytes := Ram.kernelBytes r s.ram kbuffer size
  if fd = 1 then
    -- `putbuf`; running off the end of memory is a fault in the kernel.
    if bytes.length = size then .returned size { s with console := s.console ++ bytes } else .halted .panic
  else if fd ≤ 0 ∨ 128 < fd then .returned 0 s
  else
    match c.searchFd fd with
    | none => .returned 0 s
    | some file => afterWrite s (L.write file bytes (toInt32 size) s.files)

/-- The branch of `syscall_handler` for `SYS_READ`. A null pointer is the address 0. -/
def sysRead (buffer size : Nat) (s : SysState φ) : Outcome φ :=
  if c.validateBuffer buffer size then syscallRead L c fd ((c.pagedir.getPage buffer).getD 0) size s else .exited (-1) s

/-- The branch of `syscall_handler` for `SYS_WRITE`. -/
def sysWrite (buffer size : Nat) (s : SysState φ) : Outcome φ :=
  if c.validateBuffer buffer size then syscallWrite L c fd ((c.pagedir.getPage buffer).getD 0) size s else .exited (-1) s

end Calls

/-! ## What the two calls are meant to do -/

section Meaning

variable {r : RamSize} {φ : Type}

variable (c : Caller r) (buffer : Nat)

/-- Every byte of the range is mapped for the process. -/
def Caller.RangeMapped (size : Nat) : Prop := ∀ i < size, (c.pagedir.translate (buffer + i)).isSome = true

instance (c : Caller r) (buffer size : Nat) : Decidable (c.RangeMapped buffer size) :=
  inferInstanceAs (Decidable (∀ i < size, _))

/-- The physical address of byte number `i` of a range that is mapped. -/
def Caller.userAddr (i : Nat) : Nat := (c.pagedir.translate (buffer + i)).getD 0

/-- The bytes of a range, each translated by itself. -/
def Caller.userBytes (ram : Ram) (buffer size : Nat) : List UInt8 :=
  (List.range size).map (fun i => ram (c.userAddr buffer i))

/-- The memory with bytes stored in a range, each translated by itself. -/
def Caller.userStore (c : Caller r) (ram : Ram) (buffer : Nat) : List UInt8 → Ram
  | [] => ram
  | b :: bs => c.userStore (Function.update ram (c.userAddr buffer 0) b) (buffer + 1) bs

/-- The file that a descriptor lets the process read or write. -/
def Caller.target (fd : Int) : Option Nat := if 2 ≤ fd ∧ fd ≤ 128 then c.searchFd fd else none

variable (L : FileLayer φ) (c : Caller r) (fd : Int) (buffer size : Nat) (s : SysState φ)

/-- The write system call as it is meant: the bytes of the caller's range, each translated by itself, go to the console or to
the file. -/
def writeMeant : Outcome φ :=
  if c.RangeMapped buffer size then
    if fd = 1 then .returned size { s with console := s.console ++ c.userBytes s.ram buffer size }
    else
      match c.target fd with
      | none => .returned 0 s
      | some file => afterWrite s (L.write file (c.userBytes s.ram buffer size) (toInt32 size) s.files)
  else .exited (-1) s

/-- The read system call as it is meant: what the file gives goes to the caller's range, each byte translated by itself. -/
def readMeant : Outcome φ :=
  if c.RangeMapped buffer size then
    match c.target fd with
    | none => .returned (toUInt32 (-1)) s
    | some file => afterRead (fun bs => some (c.userStore s.ram buffer bs)) s (L.read file (toInt32 size) s.files)
  else .exited (-1) s

/-- A byte of physical memory lies in a frame that is mapped writable for the process in the range. -/
def Caller.mayModify (size a : Nat) : Prop :=
  ∃ i < size, c.pagedir.isWritable (buffer + i) = true ∧ c.userAddr buffer i / pgsize = a / pgsize

/-- The write system call sends the caller's own bytes and no others, and nothing if a page is not mapped. -/
def WriteOk : Prop :=
  sysWrite L c fd buffer size s = writeMeant L c fd buffer size s

/-- The read system call fills the caller's own bytes and touches no others, and nothing if a page is not mapped. -/
def ReadOk : Prop :=
  sysRead L c fd buffer size s = readMeant L c fd buffer size s ∧
    ∀ eax s', sysRead L c fd buffer size s = .returned eax s' → ∀ a, s'.ram a ≠ s.ram a → c.mayModify buffer size a

end Meaning

end Pintos
