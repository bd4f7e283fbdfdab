import Pintos.Userprog.Stack
import Pintos.Userprog.SyscallIo

/-!
# The exec system call (`userprog/syscall.c`: `validate_string`, `syscall_exec`; `userprog/process.c`: `process_execute`, `load`)

The handler checks the caller's string by user addresses, then translates its first address once and hands the kernel address
on. `process_execute` copies the string from there to a page of its own, and takes the name of the thread from the string in
place, with `strtok_r`. The child copies the page to the heap, takes the name of the executable from the page, and builds its
stack from the copy.

The page and the copy are kernel memory, which is no frame of a user page. What the allocators give and what the file system
holds is data of the call; the loads of other processes are not part of it.
-/

namespace Pintos

namespace Caller

variable {r : RamSize}

/-- The byte that the processor finds at a user address. -/
def userByte (c : Caller r) (ram : Ram) (p : Nat) : Option UInt8 := (c.pagedir.translate p).map ram

/-- The loop of `validate_string`, with `n` rounds to go: where it returns, the bytes before the null byte. Otherwise the
process is terminated. -/
def validateFrom (c : Caller r) (ram : Ram) : Nat → Nat → Option (List UInt8)
  | 0, _ => none
  | n + 1, p =>
    if c.validatePointer p then
      match c.userByte ram p with
      | none => none
      | some b => if b = 0 then some [] else (c.validateFrom ram n (ptrAdd p 1)).map (fun bs => b :: bs)
    else none

/-- `validate_string`: at most 512 bytes are looked at. -/
def validateString (c : Caller r) (ram : Ram) (file : Nat) : Option (List UInt8) := c.validateFrom ram 512 file

end Caller

/-- What a call of `exec` finds in the rest of the kernel. -/
structure ExecEnv where
  /-- What `palloc_get_page` gives for `fn_copy`: a page, with the bytes that are in it. -/
  page : Option (List UInt8)
  /-- Whether the allocations of `thread_create`, `pagedir_create` and `malloc` succeed. -/
  thread : Bool
  pagedir : Bool
  heap : Bool
  /-- Whether the executable of a name opens and its segments load. -/
  loads : List UInt8 → Bool
  /-- Whether the stack page is got and mapped. -/
  stackPage : Bool
  /-- The user addresses that are then mapped and writable, and what the child's memory holds. -/
  writable : Nat → Bool
  mem : Bytes.Memory

/-- `load`, of a command line in the page `fileName`. -/
def load (env : ExecEnv) (fileName : List UInt8) : Except Halt (Option UserStack) :=
  if !env.pagedir || !env.heap then .ok none
  else
    let stackArgs := (cstr fileName).bytes ++ [0]
    let tok := strtokR [space] fileName 0
    match tok.token with
    | none => .error .panic
    | some t =>
      if !env.loads (cstr (tok.buf.drop t)).bytes || !env.stackPage then .ok none
      else
        match setupStack env.writable env.mem stackArgs with
        | none => .error .panic
        | some st => .ok (some st)

/-- `process_execute`, of the string at a kernel address: the memory that it leaves and, if the child loads, the child's
first stack. -/
def processExecute (r : RamSize) (env : ExecEnv) (kaddr : Nat) (ram : Ram) : Except Halt (Ram × Option UserStack) :=
  match env.page with
  | none => .ok (ram, none)
  | some page =>
    let text := Ram.kernelBytes r ram kaddr (r.pages * pgsize)
    -- `strlcpy` looks for the end of its source, past the end of memory if need be
    if 0 ∈ text then
      let fnCopy := strlcpy page (cstr text) pgsize
      let tok := strtokR [space] text 0
      let ram := Bytes.splice ram (kaddr - physBase) tok.buf
      if !env.thread then .ok (ram, none)
      else
        match tok.token with
        -- `init_thread` asserts that there is a name
        | none => .error .panic
        | some _ => (load env fnCopy).map (fun st => (ram, st))
    else .error .panic

/-- How `exec` ends: it returns, with the child's first stack if the child has loaded, or the process is terminated, or the
kernel does not go on. -/
inductive ExecOutcome where
  | returned (ram : Ram) (child : Option UserStack)
  | exited
  | halted (h : Halt)

/-- A successful call: the memory that it leaves and the child's first stack. -/
def ExecOutcome.started : ExecOutcome → Option (Ram × UserStack)
  | .returned ram (some st) => some (ram, st)
  | .returned _ none | .exited | .halted _ => none

/-- The branch of `syscall_handler` for `SYS_EXEC`, with `syscall_exec`. -/
def sysExec {r : RamSize} (c : Caller r) (env : ExecEnv) (file : Nat) (ram : Ram) : ExecOutcome :=
  match c.validateString ram file with
  | none => .exited
  | some _ =>
    match processExecute r env ((c.pagedir.getPage file).getD 0) ram with
    | .error h => .halted h
    | .ok (ram, child) => .returned ram child

end Pintos
