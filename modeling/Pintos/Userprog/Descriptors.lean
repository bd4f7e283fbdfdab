import Pintos.Library.Transition

/-!
# Handing out descriptors (`userprog/syscall.c`: `syscall_open`, `syscall_close`; `threads/thread.h`: `struct thread`)

A process marks the descriptors that it has handed out in the array `closed_files` of its `struct thread`. The array has 128
elements; the words after it are the pointer to the executable and `magic`, which `thread_current` checks.

All processes share the table `global_files`, from which nothing is ever taken out. What `filesys_open`, `search_global` and
`malloc` give is data of a call: `search_global` looks at objects that may have been freed.
-/

namespace Pintos

/-- `THREAD_MAGIC`. -/
def threadMagic : UInt32 := 0xcd6abf4b

/-- `struct file_descriptor`: its number and the address of its global file. -/
structure Descriptor where
  value : Nat
  globalFile : Nat
  deriving DecidableEq, Repr

/-- What a process has of descriptors. `fields` are the words of its `struct thread` from `closed_files` on: 128 marks, the
pointer `file` and `magic`. -/
structure Process where
  fields : Nat → UInt32
  fds : List Descriptor

/-- The loop of `syscall_open` from `fd` on. It moves on as long as the mark is set and the number is at most 128. -/
def lowestFd (fields : Nat → UInt32) : Nat → Nat → Nat
  | 0, fd => fd
  | n + 1, fd => if fields fd ≠ 0 ∧ fd ≤ 128 then lowestFd fields n (fd + 1) else fd

/-- How `syscall_open` ends. -/
inductive OpenResult where
  | returned (fd : Int)
  /-- `thread_current` has found that `magic` is wrong. -/
  | panicked
  deriving DecidableEq, Repr

namespace Process

variable (p : Process) (fd : Nat)

/-- The descriptor that `syscall_open` takes: at most 127 numbers are tried, from 2 on. -/
def nextFd : Nat := lowestFd p.fields 127 2

/-- A word of `struct thread` is set to 1. -/
def mark : Process := { p with fields := Function.update p.fields fd 1 }

@[simp] theorem mark_fields : (p.mark fd).fields = Function.update p.fields fd 1 := rfl

@[simp] theorem mark_fds : (p.mark fd).fds = p.fds := rfl

/-- `syscall_open`. `file` says whether `filesys_open` has succeeded, `globalFile` what `search_global` or `insert_global`
has given, and `memory` whether `malloc` has succeeded. -/
def syscallOpen (file : Bool) (globalFile : Option Nat) (memory : Bool) : OpenResult × Process :=
  if !file then (.returned (-1), p)
  else
    let fd := p.nextFd
    let p := p.mark fd
    match globalFile with
    | none => (.returned (-1), p)
    | some g =>
      -- `malloc` takes a lock, which looks at the current thread
      if p.fields 129 ≠ threadMagic then (.panicked, p)
      else if !memory then (.returned (-1), p)
      else (.returned fd, { p with fds := p.fds ++ [{ value := fd, globalFile := g }] })

/-- `search_fd`, as far as it tells whether a descriptor is open. -/
def isOpen (fd : Int) : Bool := p.fds.any (fun d => (d.value : Int) == fd)

/-- `syscall_close` of an open descriptor, as far as it concerns the process: `delete_fd`, and the mark. -/
def syscallClose : Process :=
  ({ p with fds := p.fds.eraseP (fun d => d.value == fd) } : Process).mark fd

/-- The branch of `syscall_handler` for `SYS_CLOSE`: it gives nothing where the process is terminated. -/
def sysClose (fd : Int) : Option Process :=
  if fd = 0 ∨ fd = 1 ∨ fd < 0 ∨ fd > 128 ∨ p.isOpen fd = false then none else some (p.syscallClose fd.toNat)

/-- A process that has just been loaded, with the pointer to its executable. -/
def loaded (file : UInt32) : Process :=
  { fields := fun i => if i < 128 then 0 else if i = 128 then file else threadMagic, fds := [] }

end Process

/-- Whether the process goes on. -/
inductive RunStatus where
  | running
  | exited
  | panicked
  deriving DecidableEq, Repr

/-- The place that `insert_global` takes. -/
def freePlace (slots : Nat → Option Nat) : Option Nat := (List.range 1024).find? (fun i => (slots i).isNone)

-- The loop over the 1024 places is not to be run by the elaborator.
attribute [irreducible] freePlace

variable {slots : Nat → Option Nat} {i : Nat}

theorem freePlace_some (h : freePlace slots = some i) : i < 1024 ∧ slots i = none := by
  unfold freePlace at h
  exact ⟨List.mem_range.mp (List.mem_of_find?_eq_some h), by simpa using List.find?_some h⟩

theorem freePlace_none (h : freePlace slots = none) : ¬∃ i, i < 1024 ∧ slots i = none := by
  unfold freePlace at h
  simpa using h

/-- `insert_global`, with what `malloc` gives it: the pointer that it returns, and the table. The pointer from `malloc` is
not checked, so that there is no outcome where it is null. -/
def insertGlobal (slots : Nat → Option Nat) (addr : Option Nat) : Option (Option Nat × (Nat → Option Nat)) :=
  match freePlace slots with
  | none => some (none, slots)
  | some i => addr.map fun a => (some a, Function.update slots i (some a))

/-- A process, the table `global_files`, and the status of the process. -/
structure FdState where
  proc : Process
  slots : Nat → Option Nat
  status : RunStatus

/-- `syscall_open`, with the table. `found` is what `search_global` gives, `addr` and `memory` are about the two calls of
`malloc`. -/
def FdState.syscallOpen (s : FdState) (file : Bool) (found addr : Option Nat) (memory : Bool) : OpenResult × FdState :=
  if !file then (.returned (-1), s)
  else
    match if found.isSome then some (found, s.slots) else insertGlobal s.slots addr with
    | none => (.panicked, { s with proc := s.proc.mark s.proc.nextFd })
    | some (g, slots) =>
      match s.proc.syscallOpen true g memory with
      | (.returned fd, p) => (.returned fd, { s with proc := p, slots := slots })
      | (.panicked, p) => (.panicked, { s with proc := p })

/-- The calls of a process, with what the rest of the kernel gives them, and the `insert_global` of another. -/
inductive FdAction where
  | open (file : Bool) (found addr : Option Nat) (memory : Bool)
  | close (fd : Int)
  | insertGlobal (addr : Nat)
  deriving DecidableEq, Repr

/-- A call. -/
def FdState.step (s : FdState) : FdAction → Option FdState
  | .open file found addr memory =>
    if s.status = .running then
      match s.syscallOpen file found addr memory with
      | (.returned _, s') => some s'
      | (.panicked, s') => some { s' with status := .panicked }
    else none
  | .close fd =>
    if s.status = .running then
      match s.proc.sysClose fd with
      | some p => some { s with proc := p }
      | none => some { s with status := .exited }
    else none
  | .insertGlobal addr => if s.status = .running then (insertGlobal s.slots addr).map fun r => { s with slots := r.2 } else none

/-- All calls of one process, from when it has been loaded, whatever others have put into the table. -/
def fdSystem : Transition.System FdState FdAction :=
  { init := fun s => ∃ file slots, s = { proc := .loaded file, slots := slots, status := .running }, step := FdState.step }

end Pintos
