import Mathlib.Algebra.BigOperators.Group.Finset.Basic
import Pintos.Userprog.Descriptors

/-!
# The table of global files (`userprog/syscall.c`: `search_global`, `insert_global`, `delete_global`, `free_thread`)

All processes share the array `global_files` of 1024 pointers. `syscall_open` looks for the file in it, and puts it there if
it is not; `syscall_close` and the exit of a process count down. The objects that are pointed to live on the heap: an address
at which there is no live `global_file` may be given out again, and using it is a bad access.

The file of a descriptor is a `struct file`, which every `filesys_open` makes anew.
-/

namespace Pintos

open Function

/-- `struct global_file`. -/
structure GlobalFile where
  refcount : Nat
  file : Nat
  deriving DecidableEq, Repr

/-- Whether the kernel goes on. -/
inductive KernelStatus where
  | running
  /-- A null pointer has been used, or an assertion has failed. -/
  | panicked
  /-- An object has been used after it was freed. -/
  | badAccess
  deriving DecidableEq, Repr

/-- The processes, the table, the live `global_file`s and the live `struct file`s. -/
structure FilesState where
  procs : Nat → Process
  slots : Nat → Option Nat
  heap : Nat → Option GlobalFile
  files : Nat → Bool
  status : KernelStatus

/-- What can happen: the calls that reach the table, with what the file system and `malloc` give them. -/
inductive FilesAction where
  /-- `filesys_open` has given a `struct file`; `addr` is what `malloc` gives for a `global_file`, `memory` whether it gives
  a descriptor. -/
  | open (pid file : Nat) (addr : Option Nat) (memory : Bool)
  /-- The close of an open descriptor. (The close of any other terminates the process.) -/
  | close (pid fd : Nat)
  | exit (pid : Nat)
  deriving DecidableEq, Repr

namespace FilesState

/-- The loop of `search_global`, over the places that are left. -/
def searchFrom (s : FilesState) (file : Nat) : List Nat → Except KernelStatus (Option Nat)
  | [] => .ok none
  | i :: rest =>
    match s.slots i with
    | none => s.searchFrom file rest
    | some a =>
      match s.heap a with
      | none => .error .badAccess
      | some g => if g.file = file then .ok (some a) else s.searchFrom file rest

variable (n : Nat) (s : FilesState) (pid file a : Nat)

/-- `search_global`. -/
def searchGlobal : Except KernelStatus (Option Nat) := s.searchFrom file (List.range 1024)

/-- The place that `insert_global` takes. -/
def freeSlot : Option Nat := freePlace s.slots

-- The loop over the 1024 places is not to be run by the elaborator.
attribute [irreducible] searchGlobal

/-- `insert_global` with a place free and memory at `a`. -/
def insertAt (i a file : Nat) : FilesState :=
  { s with slots := update s.slots i (some a), heap := update s.heap a (some { refcount := 1, file := file }) }

/-- `delete_global`. -/
def deleteGlobal : FilesState :=
  match s.searchGlobal file with
  | .error e => { s with status := e }
  | .ok none => { s with status := .panicked }
  | .ok (some a) =>
    match s.heap a with
    | none => { s with status := .badAccess }
    | some g =>
      if g.refcount = 1 then { s with heap := update s.heap a none }
      else if g.refcount > 1 then { s with heap := update s.heap a (some { g with refcount := g.refcount - 1 }) }
      else s

/-- `magic` of the process would still be right after `syscall_open` has set its mark. -/
def intact : Bool := ((s.procs pid).mark (s.procs pid).nextFd).fields 129 == threadMagic

/-- What follows in `syscall_open` when the global file is known. -/
def finishOpen (g : Option Nat) (memory : Bool) : FilesState :=
  match (s.procs pid).syscallOpen true g memory with
  | (.returned _, p) => { s with procs := update s.procs pid p }
  | (.panicked, p) => { s with procs := update s.procs pid p, status := .panicked }

/-- `syscall_open` of a file that `filesys_open` has given. -/
def syscallOpen (addr : Option Nat) (memory : Bool) : FilesState :=
  let s := { s with files := update s.files file true }
  match s.searchGlobal file with
  | .error e => { s with status := e }
  | .ok (some a) => s.finishOpen pid (some a) memory
  | .ok none =>
    match s.freeSlot with
    | none => s.finishOpen pid none memory
    | some i =>
      match addr with
      -- the result of `malloc` is not checked
      | none => { s with status := .panicked }
      | some a => if s.intact pid then (s.insertAt i a file).finishOpen pid (some a) memory else { s with status := .panicked }

/-- `syscall_close` of an open descriptor. -/
def syscallClose (d : Descriptor) : FilesState :=
  match s.heap d.globalFile with
  | none => { s with status := .badAccess }
  | some g =>
    let s := ({ s with procs := update s.procs pid ((s.procs pid).syscallClose d.value) } : FilesState).deleteGlobal g.file
    { s with files := update s.files g.file false }

/-- `free_thread`, over the descriptors that are left on the list. -/
def freeThread (s : FilesState) : List Descriptor → FilesState
  | [] => s
  | d :: rest =>
    match s.heap d.globalFile with
    | none => { s with status := .badAccess }
    | some g => (s.deleteGlobal g.file).freeThread rest

/-- The exit of a process. A new one, just loaded, takes its place. -/
def exitProcess : FilesState :=
  let s' := s.freeThread (s.procs pid).fds
  { s' with procs := update s'.procs pid (.loaded 1) }

/-- A step, of one of the first `n` processes. Memory that is given out is not in use. -/
def step : FilesAction → Option FilesState
  | .open pid file addr memory =>
    if s.status = .running ∧ pid < n ∧ s.files file = false ∧
    (addr.bind s.heap).isNone then some (s.syscallOpen pid file addr memory) else none
  | .close pid fd =>
    if s.status = .running ∧ pid < n then ((s.procs pid).fds.find? (fun d => d.value == fd)).map (s.syscallClose pid) else none
  | .exit pid => if s.status = .running ∧ pid < n then some (s.exitProcess pid) else none

/-- The kernel has started, and each process has just been loaded. -/
def start : FilesState :=
  { procs := fun _ => .loaded 1, slots := fun _ => none, heap := fun _ => none, files := fun _ => false, status := .running }

/-- The number of descriptors, of the first `n` processes, that point to a global file. -/
def pointers : Nat :=
  (Finset.range n).sum (fun pid => (s.procs pid).fds.countP (fun d => d.globalFile == a))

end FilesState

/-- The system of `n` processes that open and close files. -/
def filesSystem (n : Nat) : Transition.System FilesState FilesAction :=
  { init := fun s => s = FilesState.start, step := FilesState.step n }

end Pintos
