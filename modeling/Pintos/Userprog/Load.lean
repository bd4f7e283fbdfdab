import Pintos.Library.Transition
import Pintos.Lib.String

/-!
# Loads that run side by side (`userprog/process.c`: `load`)

Each new process runs `load` on its own command line. `load` keeps a copy of it on the heap for `setup_stack`, and the
pointer to the copy is the global `stack_args`, which all processes share. A step ends where a load may block: in
`pagedir_create`, in `malloc`, in the reads of the executable and in the allocations of `setup_stack`.

A load is named by a number, and any number of them may run.
-/

namespace Pintos

open Function

/-- Where a load is. -/
inductive LoadPc where
  /-- About to call `pagedir_create`. -/
  | pagedir
  /-- About to call `malloc` for the copy of the command line. -/
  | malloc
  /-- Opening and reading the executable. -/
  | reading
  /-- In `setup_stack`, about to get and to map the page. -/
  | stack
  | returned (ok : Bool)
  /-- `strtok_r` has been called with a null pointer. -/
  | panicked
  deriving DecidableEq, Repr

/-- The load has a copy that it has not freed. -/
def LoadPc.holds : LoadPc → Bool
  | .reading | .stack => true
  | .pagedir | .malloc | .returned _ | .panicked => false

/-- A block of the heap that a load has got for its copy: its bytes, and whether it is still allocated. -/
structure Copy where
  owner : Nat
  text : List UInt8
  live : Bool
  deriving DecidableEq, Repr

/-- All loads and what they share. The last three members are not in the program: which loads have got a copy, how often the
copy of each load has been freed, and the bytes from which its stack was built. -/
structure LoadState where
  pc : Nat → LoadPc
  stackArgs : Option Nat
  heap : Nat → Option Copy
  copied : Nat → Bool
  frees : Nat → Nat
  built : Nat → Option (List UInt8)

/-- What the scheduler, the allocators and the disk may choose. `junk` are the bytes found in a block that is no longer
allocated. -/
inductive LoadAction where
  | pagedirCreate (i : Nat) (ok : Bool)
  | malloc (i : Nat) (addr : Option Nat)
  /-- One of the reads of the executable, with others to come. -/
  | read (i : Nat)
  | readsDone (i : Nat) (ok : Bool)
  | stackPage (i : Nat) (ok : Bool) (junk : List UInt8)
  deriving DecidableEq, Repr

namespace LoadState

variable (cmd : Nat → CString) (s : LoadState) (i : Nat)

/-- Load `i` goes on to `pc`. -/
def goto (pc : LoadPc) : LoadState := { s with pc := update s.pc i pc }

/-- `free (stack_args)`. -/
def freeStackArgs : LoadState :=
  match s.stackArgs with
  | none => s
  | some a =>
    match s.heap a with
    | none => s
    | some c =>
      { s with
        heap := update s.heap a (some { c with live := false }),
        frees := update s.frees c.owner (s.frees c.owner + 1) }

/-- The end of `load`, from the label `done` on. -/
def done (ok : Bool) : LoadState := s.freeStackArgs.goto i (.returned ok)

/-- `setup_stack` from the point where the page is mapped: the stack is built from what `stack_args` points to, which
`strtok_r` changes. -/
def buildStack (junk : List UInt8) : LoadState :=
  match s.stackArgs with
  | none => s.goto i .panicked
  | some a =>
    match s.heap a with
    | none => s.goto i .panicked
    | some c =>
      let text := if c.live then c.text else junk
      let s := { s with built := update s.built i (some text),
                        heap := update s.heap a (some { c with text := (tokenize text).2 }) }
      s.done i true

/-- `malloc` returns, and the command line is copied. -/
def mallocReturns : Option Nat → LoadState
  | none => ({ s with stackArgs := none }).goto i (.returned false)
  | some a =>
    ({ s with
      stackArgs := some a,
      heap := update s.heap a (some { owner := i, text := (cmd i).bytes ++ [0], live := true }),
      copied := update s.copied i true }).goto i .reading

/-- A step of a load. -/
def step : LoadAction → Option LoadState
  | .pagedirCreate i ok =>
    if s.pc i = .pagedir then some (if ok then s.goto i .malloc else s.done i false) else none
  | .malloc i addr =>
    -- a block that is allocated is not given out again
    if s.pc i = .malloc ∧ (addr.bind s.heap).all (fun c => !c.live) then some (s.mallocReturns cmd i addr) else none
  | .read i => if s.pc i = .reading then some s else none
  | .readsDone i ok => if s.pc i = .reading then some (if ok then s.goto i .stack else s.done i false) else none
  | .stackPage i ok junk => if s.pc i = .stack then some (if ok then s.buildStack i junk else s.done i false) else none

/-- No load has begun. -/
def start : LoadState :=
  { pc := fun _ => .pagedir, stackArgs := none, heap := fun _ => none, copied := fun _ => false, frees := fun _ => 0,
    built := fun _ => none }

end LoadState

/-- The system of all loads, of the command lines `cmd`. -/
def loadSystem (cmd : Nat → CString) : Transition.System LoadState LoadAction :=
  { init := fun s => s = LoadState.start, step := LoadState.step cmd }

end Pintos
