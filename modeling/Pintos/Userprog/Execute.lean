import Pintos.Library.Transition

/-!
# Starting a child (`userprog/process.c`: `process_execute`; `threads/thread.c`: `get_thread`, `thread_exit`)

A parent runs `process_execute` while the child runs beside it. The parent finds the child's `struct thread` in the list of
all threads, reads two members of it, and returns. The child may exit at any time after `thread_create` has put it on the run
queue: it is taken from the list of all threads and its page is freed while interrupts are off, which is one step.

The list of all threads holds `n + 1` threads older than the child, the parent among them, and then the child.
-/

namespace Pintos

/-- Where the walk over the list of all threads stands. -/
inductive Elem where
  | older (i : Nat)
  | child
  | tail
  deriving DecidableEq, Repr

/-- Where the parent is in `process_execute`. -/
inductive ExecutePc where
  /-- About to call `thread_create`. -/
  | create
  /-- About to call `get_thread`. -/
  | getThread
  /-- In the loop of `get_thread`. -/
  | walk (e : Elem)
  /-- `get_thread` has returned null: about to call `thread_yield`. -/
  | yield
  /-- With the child's `struct thread` in hand, about to call `sema_down` on its `setup`. -/
  | down
  /-- About to put the child's `parent_share` on its own list. -/
  | push
  /-- Returned, with a `tid` or with `TID_ERROR`. -/
  | returned (ok : Bool)
  /-- Has used the child's `struct thread` after it was freed. -/
  | badAccess
  /-- `thread_create` has written through the null pointer that `malloc` returned. -/
  | fault
  deriving DecidableEq, Repr

/-- The parent is looking for the child. -/
def ExecutePc.looping : ExecutePc → Bool
  | .getThread | .walk _ | .yield => true
  | .create | .down | .push | .returned _ | .badAccess | .fault => false

/-- The child's `struct thread`. -/
inductive ChildThread where
  | unborn
  | alive
  | freed
  deriving DecidableEq, Repr

/-- The parent in `process_execute` and its child. -/
structure ExecuteState where
  parent : ExecutePc
  child : ChildThread
  /-- The value of `setup` in the child's `struct thread`. -/
  setup : Nat
  /-- The child's `process_share` is on the parent's list. -/
  registered : Bool
  deriving DecidableEq, Repr

/-- What the scheduler may choose. `create` carries the outcome of the allocations of `thread_create`: of the page, and of
the `process_share`. -/
inductive ExecuteAction where
  | create (page share : Bool)
  | go
  | childExit
  deriving DecidableEq, Repr

namespace ExecuteState

variable (n : Nat) (s : ExecuteState)

/-- The element of the list after `e`. -/
def next : Elem → Elem
  | .older i => if i < n then .older (i + 1) else if s.child = .alive then .child else .tail
  | .child | .tail => .tail

/-- A step that uses the child's `struct thread`. -/
def useChild (s' : ExecuteState) : ExecuteState := if s.child = .alive then s' else { s with parent := .badAccess }

/-- The parent's next step. -/
def go : Option ExecuteState :=
  match s.parent with
  | .getThread => some { s with parent := .walk (.older 0) }
  | .walk (.older i) => some { s with parent := .walk (s.next n (.older i)) }
  | .walk .child => some (s.useChild { s with parent := .down })
  | .walk .tail => some { s with parent := .yield }
  | .yield => some { s with parent := .getThread }
  | .down =>
    if s.child = .alive ∧ s.setup = 0 then none else some (s.useChild { s with setup := s.setup - 1, parent := .push })
  | .push => some (s.useChild { s with registered := true, parent := .returned true })
  | .create | .returned _ | .badAccess | .fault => none

/-- A step of the system. -/
def step : ExecuteAction → Option ExecuteState
  | .create page share =>
    if s.parent = .create then
      if page then
        if share then some { s with parent := .getThread, child := .alive, setup := 1 } else some { s with parent := .fault }
      else some { s with parent := .returned false }
    else none
  | .go => s.go n
  | .childExit => if s.child = .alive then some { s with child := .freed } else none

/-- The parent has called `process_execute`. -/
def start : ExecuteState := { parent := .create, child := .unborn, setup := 0, registered := false }

end ExecuteState

/-- The system of a parent in `process_execute` and its child, with `n + 1` older threads. -/
def executeSystem (n : Nat) : Transition.System ExecuteState ExecuteAction :=
  { init := fun s => s = ExecuteState.start, step := ExecuteState.step n }

end Pintos
