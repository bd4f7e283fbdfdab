import Pintos.Threads.Synch
import Pintos.Library.Transition

/-!
# One semaphore under threads

Any number of threads call `sema_down`, `sema_try_down` and `sema_up` on one semaphore. A section with interrupts off is one
step. A thread that `sema_down` has queued sleeps until a `sema_up` unblocks it, and runs its next pass of the loop at any
later time: other threads may take the value before it.
-/

namespace Pintos

/-- Where a thread is: outside the semaphore's functions, asleep in `sema_down`, or unblocked there and yet to look at the
value again. -/
inductive SemaPc where
  | outside
  | asleep
  | woken
  deriving DecidableEq, Repr

/-- The semaphore, the threads, and how many `sema_up` and how many successful `sema_down` and `sema_try_down` have been
completed. `panicked` says that the assertion of `thread_unblock` has failed. -/
structure SemaState where
  sema : Semaphore
  threads : Thread → SemaPc
  ups : Nat
  downs : Nat
  panicked : Bool

/-- What the scheduler may choose: a thread calls one of the functions, or a woken thread gets the processor and rechecks. -/
inductive SemaAction where
  | down (t : Thread)
  | recheck (t : Thread)
  | tryDown (t : Thread)
  | up (t : Thread)
  deriving DecidableEq, Repr

namespace SemaState

variable (s : SemaState) (t : Thread)

/-- A pass of the loop of `sema_down`: the thread either has the value or sleeps. -/
def pass : SemaState :=
  match semaDown s.sema t with
  | (sema, true) => { s with sema := sema, threads := Function.update s.threads t .outside, downs := s.downs + 1 }
  | (sema, false) => { s with sema := sema, threads := Function.update s.threads t .asleep }

/-- `thread_unblock`, which asserts that the thread is blocked. -/
def unblock : SemaState :=
  if s.threads t = .asleep then { s with threads := Function.update s.threads t .woken } else { s with panicked := true }

/-- `sema_up`. -/
def up : SemaState :=
  match semaUp s.sema with
  | (sema, none) => { s with sema := sema, ups := s.ups + 1 }
  | (sema, some t) => { s.unblock t with sema := sema, ups := s.ups + 1 }

/-- A step of the system. -/
def step (a : SemaAction) : Option SemaState :=
  if s.panicked then none else
  match a with
  | .down t => if s.threads t = .outside then some (s.pass t) else none
  | .recheck t => if s.threads t = .woken then some (s.pass t) else none
  | .tryDown t =>
    if s.threads t = .outside then
      match semaTryDown s.sema with
      | (sema, true) => some { s with sema := sema, downs := s.downs + 1 }
      | (_, false) => some s
    else none
  | .up t => if s.threads t = .outside then some s.up else none

/-- The state right after `sema_init`. -/
def start (v : UInt32) : SemaState :=
  { sema := semaInit v, threads := fun _ => .outside, ups := 0, downs := 0, panicked := false }

end SemaState

/-- The system of the threads that use a semaphore initialised to `v`. -/
def semaSystem (v : UInt32) : Transition.System SemaState SemaAction :=
  { init := fun s => s = SemaState.start v, step := SemaState.step }

end Pintos
