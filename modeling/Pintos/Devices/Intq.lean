import Pintos.Threads.Synch
import Pintos.Library.Transition

/-!
# Interrupt queues (`devices/intq.c`)

A circular buffer of bytes that threads and external interrupt handlers share. Interrupts are off in its functions, so a step
runs until the thread sleeps: in `lock_acquire`, or in the `thread_block` of `wait`.

A thread that waits holds the lock while it sleeps. Another thread that finds the queue in the same way sleeps in
`lock_acquire`, and goes on from there to `wait` without a second look at the queue.
-/

namespace Pintos

/-- `INTQ_BUFSIZE`. -/
def intqBufsize : Nat := 64

/-- `next`: the position after a position. -/
def intqNext (pos : Nat) : Nat := (pos + 1) % intqBufsize

/-- `struct intq`. -/
structure Intq where
  lock : Lock
  notFull : Option Thread
  notEmpty : Option Thread
  buf : Nat → UInt8
  head : Nat
  tail : Nat

/-- `intq_init`, over a buffer of any bytes. -/
def intqInit (buf : Nat → UInt8) : Intq :=
  { lock := lockInit, notFull := none, notEmpty := none, buf := buf, head := 0, tail := 0 }

/-- `intq_empty`. -/
def Intq.empty (q : Intq) : Bool := q.head == q.tail

/-- `intq_full`. -/
def Intq.full (q : Intq) : Bool := intqNext q.head == q.tail

/-- A call: of `intq_getc`, or of `intq_putc` with a byte. -/
inductive IntqCall where
  | getc
  | putc (byte : UInt8)
  deriving DecidableEq, Repr

/-- The condition of the loop of a call: the queue is empty for `intq_getc`, and full for `intq_putc`. -/
def Intq.blocks (q : Intq) : IntqCall → Bool
  | .getc => q.empty
  | .putc _ => q.full

/-- Where a thread is. -/
inductive IntqPc where
  | outside
  /-- In the `sema_down` of `lock_acquire`, asleep. -/
  | lockAsleep (call : IntqCall)
  /-- In the `sema_down` of `lock_acquire`, unblocked, and yet to look at the value again. -/
  | lockWoken (call : IntqCall)
  /-- In the `thread_block` of `wait`. -/
  | waiting (call : IntqCall)
  /-- Unblocked by `signal`, with `lock_release` to come. -/
  | signalled (call : IntqCall)
  deriving DecidableEq, Repr

/-- The functions with an assertion that a step may fail. -/
inductive IntqAssert where
  | wait
  | signal
  | threadUnblock
  | lockAcquire
  | lockRelease
  deriving DecidableEq, Repr

/-- The queue, the threads, the bytes that `intq_getc` has returned (the latest first) and the assertion that failed, if one
did. -/
structure IntqState where
  q : Intq
  threads : Thread → IntqPc
  returned : List UInt8
  failed : Option IntqAssert

namespace IntqState

/-- The state with one thread moved. -/
def setPc (s : IntqState) (t : Thread) (pc : IntqPc) : IntqState := { s with threads := Function.update s.threads t pc }

/-- The state after a failed assertion. -/
def fail (s : IntqState) (a : IntqAssert) : IntqState := { s with failed := some a }

/-- `wait` by thread `t`, which holds the lock: the assertion, the record of the waiter and `thread_block`. -/
def wait (s : IntqState) (t : Thread) (call : IntqCall) : IntqState :=
  if s.q.blocks call then
    match call with
    | .getc => { s with q := { s.q with notEmpty := some t } }.setPc t (.waiting call)
    | .putc _ => { s with q := { s.q with notFull := some t } }.setPc t (.waiting call)
  else s.fail .wait

/-- `thread_unblock` on a recorded waiter, which asserts that the thread is blocked. -/
def unblockWaiter (s : IntqState) (u : Thread) : IntqState :=
  match s.threads u with
  | .waiting call => s.setPc u (.signalled call)
  | _ => s.fail .threadUnblock

/-- `signal (q, &q->not_full)`. -/
def signalNotFull (s : IntqState) : IntqState :=
  if s.q.full then s.fail .signal
  else
    match s.q.notFull with
    | none => s
    | some u => { s with q := { s.q with notFull := none } }.unblockWaiter u

/-- `signal (q, &q->not_empty)`. -/
def signalNotEmpty (s : IntqState) : IntqState :=
  if s.q.empty then s.fail .signal
  else
    match s.q.notEmpty with
    | none => s
    | some u => { s with q := { s.q with notEmpty := none } }.unblockWaiter u

/-- What `intq_getc` or `intq_putc` does after its loop. -/
def transfer (s : IntqState) : IntqCall → IntqState
  | .getc =>
    { s with q := { s.q with tail := intqNext s.q.tail }, returned := s.q.buf s.q.tail :: s.returned }.signalNotFull
  | .putc byte =>
    { s with q := { s.q with buf := Function.update s.q.buf s.q.head byte, head := intqNext s.q.head } }.signalNotEmpty

/-- A pass of the loop of `sema_down` in `lock_acquire`: the thread sleeps, or has the lock and goes on to `wait`. -/
def acquire (s : IntqState) (t : Thread) (call : IntqCall) : IntqState :=
  match semaDown s.q.lock.semaphore t with
  | (sema, false) => { s with q := { s.q with lock := { s.q.lock with semaphore := sema } } }.setPc t (.lockAsleep call)
  | (sema, true) => { s with q := { s.q with lock := { holder := some t, semaphore := sema } } }.wait t call

/-- The loop of a call from its test on: a thread for which the queue is in order transfers its byte and returns, and another
one goes to `lock_acquire`. -/
def loop (s : IntqState) (t : Thread) (call : IntqCall) : IntqState :=
  if s.q.blocks call then
    if lockHeldByCurrentThread s.q.lock t then s.fail .lockAcquire else s.acquire t call
  else (s.setPc t .outside).transfer call

/-- The `thread_unblock` of `sema_up`. -/
def unblockLockWaiter (s : IntqState) (u : Thread) : IntqState :=
  match s.threads u with
  | .lockAsleep call => s.setPc u (.lockWoken call)
  | _ => s.fail .threadUnblock

/-- `lock_release` by thread `t`. -/
def release (s : IntqState) (t : Thread) : IntqState :=
  if lockHeldByCurrentThread s.q.lock t then
    match semaUp s.q.lock.semaphore with
    | (sema, none) => { s with q := { s.q with lock := { holder := none, semaphore := sema } } }
    | (sema, some u) => { s with q := { s.q with lock := { holder := none, semaphore := sema } } }.unblockLockWaiter u
  else s.fail .lockRelease

end IntqState

/-- What may come next: a thread makes a call, a thread that was unblocked gets the processor, or an interrupt handler makes
a call. -/
inductive IntqAction where
  | call (t : Thread) (call : IntqCall)
  | resume (t : Thread)
  | handler (call : IntqCall)
  deriving DecidableEq, Repr

/-- A step of the system; nothing moves after a failed assertion. A handler calls only where the queue is in order for the
call. -/
def IntqState.step (s : IntqState) (a : IntqAction) : Option IntqState :=
  if s.failed.isSome then none
  else
    match a with
    | .call t call => if s.threads t = .outside then some (s.loop t call) else none
    | .resume t =>
      match s.threads t with
      | .lockWoken call => some (s.acquire t call)
      | .signalled call =>
        let s := s.release t
        if s.failed.isSome then some s else some (s.loop t call)
      | _ => none
    | .handler call => if s.q.blocks call then none else some (s.transfer call)

/-- A queue right after `intq_init`, with no thread in a call. -/
def IntqState.start (buf : Nat → UInt8) : IntqState :=
  { q := intqInit buf, threads := fun _ => .outside, returned := [], failed := none }

/-- Every interleaving of the threads and the handlers. -/
def intqSystem : Transition.System IntqState IntqAction where
  init s := ∃ buf, s = IntqState.start buf
  step := IntqState.step

end Pintos
