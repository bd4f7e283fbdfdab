import Pintos.Threads.Synch
import Pintos.Library.Transition

/-!
# A lock and its condition variables under threads (`threads/synch.c`)

Any number of threads call the operations of one lock and any number of condition variables. A step is a section of
`sema_down`, `sema_try_down` or `sema_up` with interrupts off, or one statement between two of them.

The `struct semaphore_elem` of a call of `cond_wait` lies on the stack of the thread that calls it, and a thread is in at
most one such call: `waiter t` is the semaphore in it, and `t` stands for its address in the list of a condition variable.

The log records, newest first, what the callers of the condition variables can see. It is read by no step.
-/

namespace Pintos

/-- A condition variable of the lock. -/
abbrev Cond := Nat

/-- Where a thread is. In `acquire`, `asleepLock`, `setHolder` and `release` the argument says whether the function was
called by `cond_wait`, and on which condition variable; in `signal` and `wake` it says whether `cond_signal` was called by
`cond_broadcast`. -/
inductive MonitorPc where
  | outside
  /-- In `lock_acquire`, about to run a pass of `sema_down` on the lock's semaphore. -/
  | acquire (inWait : Option Cond)
  | asleepLock (inWait : Option Cond)
  /-- In `lock_acquire` or `lock_try_acquire`, past the semaphore, about to set `holder`. -/
  | setHolder (inWait : Option Cond)
  /-- Returned from acquiring the lock. -/
  | inside
  /-- In `lock_release`, with `holder` set to null, about to call `sema_up`. -/
  | release (inWait : Option Cond)
  /-- In `cond_wait`, about to put the waiter at the end of the list. -/
  | push (c : Cond)
  /-- In `cond_wait`, about to call `lock_release`. -/
  | unlock (c : Cond)
  /-- In `cond_wait`, about to run a pass of `sema_down` on the waiter's semaphore. -/
  | down (c : Cond)
  | asleep (c : Cond)
  /-- In `cond_signal`, about to look at the list. -/
  | signal (c : Cond) (all : Bool)
  /-- In `cond_signal`, with the waiter of `w` taken from the list, about to call `sema_up` on its semaphore. -/
  | wake (c : Cond) (w : Thread) (all : Bool)
  /-- In `cond_signal`, about to return to a caller that is not `cond_broadcast`. -/
  | leave (c : Cond)
  /-- In `cond_broadcast`, about to test its loop's condition. -/
  | broadcast (c : Cond)
  deriving DecidableEq, Repr

/-- Between the `sema_down` that acquires the lock and the `sema_up` that releases it. -/
def MonitorPc.critical : MonitorPc → Bool
  | .outside | .acquire _ | .asleepLock _ | .down _ | .asleep _ => false
  | .setHolder _ | .inside | .release _ | .push _ | .unlock _ | .signal _ _ | .wake _ _ _ | .leave _ | .broadcast _ => true

/-- The condition variable of the call of `cond_signal` or `cond_broadcast` that a thread is in, and which of the two it
is. -/
def MonitorPc.signals : MonitorPc → Option (Cond × Bool)
  | .signal c all | .wake c _ all => some (c, all)
  | .leave c => some (c, false)
  | .broadcast c => some (c, true)
  | .outside | .acquire _ | .asleepLock _ | .setHolder _ | .inside | .release _ | .push _ | .unlock _ | .down _ |
    .asleep _ => none

/-- What can be seen of the condition variables. `all` tells `cond_broadcast` from `cond_signal`. -/
inductive MonitorEvent where
  /-- `t` calls `cond_wait`. -/
  | entered (t : Thread) (c : Cond)
  /-- `t` returns from `cond_wait`. -/
  | returned (t : Thread) (c : Cond)
  /-- `u` calls `cond_signal` or `cond_broadcast`. -/
  | start (u : Thread) (c : Cond) (all : Bool)
  /-- `u` wakes the waiter `w`, by the `sema_up` of `cond_signal`. -/
  | signalled (u w : Thread) (c : Cond)
  /-- `u` returns from `cond_signal` or `cond_broadcast`. -/
  | finish (u : Thread) (c : Cond) (all : Bool)
  deriving DecidableEq, Repr

/-- The threads that wait on a condition variable, as a log tells it: those that have called `cond_wait` and have not been
signalled since, in the order in which they called it. -/
def waiting (c : Cond) : List MonitorEvent → List Thread
  | [] => []
  | .entered t c' :: log => if c' = c then waiting c log ++ [t] else waiting c log
  | .signalled _ w c' :: log => if c' = c then (waiting c log).erase w else waiting c log
  | .returned _ _ :: log | .start _ _ _ :: log | .finish _ _ _ :: log => waiting c log

/-- The lock, the lists of the condition variables, the waiters' semaphores, the threads and the log. `panicked` says that an
assertion has failed. -/
structure MonitorState where
  lock : Lock
  conds : Cond → List Thread
  waiter : Thread → Semaphore
  threads : Thread → MonitorPc
  log : List MonitorEvent
  panicked : Bool

/-- The functions that a thread may call. -/
inductive MonitorCall where
  | lockAcquire
  | lockTryAcquire
  | lockRelease
  | condWait (c : Cond)
  | condSignal (c : Cond)
  | condBroadcast (c : Cond)
  deriving DecidableEq, Repr

/-- What the scheduler may choose: a thread calls a function, or makes its next step. -/
inductive MonitorAction where
  | call (t : Thread) (f : MonitorCall)
  | go (t : Thread)
  deriving DecidableEq, Repr

namespace MonitorState

variable (s : MonitorState) (t : Thread) (sema : Semaphore) (pc : MonitorPc)

/-- The state with one thread moved. -/
def setPc : MonitorState :=
  { s with threads := Function.update s.threads t pc }

@[simp] theorem setPc_threads : (s.setPc t pc).threads = Function.update s.threads t pc := rfl

/-- A failed assertion. -/
def panic : MonitorState := { s with panicked := true }

/-- An event is seen. -/
def record (e : MonitorEvent) : MonitorState := { s with log := e :: s.log }

/-- `thread_unblock`, of the thread that `sema_up` took from its list. It asserts that the thread is blocked. -/
def unblock : MonitorState :=
  match s.threads t with
  | .asleepLock inWait => s.setPc t (.acquire inWait)
  | .asleep c => s.setPc t (.down c)
  | _ => s.panic

/-- `thread_unblock`, if `sema_up` took a thread from its list. -/
def unblock? : Option Thread → MonitorState
  | none => s
  | some t => s.unblock t

/-- The state with another semaphore in the lock. -/
def setLockSema : MonitorState := { s with lock := { s.lock with semaphore := sema } }

/-- The state with another `holder` in the lock. -/
def setHolder (holder : Option Thread) : MonitorState := { s with lock := { s.lock with holder := holder } }

/-- The state with another list in a condition variable. -/
def setCond (c : Cond) (ws : List Thread) : MonitorState := { s with conds := Function.update s.conds c ws }

/-- The state with another semaphore in a waiter. -/
def setWaiter : MonitorState :=
  { s with waiter := Function.update s.waiter t sema }

/-- A waiter's semaphore says nothing of where the threads are. -/
@[simp] theorem setWaiter_threads : (s.setWaiter t sema).threads = s.threads := rfl

/-- A call, up to its first step. `lock_acquire` and `lock_try_acquire` assert that the caller does not hold the lock, the
others that it does; `cond_broadcast` asserts it in the `cond_signal` it calls while the list is not empty. -/
def call : MonitorCall → MonitorState
  | .lockAcquire => if lockHeldByCurrentThread s.lock t then s.panic else s.setPc t (.acquire none)
  | .lockTryAcquire =>
    if lockHeldByCurrentThread s.lock t then s.panic else
    match semaTryDown s.lock.semaphore with
    | (sema, true) => (s.setLockSema sema).setPc t (.setHolder none)
    | (_, false) => s
  | .lockRelease => if lockHeldByCurrentThread s.lock t then (s.setHolder none).setPc t (.release none) else s.panic
  | .condWait c =>
    if lockHeldByCurrentThread s.lock t then ((s.setWaiter t (semaInit 0)).record (.entered t c)).setPc t (.push c) else s.panic
  | .condSignal c =>
    if lockHeldByCurrentThread s.lock t then (s.record (.start t c false)).setPc t (.signal c false) else s.panic
  | .condBroadcast c =>
    if lockHeldByCurrentThread s.lock t then (s.record (.start t c true)).setPc t (.broadcast c)
    else if s.conds c = [] then s else s.panic

/-- The next step of a thread that is inside a function and not asleep. -/
def go : MonitorPc → Option MonitorState
  | .outside | .inside | .asleepLock _ | .asleep _ => none
  | .acquire inWait =>
    match semaDown s.lock.semaphore t with
    | (sema, true) => some ((s.setLockSema sema).setPc t (.setHolder inWait))
    | (sema, false) => some ((s.setLockSema sema).setPc t (.asleepLock inWait))
  | .setHolder none => some ((s.setHolder (some t)).setPc t .inside)
  | .setHolder (some c) => some (((s.setHolder (some t)).record (.returned t c)).setPc t .inside)
  | .release inWait =>
    match semaUp s.lock.semaphore with
    | (sema, woken) => some (((s.setLockSema sema).unblock? woken).setPc t (inWait.elim .outside .down))
  | .push c => some ((s.setCond c (s.conds c ++ [t])).setPc t (.unlock c))
  | .unlock c =>
    if lockHeldByCurrentThread s.lock t then some ((s.setHolder none).setPc t (.release (some c))) else some s.panic
  | .down c =>
    match semaDown (s.waiter t) t with
    | (sema, true) =>
      if lockHeldByCurrentThread s.lock t then some s.panic else some ((s.setWaiter t sema).setPc t (.acquire (some c)))
    | (sema, false) => some ((s.setWaiter t sema).setPc t (.asleep c))
  | .signal c all =>
    match s.conds c with
    | [] => some (s.setPc t (if all then .broadcast c else .leave c))
    | w :: rest => some ((s.setCond c rest).setPc t (.wake c w all))
  | .wake c w all =>
    match semaUp (s.waiter w) with
    | (sema, woken) =>
      some ((((s.setWaiter w sema).unblock? woken).record (.signalled t w c)).setPc t (if all then .broadcast c else .leave c))
  | .leave c => some ((s.record (.finish t c false)).setPc t .inside)
  | .broadcast c =>
    if s.conds c = [] then some ((s.record (.finish t c true)).setPc t .inside)
    else if lockHeldByCurrentThread s.lock t then some (s.setPc t (.signal c true)) else some s.panic

/-- A step of the system. Nothing moves after a panic; a call is made by a thread that is in no function. -/
def step (a : MonitorAction) : Option MonitorState :=
  if s.panicked then none else
  match a with
  | .call t f => if s.threads t = .outside ∨ s.threads t = .inside then some (s.call t f) else none
  | .go t => s.go t (s.threads t)

/-- The state right after `lock_init` and `cond_init`. What the threads' stacks hold is of no account. -/
def start (stack : Thread → Semaphore) : MonitorState :=
  { lock := lockInit, conds := fun _ => [], waiter := stack, threads := fun _ => .outside, log := [], panicked := false }

end MonitorState

/-- The system of the threads that use a lock and its condition variables. -/
def monitorSystem : Transition.System MonitorState MonitorAction :=
  { init := fun s => ∃ stack, s = MonitorState.start stack, step := MonitorState.step }

end Pintos
