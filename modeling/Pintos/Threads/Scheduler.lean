import Pintos.Threads.Synch
import Pintos.Library.Transition

/-!
# The scheduler (`threads/thread.c`)

The threads, the run queue and the lists of the semaphores. An operation runs with interrupts off and is one step, up to the
point where `schedule` switches to another thread; a thread switched to inside `sema_down` first tests the value again.
`none` as the outcome of an operation is a failed assertion: the kernel panics.

A thread is named by its page. A page that has been freed may be given to a new thread, so threads are also numbered in the
order in which they were made (`birth`), which the code does not see.
-/

namespace Pintos

/-- `enum thread_status`. -/
inductive ThreadStatus where
  | running
  | ready
  | blocked
  | dying
  deriving DecidableEq, Repr

/-- A semaphore, named by its address. -/
abbrev Sema := Nat

/-- Where a thread goes on when it runs. -/
inductive ThreadPc where
  /-- In the code of its own function, which may call anything. -/
  | own
  /-- In the loop of `sema_down`, about to test the value. -/
  | inDown (m : Sema)
  /-- At the start of `idle`, about to set `idle_thread`. -/
  | idleStart
  /-- In `idle`, about to call `sema_up` on the semaphore it was given. -/
  | idleUp
  /-- In the loop of `idle`, about to block. -/
  | idleLoop
  deriving DecidableEq, Repr

/-- The thread runs `idle`. -/
def ThreadPc.isIdle : ThreadPc → Bool
  | .own | .inDown _ => false
  | .idleStart | .idleUp | .idleLoop => true

/-- `struct thread`: what the scheduler reads of it. -/
structure ThreadRec where
  status : ThreadStatus
  pc : ThreadPc
  birth : Nat
  deriving DecidableEq, Repr

/-- The state that `thread.c` and the semaphores share. -/
structure Sched where
  /-- The pages that hold a `struct thread`. -/
  threads : Thread → Option ThreadRec
  readyList : List Thread
  allList : List Thread
  semas : Sema → Semaphore
  /-- `running_thread ()`: the page of the kernel stack in use. -/
  cur : Thread
  idleThread : Option Thread
  initialThread : Thread
  /-- `thread_start` has been called. -/
  started : Bool
  /-- How many threads have been made. -/
  born : Nat
  /-- The threads whose pages have been freed, newest first, each with the thread that ran and freed it. -/
  freed : List (Nat × Nat)

namespace Sched

variable (s : Sched) (t : Thread) (m : Sema)

/-- The state with another `struct thread` at a page. -/
def setThread (th : ThreadRec) : Sched := { s with threads := Function.update s.threads t (some th) }

/-- The state with another semaphore at an address. -/
def setSema (sema : Semaphore) : Sched := { s with semas := Function.update s.semas m sema }

/-- `next_thread_to_run`. -/
def nextThreadToRun : Option Thread × Sched :=
  match s.readyList with
  | [] => (s.idleThread, s)
  | t :: rest => (some t, { s with readyList := rest })

/-- `palloc_free_page`, of the page of a thread, by the running thread `by_`. -/
def freePage (th by_ : ThreadRec) : Sched :=
  { s with threads := Function.update s.threads t none, freed := (th.birth, by_.birth) :: s.freed }

/-- `thread_schedule_tail`, run by the thread that was switched to. -/
def threadScheduleTail (prev : Option Thread) : Option Sched := do
  let th ← s.threads s.cur
  let s := s.setThread s.cur { th with status := .running }
  match prev with
  | none => some s
  | some p =>
    let pth ← s.threads p
    if pth.status = .dying ∧ p ≠ s.initialThread then
      if p = s.cur then none else some (s.freePage p pth th)
    else some s

/-- `schedule`. -/
def schedule : Option Sched := do
  let th ← s.threads s.cur
  let (next, s) := s.nextThreadToRun
  if th.status = .running then none else
  let n ← next
  let _ ← s.threads n
  if s.cur = n then s.threadScheduleTail none
  else ({ s with cur := n } : Sched).threadScheduleTail (some s.cur)

/-- `thread_block`. -/
def threadBlock : Option Sched := do
  let th ← s.threads s.cur
  (s.setThread s.cur { th with status := .blocked }).schedule

/-- `thread_unblock`. -/
def threadUnblock : Option Sched := do
  let th ← s.threads t
  if th.status = .blocked then some ({ s with readyList := s.readyList ++ [t] }.setThread t { th with status := .ready })
  else none

/-- `thread_yield`. -/
def threadYield : Option Sched := do
  let th ← s.threads s.cur
  let s := if s.idleThread = some s.cur then s else { s with readyList := s.readyList ++ [s.cur] }
  (s.setThread s.cur { th with status := .ready }).schedule

/-- `thread_exit`, after `process_exit`. -/
def threadExit : Option Sched := do
  let th ← s.threads s.cur
  ({ s with allList := s.allList.erase s.cur }.setThread s.cur { th with status := .dying }).schedule

/-- `thread_create`, on the page that `palloc_get_page` gives, of a thread whose function starts at `pc`. -/
def threadCreate (page : Thread) (pc : ThreadPc) : Option Sched :=
  ({ s with allList := s.allList ++ [page], born := s.born + 1 }.setThread page
    { status := .blocked, pc := pc, birth := s.born }).threadUnblock page

/-- `sema_up`. -/
def up : Option Sched :=
  match semaUp (s.semas m) with
  | (sema, none) => some (s.setSema m sema)
  | (sema, some t) => (s.setSema m sema).threadUnblock t

/-- A pass of the loop of `sema_down` by the running thread. -/
def down : Option Sched := do
  let th ← s.threads s.cur
  match semaDown (s.semas m) s.cur with
  | (sema, true) => some ((s.setSema m sema).setThread s.cur { th with pc := .own })
  | (sema, false) => ((s.setSema m sema).setThread s.cur { th with pc := .inDown m }).threadBlock

end Sched

/-- The semaphore that `thread_start` gives to the idle thread. -/
def idleStarted : Sema := 0

/-- What the running thread, or an interrupt that it takes, may do next. -/
inductive SchedAction where
  /-- `thread_start`, up to its `sema_down`; `page` is what `palloc_get_page` gives. -/
  | threadStart (page : Option Thread)
  | threadCreate (page : Option Thread)
  | threadBlock
  | threadUnblock (t : Thread)
  | threadYield
  | threadExit
  | semaInit (m : Sema) (v : UInt32)
  | semaDown (m : Sema)
  | semaTryDown (m : Sema)
  | semaUp (m : Sema)
  /-- The next step of a thread that is in `sema_down` or in `idle`. -/
  | go
  deriving DecidableEq, Repr

namespace Sched

/-- What a thread at `pc` may do. In the loop of `sema_down` interrupts are off. The idle thread runs `idle`, and takes
interrupts, which may make it yield, unblock threads and call `sema_up` and `sema_try_down`. -/
def allowed : ThreadPc → SchedAction → Bool
  | .own, .go => false
  | .own, _ => true
  | .inDown _, .go => true
  | .inDown _, _ => false
  | _, .go | _, .threadYield | _, .threadUnblock _ | _, .semaUp _ | _, .semaTryDown _ => true
  | _, _ => false

variable (s : Sched)

/-- The next step of the thread `th` that runs. -/
def go (th : ThreadRec) : Option Sched :=
  match th.pc with
  | .own => none
  | .inDown m => s.down m
  | .idleStart => some { s.setThread s.cur { th with pc := .idleUp } with idleThread := some s.cur }
  | .idleUp => (s.setThread s.cur { th with pc := .idleLoop }).up idleStarted
  | .idleLoop => s.threadBlock

/-- `thread_create` where `palloc_get_page` has given a page, which holds no thread, or null. -/
def create (pc : ThreadPc) : Option Thread → Option Sched
  | none => some s
  | some page => if s.threads page = none then s.threadCreate page pc else none

/-- A step of the system. -/
def step (a : SchedAction) : Option Sched := do
  let th ← s.threads s.cur
  if allowed th.pc a then
    match a with
    | .threadStart page =>
      if s.cur = s.initialThread ∧ s.started = false then
        ({ s.setSema idleStarted (semaInit 0) with started := true } : Sched).create .idleStart page
      else none
    | .threadCreate page => s.create .own page
    | .threadBlock => s.threadBlock
    | .threadUnblock t => s.threadUnblock t
    | .threadYield => s.threadYield
    | .threadExit => s.threadExit
    | .semaInit m v => some (s.setSema m (semaInit v))
    | .semaDown m => s.down m
    | .semaTryDown m => some (s.setSema m (semaTryDown (s.semas m)).1)
    | .semaUp m => s.up m
    | .go => s.go th
  else none

/-- The state after `thread_init`: the code that runs has become the initial thread, at its page. -/
def start (page : Thread) (value : Sema → UInt32) : Sched :=
  { threads := Function.update (fun _ => none) page (some { status := .running, pc := .own, birth := 0 }),
    readyList := [], allList := [page], semas := fun m => semaInit (value m), cur := page, idleThread := none,
    initialThread := page, started := false, born := 1, freed := [] }

end Sched

/-- The system of the threads under the scheduler. -/
def schedSystem : Transition.System Sched SchedAction :=
  { init := fun s => ∃ page value, s = Sched.start page value, step := Sched.step }

end Pintos
