import Mathlib
import Pintos.Library.Transition

/-!
# The scheduling simulator (`schedlab/scheduling.ipynb`)

Tasks arrive over time, each with a thread that alternates bursts of computation with waits for I/O until it has run for the
task's total run time. `scheduler` takes threads from a ready queue, lets each run for a quantum at most and moves the time
of the machine on; what arrives or wakes up in the meantime enters the queue afterwards, with the time at which it did.

A thread is a record with a number, its place in the list `threads` of the machine, so that a thread in two places at once
would be seen. A burst function may keep a state of its own, so what it returns depends on the number of the call too. The
log and the printed messages are left out.
-/

namespace Pintos.Schedlab

/-- A burst function: what its call number `k` returns for the elapsed time it is given. -/
structure Burst where
  length : Nat → Int → Int
  nonneg : ∀ k elapsed, 0 ≤ length k elapsed

/-- `Task`. -/
structure Task where
  arrivalTime : Int
  totalRunTime : Int
  cpuBurst : Burst
  ioBurst : Burst
  arrival_nonneg : 0 ≤ arrivalTime
  total_nonneg : 0 ≤ totalRunTime

/-- `make_periodic`. -/
def makePeriodic (duration : Nat) : Burst := ⟨fun _ _ => duration, fun _ _ => Int.natCast_nonneg duration⟩

/-- `indefinite`. -/
def indefinite : Burst := makePeriodic 0

/-- `nowait`. -/
def nowait : Burst := makePeriodic 0

/-- `workload1`. -/
def workload1 : List Task :=
  [⟨0, 4, indefinite, nowait, by decide, by decide⟩,
   ⟨1, 7, indefinite, nowait, by decide, by decide⟩,
   ⟨2, 2, makePeriodic 1, makePeriodic 4, by decide, by decide⟩,
   ⟨3, 3, makePeriodic 1, makePeriodic 1, by decide, by decide⟩]

/-- `Thread`, with its number, the calls made of the two burst functions, and the sum of the waits it has entered through
`io_wait`. -/
structure Thread where
  number : Nat
  task : Task
  elapsedTime : Int
  lastQueued : Option Int
  waitTime : Int
  remainingBurst : Option Int
  wakeupTime : Option Int
  cpuCalls : Nat
  ioCalls : Nat
  ioWaits : Int

/-- `Thread (task)`. -/
def Thread.new (number : Nat) (task : Task) : Thread :=
  { number := number, task := task, elapsedTime := 0, lastQueued := none, waitTime := 0, remainingBurst := none,
    wakeupTime := none, cpuCalls := 0, ioCalls := 0, ioWaits := 0 }

/-- How a thread ends its time on the processor. -/
inductive Status where
  | cpu
  | io
  | done
  deriving DecidableEq, Repr

namespace Thread

variable (t : Thread) (q : Int)

/-- `remaining`. -/
def remaining : Int := t.task.totalRunTime - t.elapsedTime

/-- A call of `io_burst` at the end of a burst. -/
def startIo : Thread × Status × Option Int :=
  ({ t with ioCalls := t.ioCalls + 1 }, .io, some (t.task.ioBurst.length t.ioCalls t.elapsedTime))

/-- The part of `run` that goes on with a burst of which `burst` is left. -/
def continueBurst (burst q : Int) : Thread × Int × Status × Option Int :=
  let runLen := if q > 0 then min (min q burst) t.remaining else min burst t.remaining
  let t := { t with remainingBurst := some (burst - runLen), elapsedTime := t.elapsedTime + runLen }
  if burst - runLen ≠ 0 then (t, runLen, .cpu, none)
  else
    let (t, status, ioTime) := t.startIo
    (t, runLen, status, ioTime)

/-- The part of `run` that starts a new burst. -/
def startBurst : Thread × Int × Status × Option Int :=
  let burst := t.task.cpuBurst.length t.cpuCalls t.elapsedTime
  let runLen :=
    if burst = 0 ∧ q = 0 then t.remaining
    else if burst = 0 then min q t.remaining
    else if q = 0 then min burst t.remaining
    else min (min q burst) t.remaining
  let t := { t with cpuCalls := t.cpuCalls + 1, elapsedTime := t.elapsedTime + runLen }
  if burst = 0 then (t, runLen, .cpu, none)
  else if runLen < burst then ({ t with remainingBurst := some (burst - runLen) }, runLen, .cpu, none)
  else
    let (t, status, ioTime) := t.startIo
    (t, runLen, status, ioTime)

/-- What is left of a burst, if that is neither `None` nor 0. -/
def burstLeft : Option Int := t.remainingBurst.filter (fun burst => decide (burst ≠ 0))

/-- `run`: the thread afterwards, how long it ran, its status and the time of its I/O. -/
def run : Thread × Int × Status × Option Int :=
  let (t, runLen, status, ioTime) :=
    match t.burstLeft with
    | some burst => t.continueBurst burst q
    | none => t.startBurst q
  (t, runLen, if t.remaining ≤ 0 then .done else status, ioTime)

end Thread

/-- The exceptions that a step of the simulator might raise. -/
inductive SchedError where
  /-- Arithmetic with `None`. -/
  | typeError
  /-- A thread taken from an empty queue. -/
  | indexError
  deriving DecidableEq, Repr

/-- A number that may be `None`, where it is used. -/
def orTypeError : Option Int → Except SchedError Int
  | some n => .ok n
  | none => .error .typeError

/-- `Machine`, with the queue `ready` (the thread to be taken next first) and the number of its threads. -/
structure Machine where
  time : Int
  created : Nat
  future : List Task
  ready : List Thread
  io : List Thread

namespace Machine

variable (m : Machine) (t : Thread)

/-- `enqueue`, which is `arrive` and `wake` too. -/
def enqueue (atTime : Int) : Machine := { m with ready := m.ready ++ [{ t with lastQueued := some atTime }] }

/-- `dequeue`. -/
def dequeue : Except SchedError (Thread × Machine) :=
  match m.ready with
  | [] => .error .indexError
  | t :: rest => do
    let queued ← orTypeError t.lastQueued
    return ({ t with waitTime := t.waitTime + (m.time - queued) }, { m with ready := rest })

/-- The first loop of `_arrivals`, for one task: a thread is made and enters the queue. -/
def arrive (task : Task) : Machine :=
  { m with created := m.created + 1 }.enqueue (Thread.new m.created task) task.arrivalTime

/-- The first loop of `_arrivals`, with the tasks that `enter_tasks` takes from the stream. -/
def enterTasks : Machine :=
  (m.future.filter (fun task => decide (task.arrivalTime ≤ m.time))).foldl arrive
    { m with future := m.future.filter (fun task => decide (¬task.arrivalTime ≤ m.time)) }

/-- The second loop of `_arrivals`, for one thread of a copy of the list: it stays there or enters the queue. -/
def wake : Except SchedError Machine := do
  let wakeup ← orTypeError t.wakeupTime
  if wakeup ≤ m.time then return m.enqueue t wakeup else return { m with io := m.io ++ [t] }

/-- `_arrivals`. -/
def arrivals : Except SchedError Machine :=
  let m := m.enterTasks
  m.io.foldlM wake { m with io := [] }

/-- `next_start`. The stream tests the first arrival for its truth value. -/
def nextStart : Except SchedError (Option Int) := do
  let nextTaskstart := m.future.head?.map (·.arrivalTime)
  let wakeups ← m.io.mapM (fun t => orTypeError t.wakeupTime)
  match wakeups.min?, nextTaskstart.filter (fun n => decide (n ≠ 0)) with
  | some wakeup, some arrival => return some (min arrival wakeup)
  | some wakeup, none => return some wakeup
  | none, _ => return nextTaskstart

/-- `idle`. -/
def idle : Except SchedError Machine :=
  if m.future.isEmpty ∧ m.io.isEmpty then .ok m
  else do
    let next ← m.nextStart
    let idleTime ← orTypeError next
    if idleTime > 0 then arrivals { m with time := idleTime } else .ok m

/-- `run`. -/
def run (runTime : Int) : Except SchedError Machine := { m with time := m.time + runTime }.arrivals

/-- `io_wait`. -/
def ioWait (waitTime : Int) : Machine :=
  { m with io := m.io ++ [{ t with wakeupTime := some (m.time + waitTime), ioWaits := t.ioWaits + waitTime }] }

end Machine

/-- Where the loop of `scheduler` is. -/
inductive Phase where
  /-- At the test of the loop. -/
  | top
  /-- A thread was taken from the queue. -/
  | dequeued (t : Thread)
  /-- The thread ran, and the machine moved on. -/
  | ran (t : Thread) (status : Status) (ioTime : Option Int)
  /-- The loop is over. -/
  | stopped
  /-- An exception was raised. -/
  | raised (e : SchedError)

/-- A simulation, with the threads that have finished and the times at which they did. -/
structure Sim where
  machine : Machine
  phase : Phase
  finished : List (Thread × Int)

namespace Sim

/-- Where the simulation goes on after a part that may raise an exception. -/
def andThen {α : Type} (s : Sim) (r : Except SchedError α) (k : α → Sim) : Sim :=
  match r with
  | .ok a => k a
  | .error e => { s with phase := .raised e }

variable (s : Sim) (q : Int) (t : Thread)

/-- A turn of the loop, from its test on. -/
def turn : Sim :=
  if s.machine.ready.isEmpty then
    s.andThen s.machine.nextStart fun next =>
      if next = none ∨ next = some 0 then { s with phase := .stopped }
      else s.andThen s.machine.idle fun m => { s with machine := m }
  else s.andThen s.machine.dequeue fun r => { s with machine := r.2, phase := .dequeued r.1 }

/-- The thread runs, and then the machine. -/
def runThread : Sim :=
  let (t, runTime, status, ioTime) := t.run q
  s.andThen (s.machine.run runTime) fun m => { s with machine := m, phase := .ran t status ioTime }

/-- The end of a turn: the thread waits for I/O, goes back to the queue or is finished. -/
def dispatch (status : Status) (ioTime : Option Int) : Sim :=
  if status = .io then
    s.andThen (orTypeError ioTime) fun wait =>
      if wait > 0 then { s with machine := s.machine.ioWait t wait, phase := .top }
      else { s with machine := s.machine.enqueue t s.machine.time, phase := .top }
  else if status ≠ .done then { s with machine := s.machine.enqueue t s.machine.time, phase := .top }
  else { s with phase := .top, finished := s.finished ++ [(t, s.machine.time)] }

/-- The next step of `scheduler (tasks, q, FIFOQueue)`. -/
def step (s : Sim) : Option Sim :=
  match s.phase with
  | .top => some s.turn
  | .dequeued t => some (s.runThread q t)
  | .ran t status ioTime => some (s.dispatch t status ioTime)
  | .stopped | .raised _ => none

/-- `TaskStream (tasks)`, `queue_class ()` and `Machine (remaining, ready)`. -/
def start (tasks : List Task) : Sim :=
  let m : Machine :=
    { time := 0, created := 0, future := tasks.insertionSort (fun a b => a.arrivalTime ≤ b.arrivalTime), ready := [], io := [] }
  let s : Sim := { machine := m, phase := .top, finished := [] }
  s.andThen m.arrivals fun m => { s with machine := m }

end Sim

/-- `scheduler (tasks, q, FIFOQueue)`. -/
def scheduler (tasks : List Task) (q : Int) : Transition.System Sim Unit where
  init s := s = Sim.start tasks
  step s _ := s.step q

end Pintos.Schedlab
