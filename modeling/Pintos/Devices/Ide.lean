import Pintos.Threads.Synch
import Pintos.Library.Transition

/-!
# The ATA driver (`devices/ide.c`)

An operation on a disk takes the lock of the channel, selects the sector, issues its command and waits on the semaphore
`completion_wait`, which the interrupt handler raises. The handler and other threads may come between any two of the steps
below; a pass of `sema_down` and a `sema_up` are one step each.

What the ports other than the command register carry is left out. The disk is the environment: it says whether
`wait_while_busy` finds it ready, and when it interrupts. Nothing moves after a failed assertion or a `PANIC`.
-/

namespace Pintos

/-- The two operations. -/
inductive IdeKind where
  | read
  | write
  deriving DecidableEq, Repr

/-- A call of `ide_read` or `ide_write` for a sector. -/
structure IdeOp where
  kind : IdeKind
  secNo : Nat
  deriving DecidableEq, Repr

/-- Where a thread is, by what it does next. -/
inductive IdePc where
  | outside
  /-- In the `sema_down` of `lock_acquire`, asleep. -/
  | lockAsleep
  /-- In the `sema_down` of `lock_acquire`, unblocked. -/
  | lockWoken
  /-- The end of `lock_acquire`: the holder is set. -/
  | setHolder
  /-- `select_sector`. -/
  | select
  /-- `issue_pio_command`: the interrupt is expected. -/
  | expect
  /-- The command is written to the command register. -/
  | command
  /-- The `wait_while_busy` of `ide_write`, and `output_sector`. -/
  | output
  /-- `sema_down (&c->completion_wait)`. -/
  | down
  /-- In that `sema_down`, asleep. -/
  | downAsleep
  /-- The `wait_while_busy` of `ide_read`, and `input_sector`. -/
  | input
  /-- `lock_release`: the assertion, and the holder is cleared. -/
  | clearHolder
  /-- The `sema_up` of `lock_release`. -/
  | release
  deriving DecidableEq, Repr

/-- Where an operation goes on when its command is out. -/
def IdeKind.afterCommand : IdeKind → IdePc
  | .read => .down
  | .write => .output

/-- Where an operation goes on after its `sema_down`. -/
def IdeKind.afterDown : IdeKind → IdePc
  | .read => .input
  | .write => .clearHolder

/-- What ends a run. -/
inductive IdeFault where
  /-- The assertion of `select_sector`. -/
  | sector
  /-- The `PANIC` of `ide_read`. -/
  | readFailed
  /-- The `PANIC` of `ide_write`. -/
  | writeFailed
  /-- The assertion of `lock_acquire`. -/
  | lockAcquire
  /-- The assertion of `lock_release`. -/
  | lockRelease
  /-- The assertion of `thread_unblock`. -/
  | threadUnblock
  deriving DecidableEq, Repr

/-- The parts of a `struct channel` that change. -/
structure Channel where
  lock : Lock
  expectingInterrupt : Bool
  completionWait : Semaphore

/-- The channel; each thread with its operation; the commands issued so far and the interrupts since the last of them; the
`sema_down`s that ended with no interrupt since the operation's own command; the messages about unexpected interrupts; and
the fault, if there was one. -/
structure IdeState where
  channel : Channel
  threads : Thread → IdePc
  ops : Thread → IdeOp
  issued : Nat
  since : Nat
  unmatched : Nat
  messages : Nat
  failed : Option IdeFault

namespace IdeState

variable (s : IdeState) (t : Thread) (sema : Semaphore)

/-- The state with one thread moved. -/
def setPc (pc : IdePc) : IdeState := { s with threads := Function.update s.threads t pc }

/-- The state after a fault. -/
def fail (f : IdeFault) : IdeState := { s with failed := some f }

/-- The state with the lock's semaphore set. -/
def setLock : IdeState :=
  { s with channel := { s.channel with lock := { s.channel.lock with semaphore := sema } } }

/-- The state with the lock's holder set. -/
def setHolder (holder : Option Thread) : IdeState :=
  { s with channel := { s.channel with lock := { s.channel.lock with holder := holder } } }

/-- The state with `completion_wait` set. -/
def setWait : IdeState := { s with channel := { s.channel with completionWait := sema } }

/-- A pass of the `sema_down` of `lock_acquire`. -/
def acquire : IdeState :=
  match semaDown s.channel.lock.semaphore t with
  | (sema, false) => (s.setLock sema).setPc t .lockAsleep
  | (sema, true) => (s.setLock sema).setPc t .setHolder

/-- The first statement of `issue_pio_command`. -/
def expect : IdeState :=
  { s with channel := { s.channel with expectingInterrupt := true } }.setPc t .command

/-- `outb (reg_command (c), command)`, and what comes after it. -/
def command : IdeState :=
  { s with issued := s.issued + 1, since := 0 }.setPc t (s.ops t).kind.afterCommand

/-- A pass of `sema_down (&c->completion_wait)`. -/
def down : IdeState :=
  match semaDown s.channel.completionWait t with
  | (sema, false) => (s.setWait sema).setPc t .downAsleep
  | (sema, true) =>
    { s.setWait sema with unmatched := if s.since = 0 then s.unmatched + 1 else s.unmatched }.setPc t (s.ops t).kind.afterDown

/-- `thread_unblock` on a thread that sleeps at `asleep`. -/
def unblock (u : Thread) (asleep awake : IdePc) : IdeState :=
  if s.threads u = asleep then s.setPc u awake else s.fail .threadUnblock

/-- The `sema_up` of `lock_release`. -/
def release : IdeState :=
  match semaUp s.channel.lock.semaphore with
  | (sema, none) => (s.setLock sema).setPc t .outside
  | (sema, some u) => ((s.setLock sema).setPc t .outside).unblock u .lockAsleep .lockWoken

/-- What thread `t` does next, if it is not asleep; `ready` is what `wait_while_busy` returns. -/
def run (ready : Bool) : Option IdeState :=
  match s.threads t with
  | .outside | .lockAsleep | .downAsleep => none
  | .lockWoken => some (s.acquire t)
  | .setHolder => some ((s.setHolder (some t)).setPc t .select)
  | .select => some (if (s.ops t).secNo < 2 ^ 28 then s.setPc t .expect else s.fail .sector)
  | .expect => some (s.expect t)
  | .command => some (s.command t)
  | .output => some (if ready then s.setPc t .down else s.fail .writeFailed)
  | .down => some (s.down t)
  | .input => some (if ready then s.setPc t .clearHolder else s.fail .readFailed)
  | .clearHolder =>
    some (if lockHeldByCurrentThread s.channel.lock t then (s.setHolder none).setPc t .release else s.fail .lockRelease)
  | .release => some (s.release t)

/-- `interrupt_handler` for the channel. -/
def interruptHandler : IdeState :=
  if s.channel.expectingInterrupt then
    match semaUp s.channel.completionWait with
    | (sema, none) => { s.setWait sema with since := s.since + 1 }
    | (sema, some u) => { s.setWait sema with since := s.since + 1 }.unblock u .downAsleep .down
  else { s with messages := s.messages + 1 }

/-- `ide_read` or `ide_write` by thread `t`, up to the first point where it may sleep. -/
def call (op : IdeOp) : IdeState :=
  let s := { s with ops := Function.update s.ops t op }
  if lockHeldByCurrentThread s.channel.lock t then s.fail .lockAcquire else s.acquire t

end IdeState

/-- What may come next: a call by a thread, a step of a thread, or an interrupt on the line of the channel. -/
inductive IdeAction where
  | call (t : Thread) (op : IdeOp)
  | run (t : Thread) (ready : Bool)
  | interrupt
  deriving DecidableEq, Repr

/-- A step of the system. -/
def IdeState.step (s : IdeState) (a : IdeAction) : Option IdeState :=
  if s.failed.isSome then none
  else
    match a with
    | .call t op => if s.threads t = .outside then some (s.call t op) else none
    | .run t ready => s.run t ready
    | .interrupt => some s.interruptHandler

/-- A channel as `ide_init` sets it up, before the first command. -/
def IdeState.start : IdeState :=
  { channel := { lock := lockInit, expectingInterrupt := false, completionWait := semaInit 0 }
    threads := fun _ => .outside
    ops := fun _ => { kind := .read, secNo := 0 }
    issued := 0
    since := 0
    unmatched := 0
    messages := 0
    failed := none }

/-- Every interleaving of the threads and the interrupts. -/
def ideSystem : Transition.System IdeState IdeAction where
  init s := s = IdeState.start
  step := IdeState.step

end Pintos
