import Pintos.Devices.Intq

/-!
# The serial port (`devices/serial.c`)

Bytes go out by the transmit register. At first they are polled out one by one. Once `serial_init_queue` has registered the
interrupt handler they go through the queue `txq`, which the handler empties as the port becomes ready, and which
`serial_flush`, and `serial_putc` where it may not sleep, empty by polling.

Code with interrupts off is one step: `serial_putc` until it sleeps in `intq_putc`, but each statement of `serial_init_queue`
for itself. Polling waits with interrupts off: its step is taken when the port is ready. The input buffer is the environment,
which says whether it is full when `write_ier` asks. Nothing moves after a failed assertion.
-/

namespace Pintos

/-- The mode of transmission. -/
inductive SerialMode where
  | uninit
  | poll
  | queue
  deriving DecidableEq, Repr

/-- `enum intr_level`. -/
inductive IntrLevel where
  | off
  | on
  deriving DecidableEq, Repr

/-- Where a call of `serial_init_queue` is, by what comes next. -/
inductive SerialInitPc where
  /-- There is no call. -/
  | idle
  /-- The call of `init_poll`, whose assertion comes first. -/
  | initPoll
  /-- The settings of the port and `intq_init`. -/
  | intqInit
  /-- The end of `init_poll`: `mode = POLL`. -/
  | setPoll
  /-- The assertion that the mode is `POLL`. -/
  | assertPoll
  /-- The registration of the handler. -/
  | register
  /-- `mode = QUEUE`. -/
  | setQueue
  /-- `write_ier` with interrupts off, and the return. -/
  | writeIer
  deriving DecidableEq, Repr

/-- The assertions of `serial.c` that may fail. -/
inductive SerialAssert where
  | initPoll
  | initQueue
  deriving DecidableEq, Repr

/-- `IER_RECV`. -/
def ierRecv : UInt8 := 0x01

/-- `IER_XMIT`. -/
def ierXmit : UInt8 := 0x02

/-- The variables of the driver, with the threads in a call on the queue; the last value of the interrupt enable register and
all the bytes of the transmit register; and the bytes of the calls of `serial_putc` that have gone through. -/
structure SerialState where
  mode : SerialMode
  txq : IntqState
  init : SerialInitPc
  registered : Bool
  ier : UInt8
  sent : List UInt8
  accepted : List UInt8
  failed : Option SerialAssert

namespace SerialState

variable (s : SerialState) (t : Thread) (byte : UInt8) (inputFull : Bool)

/-- An assertion has failed. -/
def stopped : Bool := s.failed.isSome || s.txq.failed.isSome

/-- `outb (THR_REG, byte)`. -/
def transmit : SerialState := { s with sent := s.sent ++ [byte] }

/-- `init_poll` with interrupts off, behind its assertion. -/
def initPoll : SerialState :=
  { s with txq := { s.txq with q := intqInit s.txq.q.buf }, ier := 0, mode := .poll }

/-- `write_ier`. -/
def writeIer : SerialState :=
  { s with ier := (if s.txq.q.empty then 0 else ierXmit) ||| (if inputFull then 0 else ierRecv) }

/-- `intq_getc (&txq)`, where there is a byte, and its transmission. -/
def sendOldest : SerialState :=
  let q := s.txq.transfer .getc
  if q.failed.isSome then { s with txq := q } else { s with txq := q }.transmit (s.txq.q.buf s.txq.q.tail)

/-- `intq_putc (&txq, byte)` from the test of its loop on. The thread sleeps, or the byte is in the queue and `serial_putc`
returns. -/
def queueByte : SerialState :=
  let q := s.txq.loop t (.putc byte)
  if s.txq.q.full || q.failed.isSome then { s with txq := q }
  else { s with txq := q, accepted := s.accepted ++ [byte] }.writeIer inputFull

/-- `serial_putc` by thread `t`, or by a handler that came while it ran. -/
def putc (level : IntrLevel) (byte : UInt8) (inputFull : Bool) : SerialState :=
  match s.mode with
  | .uninit => { s.initPoll with accepted := s.accepted ++ [byte] }.transmit byte
  | .poll => { s with accepted := s.accepted ++ [byte] }.transmit byte
  | .queue =>
    let s := if level = .off ∧ s.txq.q.full = true then s.sendOldest else s
    if s.stopped then s else s.queueByte t byte inputFull

/-- The loop that takes bytes from the queue and transmits them, as often as the port is ready. -/
def drain (s : SerialState) : Nat → SerialState
  | 0 => s
  | ready + 1 => if s.txq.q.empty || s.stopped then s else s.sendOldest.drain ready

/-- `serial_flush`. It polls, so the port is ready for every byte, and there are fewer of them than the buffer has places. -/
def flush : SerialState := s.drain intqBufsize

/-- `serial_interrupt`, with the port ready so many times. -/
def interrupt (ready : Nat) (inputFull : Bool) : SerialState :=
  let s := s.drain ready
  if s.stopped then s else s.writeIer inputFull

/-- `serial_notify`. -/
def notify : SerialState := if s.mode = .queue then s.writeIer inputFull else s

/-- The next statement of `serial_init_queue`. -/
def initStep : SerialState :=
  match s.init with
  | .idle => { s with init := if s.mode = .uninit then .initPoll else .assertPoll }
  | .initPoll => if s.mode = .uninit then { s with init := .intqInit } else { s with failed := some .initPoll }
  | .intqInit => { s with txq := { s.txq with q := Pintos.intqInit s.txq.q.buf }, ier := 0, init := .setPoll }
  | .setPoll => { s with mode := .poll, init := .assertPoll }
  | .assertPoll => if s.mode = .poll then { s with init := .register } else { s with failed := some .initQueue }
  | .register => { s with registered := true, init := .setQueue }
  | .setQueue => { s with mode := .queue, init := .writeIer }
  | .writeIer => { s with init := .idle }.writeIer inputFull

/-- A thread that was unblocked in `serial_putc` gets the processor. -/
def resume : Option SerialState :=
  match s.txq.threads t with
  | .lockWoken call => some { s with txq := s.txq.acquire t call }
  | .signalled (.putc byte) =>
    let s := { s with txq := s.txq.release t }
    if s.stopped then some s else some (s.queueByte t byte inputFull)
  | _ => none

end SerialState

/-- What may come next: a call of `serial_putc`, its going on after a sleep, a call of `serial_flush`, a statement of
`serial_init_queue`, a serial interrupt, or a call of `serial_notify`. -/
inductive SerialAction where
  | putc (t : Thread) (level : IntrLevel) (byte : UInt8) (inputFull : Bool)
  | resume (t : Thread) (inputFull : Bool)
  | flush
  | initStep (inputFull : Bool)
  | interrupt (ready : Nat) (inputFull : Bool)
  | notify (inputFull : Bool)
  deriving DecidableEq, Repr

/-- A step of the system. A thread in a call makes no other, and an interrupt goes to the handler once that is registered. -/
def SerialState.step (s : SerialState) (a : SerialAction) : Option SerialState :=
  if s.stopped then none
  else
    match a with
    | .putc t level byte inputFull => if s.txq.threads t = .outside then some (s.putc t level byte inputFull) else none
    | .resume t inputFull => s.resume t inputFull
    | .flush => some s.flush
    | .initStep inputFull => some (s.initStep inputFull)
    | .interrupt ready inputFull => if s.registered then some (s.interrupt ready inputFull) else none
    | .notify inputFull => some (s.notify inputFull)

/-- The driver at the start of the kernel: its variables are zero, and so is all of `txq`. -/
def SerialState.boot : SerialState :=
  { mode := .uninit
    txq :=
      { q := { lock := { holder := none, semaphore := { value := 0, waiters := [] } }, notFull := none, notEmpty := none,
               buf := fun _ => 0, head := 0, tail := 0 }
        threads := fun _ => .outside
        returned := []
        failed := none }
    init := .idle
    registered := false
    ier := 0
    sent := []
    accepted := []
    failed := none }

/-- Every interleaving of the threads and the interrupts. -/
def serialSystem : Transition.System SerialState SerialAction where
  init s := s = SerialState.boot
  step := SerialState.step

end Pintos
