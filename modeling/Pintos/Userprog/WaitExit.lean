import Pintos.Library.Transition

/-!
# Waiting and exiting (`userprog/process.c`: `process_wait`, `process_exit`, `exit_share`)

A parent has registered children, each with a `process_share` that both can reach. The parent makes any calls of
`process_wait` and then calls `process_exit`; each child runs and then calls `process_exit`. A step is an operation on a lock
or a semaphore, or one statement between two of them; `lock_acquire` and `sema_down` wait by not being enabled.

A `process_share` is named by the `tid` in it. `freed` counts the calls of `free`, and `badAccess` says that some step has
used a freed share.
-/

namespace Pintos

/-- `tid_t`. -/
abbrev Tid := Int

/-- The two that share a `process_share`. -/
inductive Party where
  | parent
  | child
  deriving DecidableEq, Repr

/-- `process_share`: what waiting and exiting use of it. -/
structure ProcessShare where
  sig : Nat
  rvalue : Int
  refcount : Int
  /-- Who holds `lock`. -/
  holder : Option Party
  freed : Nat
  deriving DecidableEq, Repr

/-- Where the parent is with a share that it has taken from its list. In `process_wait`, `call` is the value read from the
share; in `exit_share` it is `none`. -/
inductive ParentPc where
  /-- In `process_wait`, about to call `sema_down`. -/
  | down
  /-- About to call `lock_acquire`, in `process_wait` or in `exit_share`. -/
  | acquire (inWait : Bool)
  /-- In `process_wait`, about to read `rvalue`. -/
  | read
  /-- About to take one from `refcount`. -/
  | drop (call : Option Int)
  /-- About to call `lock_release`; `last` says that `refcount` was 0. -/
  | release (call : Option Int) (last : Bool)
  /-- About to call `free`. -/
  | free (call : Option Int)
  deriving DecidableEq, Repr

/-- What the parent does. -/
inductive ParentAt where
  | running
  | busy (c : Tid) (pc : ParentPc)
  /-- In the loop of `process_exit`. -/
  | exiting
  | gone
  deriving DecidableEq, Repr

/-- Where a child is: running, in the `exit_share` of its `process_exit`, or past it. -/
inductive ChildPc where
  | running
  | acquire
  | drop
  | setRvalue
  | up
  | release (last : Bool)
  | free
  | gone
  deriving DecidableEq, Repr

/-- The parent, the children and what they share. -/
structure WaitState where
  shares : Tid → ProcessShare
  /-- `child_share` of the parent. -/
  childShare : List Tid
  parent : ParentAt
  child : Tid → ChildPc
  /-- `rvalue` of a child, once it has called `process_exit`. -/
  exitValue : Tid → Option Int
  /-- The calls of `process_wait` that have returned, newest first, with what they returned. -/
  waits : List (Tid × Int)
  badAccess : Bool

/-- What the scheduler may choose: the parent calls a function or takes its next step, or a child does. -/
inductive WaitAction where
  | processWait (tid : Tid)
  | processExit
  | parentGo
  | childExit (c : Tid) (rvalue : Int)
  | childGo (c : Tid)
  deriving DecidableEq, Repr

namespace WaitState

variable (kids : List Tid) (s : WaitState) (c : Tid)

/-- A share is used. -/
def touch : WaitState := { s with badAccess := s.badAccess || decide (0 < (s.shares c).freed) }

/-- The shares on the list are used: the list runs through them. -/
def touchList : WaitState :=
  { s with badAccess := s.badAccess || s.childShare.any (fun c => decide (0 < (s.shares c).freed)) }

/-- A share is used and changed. -/
def setShare (p : ProcessShare) : WaitState := { s.touch c with shares := Function.update s.shares c p }

/-- The parent is through with a share: `process_wait` returns, and `process_exit` goes on with its loop. -/
def leave : Option Int → WaitState
  | some r => { s with parent := .running, waits := (c, r) :: s.waits }
  | none => { s with parent := .exiting }

/-- `process_wait`, up to its `sema_down`, or to its return where no child has the `tid`. -/
def processWait (tid : Tid) : WaitState :=
  if tid ∈ s.childShare then { s.touchList with childShare := s.childShare.erase tid, parent := .busy tid .down }
  else { s.touchList with waits := (tid, -1) :: s.waits }

/-- The parent's next step with the share of `c`. -/
def parentGo : ParentPc → Option WaitState
  | .down =>
    if 0 < (s.shares c).sig then
      some { s.setShare c { s.shares c with sig := (s.shares c).sig - 1 } with parent := .busy c (.acquire true) }
    else none
  | .acquire inWait =>
    if (s.shares c).holder = none then
      some { s.setShare c { s.shares c with holder := some .parent } with parent := .busy c (if inWait then .read
        else .drop none) }
    else none
  | .read => some { s.touch c with parent := .busy c (.drop (some (s.shares c).rvalue)) }
  | .drop call =>
    some { s.setShare c { s.shares c with refcount := (s.shares c).refcount - 1 } with
      parent := .busy c (.release call ((s.shares c).refcount - 1 == 0)) }
  | .release call last =>
    if last then some { s.setShare c { s.shares c with holder := none } with parent := .busy c (.free call) }
    else some ((s.setShare c { s.shares c with holder := none }).leave c call)
  | .free call => some ((s.setShare c { s.shares c with freed := (s.shares c).freed + 1 }).leave c call)

/-- The loop of `process_exit` over the children. -/
def exitLoop : WaitState :=
  match s.childShare with
  | [] => { s with parent := .gone }
  | c :: rest => { s.touchList with childShare := rest, parent := .busy c (.acquire false) }

/-- The state with a child moved. -/
def setChild (pc : ChildPc) : WaitState := { s with child := Function.update s.child c pc }

/-- The next step of a child in `exit_share`. -/
def childGo : ChildPc → Option WaitState
  | .running | .gone => none
  | .acquire =>
    if (s.shares c).holder = none then some ((s.setShare c { s.shares c with holder := some .child }).setChild c .drop) else none
  | .drop =>
    some ((s.setShare c { s.shares c with refcount := (s.shares c).refcount - 1 }).setChild c
      (if (s.shares c).refcount - 1 = 0 then .release true else .setRvalue))
  | .setRvalue => some ((s.setShare c { s.shares c with rvalue := (s.exitValue c).getD 0 }).setChild c .up)
  | .up => some ((s.setShare c { s.shares c with sig := (s.shares c).sig + 1 }).setChild c (.release false))
  | .release last => some ((s.setShare c { s.shares c with holder := none }).setChild c (if last then .free else .gone))
  | .free => some ((s.setShare c { s.shares c with freed := (s.shares c).freed + 1 }).setChild c .gone)

/-- A step of the system. -/
def step : WaitAction → Option WaitState
  | .processWait tid => if s.parent = .running then some (s.processWait tid) else none
  | .processExit => if s.parent = .running then some { s with parent := .exiting } else none
  | .parentGo =>
    match s.parent with
    | .running | .gone => none
    | .busy c pc => s.parentGo c pc
    | .exiting => some s.exitLoop
  | .childExit c rvalue =>
    if c ∈ kids ∧ s.child c = .running then
      some { s.setChild c .acquire with exitValue := Function.update s.exitValue c (some rvalue) }
    else none
  | .childGo c => if c ∈ kids then s.childGo c (s.child c) else none

/-- The state once the children `kids` are registered: each has a share as `thread_create` makes it, whose `rvalue` is not
set. -/
def start (junk : Tid → Int) : WaitState :=
  { shares := fun c => { sig := 0, rvalue := junk c, refcount := 2, holder := none, freed := 0 }, childShare := kids,
    parent := .running, child := fun _ => .running, exitValue := fun _ => none, waits := [], badAccess := false }

end WaitState

/-- The system of a parent and its registered children, which have different `tid`s. -/
def waitSystem (kids : List Tid) : Transition.System WaitState WaitAction :=
  { init := fun s => kids.Nodup ∧ ∃ junk, s = WaitState.start kids junk, step := WaitState.step kids }

end Pintos
