import Pintos.Filesys.DirEntry
import Pintos.Library.Transition

/-!
# Directory calls under threads (`filesys/directory.c`: `lookup`, `dir_add`, `dir_remove`)

Any number of threads run `dir_add` and `dir_remove` on one directory. The directory has no lock: a step is one call of
`inode_read_at` or `inode_write_at`, so a call is a walk over the entries one read at a time, then perhaps a second walk,
then one write.
-/

namespace Pintos

/-- Where a thread is. -/
inductive DirPc where
  | idle
  /-- In `lookup`, about to read entry `k`. -/
  | lookup (call : DirCall) (k : Nat)
  /-- In the second loop of `dir_add`, about to read entry `k`; `e` is what its local variable holds. -/
  | scan (name : CString) (sector : Nat) (old : DirEntry) (k : Nat) (e : DirEntry)
  /-- In `dir_add`, about to write entry `k`. -/
  | insert (name : CString) (sector : Nat) (old : DirEntry) (k : Nat) (e : DirEntry)
  /-- In `dir_remove`, with entry `k` found, about to open its inode. -/
  | opening (name : CString) (k : Nat) (e : DirEntry)
  /-- In `dir_remove`, about to write entry `k`. -/
  | erase (name : CString) (k : Nat) (e : DirEntry)
  deriving DecidableEq

/-- The directory, the threads, and the calls that have returned, in the order in which they did. -/
structure DirState where
  slots : List DirEntry
  threads : Nat → DirPc
  done : List DirEvent

/-- What the scheduler may choose: a thread starts a call, or makes its next access. `ok` is the outcome of an allocation
there. -/
inductive DirAction where
  | call (t : Nat) (c : DirCall)
  | go (t : Nat) (ok : Bool)

namespace DirState

variable (s : DirState) (t : Nat) (c : DirCall) (k : Nat)

/-- The state with one thread moved. -/
def setPc (pc : DirPc) : DirState :=
  { s with threads := fun u => if u = t then pc else s.threads u }

/-- A thread returns from its call. -/
def ret (ok result : Bool) : DirState :=
  setPc { s with done := s.done ++ [{ call := c, ok := ok, result := result }] } t .idle

/-- One `inode_read_at` of `lookup`, and what the caller does with the outcome. -/
def lookupStep (ok : Bool) : DirState :=
  match s.slots[k]?, c with
  | some e, .add _ _ _ => if e.isNamed c.name then s.ret t c ok false else s.setPc t (.lookup c (k + 1))
  | some e, .remove name => if e.isNamed c.name then s.setPc t (.opening name k e) else s.setPc t (.lookup c (k + 1))
  | none, .add name sector old => s.setPc t (.scan name sector old 0 old)
  | none, .remove _ => s.ret t c ok false

/-- One `inode_read_at` of the second loop of `dir_add`. -/
def scanStep (name : CString) (sector : Nat) (old : DirEntry) (k : Nat) (e : DirEntry) : DirState :=
  match s.slots[k]? with
  | some e' => if e'.inUse then s.setPc t (.scan name sector old (k + 1) e') else s.setPc t (.insert name sector old k e')
  | none => s.setPc t (.insert name sector old k e)

/-- The `inode_write_at` of a call, and its return. -/
def writeStep (e : DirEntry) (ok : Bool) : DirState :=
  ret { s with slots := (endWithWrite s.slots k e ok).2 } t c ok (endWithWrite s.slots k e ok).1

/-- A step of the system. -/
def step : DirAction → Option DirState
  | .call t c =>
    if s.threads t = .idle then
      if c.validName then some (s.setPc t (.lookup c 0)) else some (s.ret t c true false)
    else none
  | .go t ok =>
    match s.threads t with
    | .idle => none
    | .lookup c k => some (s.lookupStep t c k ok)
    | .scan name sector old k e => some (s.scanStep t name sector old k e)
    | .insert name sector old k e => some (s.writeStep t (.add name sector old) k (e.fill name sector) ok)
    | .opening name k e => if ok then some (s.setPc t (.erase name k e)) else some (s.ret t (.remove name) false false)
    | .erase name k e => some (s.writeStep t (.remove name) k { e with inUse := false } true)

/-- A thread is inside a call and has read some entry, or knows what it read. -/
def Reading : Prop := s.threads t ≠ .idle ∧ ∀ c, s.threads t ≠ .lookup c 0

/-- The write of a thread falls between the first read and the return of no other thread's call. -/
def WriteApart : DirAction → Prop
  | .go t _ => (∃ name sector old k e, s.threads t = .insert name sector old k e) ∨ (∃ name k e, s.threads t = .erase name k e) →
      ∀ u, u ≠ t → ¬s.Reading u
  | _ => True

/-- The calls that have returned had the outcome of some serial order: executed one after the other they return the same
values and leave the same entries in use. -/
def Serializable (slots0 : List DirEntry) (s : DirState) : Prop :=
  ∃ order slots', order.Perm s.done ∧ replay slots0 order = some slots' ∧ (inUseEntries slots').Perm (inUseEntries s.slots)

end DirState

variable (slots : List DirEntry)

/-- The directory with given entries and no thread in a call. -/
def DirState.start : DirState := { slots := slots, threads := fun _ => .idle, done := [] }

/-- Every interleaving of the calls of every thread on a directory. -/
def dirSystem : Transition.System DirState DirAction where
  init s := s = DirState.start slots
  step := DirState.step

end Pintos
