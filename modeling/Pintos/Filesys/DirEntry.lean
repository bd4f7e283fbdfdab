import Pintos.Lib.String

/-!
# Directory entries and what one directory call does (`filesys/directory.c`)

A directory is a file of 20-byte entries, used or free. Here it is the list of its entries, and each call is the change it
makes to that list when nothing comes between its reads and its write.
-/

namespace Pintos

/-- `NAME_MAX`. -/
def nameMax : Nat := 14

/-- `struct dir_entry`. The name is the 15 bytes of its array. -/
structure DirEntry where
  inodeSector : Nat
  name : List UInt8
  inUse : Bool
  deriving DecidableEq

/-- The entry is in use and its name is the string. -/
def DirEntry.isNamed (e : DirEntry) (name : CString) : Bool := e.inUse && cstr e.name == name

/-- The entry that `dir_add` writes: over what its local variable last held. -/
def DirEntry.fill (e : DirEntry) (name : CString) (sector : Nat) : DirEntry :=
  { inodeSector := sector, name := strlcpy e.name name (nameMax + 1), inUse := true }

/-- A call of `dir_add` or `dir_remove`. The old bytes are those of the local variable of `dir_add` before it reads any
entry. -/
inductive DirCall where
  | add (name : CString) (sector : Nat) (old : DirEntry)
  | remove (name : CString)
  deriving DecidableEq

/-- The name a call is about. -/
def DirCall.name : DirCall → CString
  | .add name _ _ => name
  | .remove name => name

/-- The check that `dir_add` makes of its name before anything else. -/
def DirCall.validName : DirCall → Bool
  | .add name _ _ => decide (name.strlen ≠ 0 ∧ name.strlen ≤ nameMax)
  | .remove _ => true

/-- `inode_write_at` of one entry at place `k`: over an entry, or at the end of the file, where it needs a sector it may not
get. -/
def writeSlot (slots : List DirEntry) (k : Nat) (e : DirEntry) (ok : Bool) : Option (List DirEntry) :=
  if k < slots.length then some (slots.set k e) else if ok then some (slots ++ [e]) else none

/-- What a call that ends with the write returns and leaves: whether the whole entry was written. -/
def endWithWrite (slots : List DirEntry) (k : Nat) (e : DirEntry) (ok : Bool) : Bool × List DirEntry :=
  match writeSlot slots k e ok with
  | some slots' => (true, slots')
  | none => (false, slots)

/-- What a call returns and leaves when it runs with nothing between its reads and its write. `ok` says whether the file
system gives the call what it asks for: a sector to extend the directory, or memory to open the inode. -/
def DirCall.exec (slots : List DirEntry) (ok : Bool) (c : DirCall) : Bool × List DirEntry :=
  match c with
  | .add name sector old =>
    if c.validName = false then (false, slots)
    else if slots.any (fun e => e.isNamed name) then (false, slots)
    else
      let k := slots.findIdx (fun e => !e.inUse)
      let e := ((slots.take (k + 1)).getLast?).getD old
      endWithWrite slots k (e.fill name sector) ok
  | .remove name =>
    match slots.findIdx? (fun e => e.isNamed name) with
    | none => (false, slots)
    | some k =>
      match slots[k]? with
      | none => (false, slots)
      | some e =>
        if ok then endWithWrite slots k { e with inUse := false } true else (false, slots)

/-- A call that has returned, what it was given and what it returned. -/
structure DirEvent where
  call : DirCall
  ok : Bool
  result : Bool
  deriving DecidableEq

/-- Executing calls one after the other, each to the end, as long as each returns what its event says. -/
def replay : List DirEntry → List DirEvent → Option (List DirEntry)
  | slots, [] => some slots
  | slots, ev :: evs =>
    if (ev.call.exec slots ev.ok).1 = ev.result then replay (ev.call.exec slots ev.ok).2 evs else none

/-- The entries in use, as what they say: a name and a sector each. -/
def inUseEntries (slots : List DirEntry) : List (CString × Nat) :=
  (slots.filter (·.inUse)).map (fun e => (cstr e.name, e.inodeSector))

variable {slots slots' : List DirEntry} {evs : List DirEvent} {ev : DirEvent}

/-- The first call returns what its event says, and the others are executed on what it leaves. -/
theorem replay_cons : replay slots (ev :: evs) = some slots' ↔
    (ev.call.exec slots ev.ok).1 = ev.result ∧ replay (ev.call.exec slots ev.ok).2 evs = some slots' :=
  Option.ite_none_right_eq_some

theorem replay_snoc (h : replay slots evs = some slots') (ev : DirEvent) (he : (ev.call.exec slots' ev.ok).1 = ev.result) :
    replay slots (evs ++ [ev]) = some (ev.call.exec slots' ev.ok).2 := by
  induction evs generalizing slots with
  | nil =>
    cases h
    simp [replay, he]
  | cons x xs ih =>
    obtain ⟨hx, h⟩ := replay_cons.mp h
    exact replay_cons.mpr ⟨hx, ih h⟩

end Pintos
