import Pintos.Filesys.Filesys

/-!
# What the file system is for

A file system keeps byte arrays under names, and hands out handles to read and write them. `FileTable` is that and nothing
else: no sectors, no inodes in memory, no free map. A file is known by a number, so that it can lose its name while it is
open and another file can take the name. `FileTable.Step` says what each call of the file system may return and do to the
table.
-/

namespace Pintos

/-- A call of the file system. Files are created empty. -/
inductive FileCall where
  | filesysCreate (name : CString)
  | filesysOpen (name : CString)
  | fileWriteAt (f : Nat) (buffer : List UInt8) (size ofs : Int)
  | fileReadAt (f : Nat) (size ofs : Int)
  | fileClose (f : Nat)
  | filesysRemove (name : CString)
  deriving DecidableEq

/-- What a call returns: a truth value, a `struct file` or the null pointer, a count, a count and the bytes read, or
nothing. -/
inductive FileRet where
  | bool (b : Bool)
  | file (f : Option Nat)
  | count (n : Int)
  | bytes (n : Int) (bs : List UInt8)
  | unit
  deriving DecidableEq

/-- The call as the code makes it. -/
def FileCall.run : FileCall → FsM FileRet
  | .filesysCreate name => do return .bool (← Pintos.filesysCreate name 0)
  | .filesysOpen name => do return .file (← Pintos.filesysOpen name)
  | .fileWriteAt f buffer size ofs => do return .count (← Pintos.fileWriteAt f buffer size ofs)
  | .fileReadAt f size ofs => do
    let (n, bytes) ← Pintos.fileReadAt f size ofs
    return .bytes n bytes
  | .fileClose f => do
    Pintos.fileClose (some f)
    return .unit
  | .filesysRemove name => do return .bool (← Pintos.filesysRemove name)

/-- The files as byte arrays: the bytes of each by its number, the names with the numbers they stand for, and the open
handles with the numbers they refer to. -/
structure FileTable where
  contents : Nat → List UInt8
  names : List (CString × Nat)
  handles : Nat → Option Nat

namespace FileTable

/-- No file. -/
def empty : FileTable where
  contents _ := []
  names := []
  handles _ := none

variable (t : FileTable) (name : CString) (s : Nat)

/-- A file is there as long as it has a name or an open handle. -/
def Live : Prop := (∃ name, (name, s) ∈ t.names) ∨ ∃ f, t.handles f = some s

/-- The table with other bytes in a file. -/
def setContents (bs : List UInt8) : FileTable :=
  { t with contents := fun x => if x = s then bs else t.contents x }

/-- The table with a new file, which is empty, under a name. -/
def addName : FileTable := { t.setContents s [] with names := (name, s) :: t.names }

/-- The table without a name. The file is the same. -/
def removeName : FileTable := { t with names := t.names.erase (name, s) }

/-- The table with a handle opened or closed. -/
def setHandle (f : Nat) (s : Option Nat) : FileTable :=
  { t with handles := fun x => if x = f then s else t.handles x }

end FileTable

/-- The bytes `new` are the bytes `old` with `bs` written at `ofs`. Between the old end and `ofs` there may be anything:
nothing was ever written there. -/
structure Overwrites (old new : List UInt8) (ofs : Nat) (bs : List UInt8) : Prop where
  length : new.length = max old.length (ofs + bs.length)
  written : ∀ k, k < bs.length → new[ofs + k]? = bs[k]?
  kept : ∀ k, k < old.length → k < ofs ∨ ofs + bs.length ≤ k → new[k]? = old[k]?

namespace FileTable

/-- What a call may return, and the table after it. -/
inductive Step (t : FileTable) : FileCall → FileRet → FileTable → Prop where
  /-- A new name gets a new file, which is empty. -/
  | created {name : CString} {s : Nat} (hlen : name.strlen ≠ 0 ∧ name.strlen ≤ nameMax) (hname : ∀ x, (name, x) ∉ t.names)
      (hs : ¬t.Live s) : Step t (.filesysCreate name) (.bool true) (t.addName name s)
  /-- A name that is taken, empty or too long is not created. -/
  | notCreated {name : CString} (h : name.strlen = 0 ∨ nameMax < name.strlen ∨ ∃ x, (name, x) ∈ t.names) :
      Step t (.filesysCreate name) (.bool false) t
  /-- Opening a name gives a handle that was not in use. -/
  | opened {name : CString} {s f : Nat} (hname : (name, s) ∈ t.names) (hf : t.handles f = none) :
      Step t (.filesysOpen name) (.file (some f)) (t.setHandle f (some s))
  | notOpened {name : CString} (hname : ∀ x, (name, x) ∉ t.names) : Step t (.filesysOpen name) (.file none) t
  /-- A write is a whole write, to the file of the handle and to no other. -/
  | wrote {f s : Nat} {buffer new : List UInt8} {size ofs : Int} (hf : t.handles f = some s)
      (hnew : Overwrites (t.contents s) new ofs.toNat (buffer.take size.toNat)) :
      Step t (.fileWriteAt f buffer size ofs) (.count size) (t.setContents s new)
  /-- A read within the file returns its bytes. -/
  | read {f s : Nat} {size ofs : Int} (hf : t.handles f = some s) (h0 : 0 ≤ ofs ∧ 0 ≤ size)
      (hin : ofs + size ≤ (t.contents s).length) :
      Step t (.fileReadAt f size ofs) (.bytes size (((t.contents s).drop ofs.toNat).take size.toNat)) t
  /-- A read that does not lie within the file returns no byte. -/
  | readNone {f s : Nat} {size ofs n : Int} (hf : t.handles f = some s)
      (hout : ofs < 0 ∨ size < 0 ∨ (t.contents s).length < ofs + size) (hn : n ≤ 0) :
      Step t (.fileReadAt f size ofs) (.bytes n []) t
  /-- Closing a handle changes no file and no name. -/
  | closed {f s : Nat} (hf : t.handles f = some s) : Step t (.fileClose f) .unit (t.setHandle f none)
  /-- Removing a name changes no file and no handle. -/
  | removed {name : CString} {s : Nat} (hname : (name, s) ∈ t.names) :
      Step t (.filesysRemove name) (.bool true) (t.removeName name s)
  | notRemoved {name : CString} (hname : ∀ x, (name, x) ∉ t.names) : Step t (.filesysRemove name) (.bool false) t

end FileTable

end Pintos
