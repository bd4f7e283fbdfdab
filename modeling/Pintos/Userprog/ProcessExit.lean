import Pintos.Filesys.InodeLife
import Pintos.Userprog.GlobalFiles

/-!
# The files of a process that exits (`userprog/process.c`: `process_exit`; `userprog/syscall.c`: `free_thread`)

Every way for a process to end is `thread_exit`, which calls `process_exit`. That closes the executable and then has
`free_thread` take the descriptors off the list and count their global files down. What follows in `process_exit` (the page
directory and the shares with parent and children) touches no file.
-/

namespace Pintos

open Program

/-- The part of `process_exit` that deals with files, for a process with the given executable and descriptors. -/
def processExit (file : Option Nat) (fds : List Descriptor) (s : FilesState) : FsM FilesState := do
  fileClose file
  pure (s.freeThread fds)

/-- The `struct file`s that the process holds: its executable, and those of its descriptors. -/
def FilesState.held (s : FilesState) (file : Option Nat) (fds : List Descriptor) : List Nat :=
  file.toList ++ fds.filterMap (fun d => (s.heap d.globalFile).map (·.file))

/-- The references to an inode among some files. -/
def World.refs (w : World) (held : List Nat) (a : Nat) : Nat :=
  held.countP (fun f => (w.mem.files f).any (fun file => file.inode == a))

/-- The write denials of an inode among some files. -/
def World.denials (w : World) (held : List Nat) (a : Nat) : Nat :=
  held.countP (fun f => (w.mem.files f).any (fun file => file.inode == a && file.denyWrite))

end Pintos
