import Pintos.Lemmas.Frame
import Pintos.Lemmas.InodeLife
import Pintos.Userprog.ProcessExit

/-!
# What a process gives back when it exits

A process that exits should close its executable and each of its open files once. `process_exit` closes the executable only:
`free_thread` counts the global files down and frees the descriptors, but no `file_close` is called, so that the `struct
file` and the reference to the inode of every open descriptor stay for ever.
-/

namespace Pintos

open Program

/-- Each of the files held is closed, once, and no other file: the inodes are counted down by the references held, their
write denials are lifted, one that nobody else has open is freed, and if it was removed its sectors are free. -/
structure ExitOk (w w' : World) (held : List Nat) : Prop where
  closed : ∀ f ∈ held, w'.mem.files f = none
  others : ∀ f, f ∉ held → w'.mem.files f = w.mem.files f
  counted : ∀ a i, w.mem.inodes a = some i → i.openCnt ≠ w.refs held a → ∃ i', w'.mem.inodes a = some i' ∧
    i'.openCnt = i.openCnt - w.refs held a ∧ i'.denyWriteCnt = i.denyWriteCnt - w.denials held a
  freed : ∀ a i, w.mem.inodes a = some i → i.openCnt = w.refs held a → w'.mem.inodes a = none
  released : ∀ a i, w.mem.inodes a = some i → i.openCnt = w.refs held a → i.removed = true → ∀ x ∈ i.held w.dev,
    w'.mem.freeMap x = false

variable (w : World) (sector : Nat) (exe : Option Nat) (length : Int)

/-- The inode of the executable. -/
def World.ExecutableInode (i : Inode) : Prop :=
  ∃ f file, exe = some f ∧ w.mem.files f = some file ∧ w.mem.inodes file.inode = some i

/-- The state in which a process exits: the executable and the files of its descriptors are there, each with a `struct file`
of its own; every open inode has a reference; and a removed executable that is to go with the process is within what the
on-disk format has room for, with its sectors and the free map in order. -/
structure ExitReady (w : World) (s : FilesState) (exe : Option Nat) (fds : List Descriptor) : Prop where
  executable : ∀ f, exe = some f → ∃ a i deny, Closable w f a i deny
  opened : ∀ a i, w.mem.inodes a = some i → 0 < i.openCnt
  descriptors : ∀ d ∈ fds, ∃ g, s.heap d.globalFile = some g ∧ (w.mem.files g.file).isSome = true ∧ exe ≠ some g.file
  sectors : fds = [] → ∀ i, w.ExecutableInode exe i → i.openCnt = 1 → i.removed = true →
    (0 ≤ i.data.length ∧ i.data.length ≤ formatBytes) ∧ ∃ E, Givable w E (i.held w.dev)

section

variable {w w' : World} {s : FilesState} {exe : Option Nat} {fds : List Descriptor}

/-- A process that holds nothing changes nothing. -/
theorem exitOk_none (hopen : ∀ a i, w.mem.inodes a = some i → 0 < i.openCnt) : ExitOk w w [] where
  closed f hf := by simp at hf
  others _ _ := rfl
  counted a i hi _ := ⟨i, hi, by simp [World.refs], by simp [World.denials]⟩
  freed a i hi h := by
    have := hopen a i hi
    simp only [World.refs, List.countP_nil] at h
    omega
  released a i hi h := by
    have := hopen a i hi
    simp only [World.refs, List.countP_nil] at h
    omega

/-- The references and denials of a file that is the only one held. -/
theorem refs_single {f a : Nat} {pos : Int} {deny : Bool}
    (hf : w.mem.files f = some { inode := a, pos := pos, denyWrite := deny }) (b : Nat) :
    w.refs [f] b = (if b = a then 1 else 0) ∧ w.denials [f] b = (if b = a then if deny then 1 else 0 else 0) := by
  by_cases hb : b = a
  · subst hb
    cases deny <;> simp [World.refs, World.denials, hf]
  · have hne : a ≠ b := fun h => hb h.symm
    simp [World.refs, World.denials, hf, hb, hne]

/-- Where the executable is all that the process holds, its close is all there is to do. -/
theorem FileClosed.exitOk {f a : Nat} {i : Inode} {deny : Bool} (hc : Closable w f a i deny) (h : FileClosed w w' f a i deny)
    (hopen : ∀ a i, w.mem.inodes a = some i → 0 < i.openCnt) : ExitOk w w' [f] := by
  obtain ⟨pos, hf⟩ := hc.file
  obtain ⟨-, -, -, -, hdeny⟩ := i.lift_fields deny
  have hother : ∀ b, b ≠ a → w.refs [f] b = 0 ∧ w.denials [f] b = 0 := fun b hb => by simpa [hb] using refs_single hf b
  have hown : w.refs [f] a = 1 ∧ w.denials [f] a = if deny then 1 else 0 := by simpa using refs_single hf a
  refine ⟨fun g hg => ?_, fun g hg => ?_, fun b j hj hne => ?_, fun b j hj heq => ?_, fun b j hj heq hrem x hx => ?_⟩
  · rw [h.files, if_pos (List.mem_singleton.mp hg)]
  · rw [h.files, if_neg (fun he => hg (List.mem_singleton.mpr he))]
  · by_cases hb : b = a
    · subst hb
      obtain rfl : i = j := Option.some.inj (hc.cell.symm.trans hj)
      rw [hown.1] at hne ⊢
      refine ⟨{ i.lift deny with openCnt := i.openCnt - 1 }, ?_, rfl, ?_⟩
      · rw [h.cell, if_neg (by exact_mod_cast hne)]
      · rw [hown.2]
        cases deny <;> simpa using hdeny
    · refine ⟨j, (h.others b hb).trans hj, ?_, ?_⟩
      · rw [(hother b hb).1]
        simp
      · rw [(hother b hb).2]
        simp
  all_goals
    have hpos := hopen b j hj
    obtain rfl : b = a := by
      by_contra hb
      rw [(hother b hb).1] at heq
      omega
    obtain rfl : i = j := Option.some.inj (hc.cell.symm.trans hj)
    rw [hown.1] at heq
  · rw [h.cell, if_pos (by exact_mod_cast heq)]
  · have hbit := h.bits x
    simp only [show i.openCnt = 1 by exact_mod_cast heq, hrem, hx, and_self, not_true_eq_false, and_false, iff_false,
      Bool.not_eq_true] at hbit
    exact hbit

/-- With no descriptor open, everything is given back. -/
theorem ExitReady.exitOk (h : ExitReady w s exe []) :
    Runs false (processExit exe [] s) (fun _ w' => ExitOk w w' (s.held exe [])) w := by
  cases exe with
  | none => exact (Runs.pure_iff).mpr (exitOk_none h.opened)
  | some f =>
    obtain ⟨a, i, deny, hc⟩ := h.executable f rfl
    have hinode : w.ExecutableInode (some f) i := by
      obtain ⟨pos, hf⟩ := hc.file
      exact ⟨f, _, rfl, hf, hc.cell⟩
    refine (Runs.fileClose hc (fun hlast hrem => ?_)).bind
      (fun _ w' hclosed => Runs.pure_iff.mpr (hclosed.exitOk hc h.opened))
    obtain ⟨⟨h0, h1⟩, hg⟩ := h.sectors rfl i hinode hlast hrem
    exact ⟨bytesToSectors_le h0 h1, hg⟩

/-- The file of a descriptor is still there after any exit. -/
theorem ExitReady.not_exitOk (h : ExitReady w s exe fds) {s' : FilesState}
    (hrun : (processExit exe fds s).run (FsOp.exec false) w = .ok (s', w')) (hok : ExitOk w w' (s.held exe fds)) : fds = [] := by
  by_contra hne
  obtain ⟨d, hd⟩ := List.exists_mem_of_ne_nil _ hne
  obtain ⟨g, hg, hfile, hexe⟩ := h.descriptors d hd
  have hmem : g.file ∈ s.held exe fds := by
    refine List.mem_append_right _ (List.mem_filterMap.mpr ⟨d, hd, ?_⟩)
    rw [hg]
    rfl
  have hkept : w'.mem.files g.file = w.mem.files g.file := by
    cases exe with
    | none =>
      cases hrun
      rfl
    | some f =>
      have hR := SameFiles.coarse f 0
      have hkeeps : KeepsFiles f (processExit (some f) fds s) := hR.bind (KeepsFiles.fileClose f) (fun _ => hR.pure _)
      exact (hkeeps w).ok hrun _ (fun he => hexe (by rw [he]))
  rw [← hkept, hok.closed _ hmem] at hfile
  exact absurd hfile (by decide)

end

/-! ## A process and its world -/

/-- The map of a file of one block uses one place. -/
theorem inUse_one {p : MapSlot} (h : MapSlot.InUse 1 p) : p = .block 0 := by
  cases p <;> simp_all [MapSlot.InUse, numDirect]

/-- The data of an inode of at most one block. -/
def smallData : InodeDisk := (InodeDisk.setDirectPtr (Contents.fill 0) 0 sector).setLength length

/-- Eight sectors, of which six are in use: the inodes of the free map and of the root directory, the free map itself, the
inode of a program and its data, and the inode of an empty file. The program has been removed; its process has also the empty
file open. -/
def exitWorld : World where
  mem :=
    { inodes := fun a =>
        if a = 10 then some { sector := 0, openCnt := 1, removed := false, extending := false, denyWriteCnt := 0,
                              data := smallData 2 4 }
        else if a = 11 then some { sector := 3, openCnt := 1, removed := true, extending := false, denyWriteCnt := 1,
                                   data := smallData 4 100 }
        else if a = 12 then some { sector := 5, openCnt := 1, removed := false, extending := false, denyWriteCnt := 0,
                                   data := smallData 0 0 }
        else none
      openInodes := [12, 11, 10]
      files := fun f =>
        if f = 20 then some { inode := 10, pos := 0, denyWrite := false }
        else if f = 21 then some { inode := 11, pos := 52, denyWrite := true }
        else if f = 22 then some { inode := 12, pos := 0, denyWrite := false }
        else none
      nextAddr := 30
      bitCnt := 8
      freeMap := fun x => decide (x < 6)
      freeMapFile := some 20
      diskInode := Contents.fill 0 }
  dev := { size := 8, disk := fun x => if x = 2 then (Contents.fill 0).splice 0 [63] else Contents.fill 0 }
  heap := fun _ => true

theorem smallData_length {sector : Nat} {length : Int} (h0 : 0 ≤ length) (h1 : length ≤ 512) :
    (smallData sector length).length = length :=
  InodeDisk.length_setLength _ (by omega) (by omega)

theorem smallData_directPtr {sector : Nat} {length : Int} (h : sector < 2 ^ 32) :
    (smallData sector length).directPtr 0 = sector := by
  rw [smallData, InodeDisk.directPtr_setLength]
  exact InodeDisk.directPtr_setDirectPtr _ (by decide) h

/-- A file of one block has it at the first direct pointer. -/
theorem smallData_map (h0 : 0 < length) (h1 : length ≤ 512) (hs : sector < 2 ^ 32) (p : MapSlot) :
    MapSlot.InUse (w.blocksOf (smallData sector length)).blocks p ↔
      p = .block 0 ∧ (w.blocksOf (smallData sector length)).sector p = sector := by
  have hblocks : (w.blocksOf (smallData sector length)).blocks = 1 := by
    have hlen : (smallData sector length).length = length := smallData_length (by omega) h1
    show ((smallData sector length).length.toNat + 511) / 512 = 1
    omega
  rw [hblocks]
  constructor
  · intro hp
    obtain rfl := inUse_one hp
    exact ⟨rfl, smallData_directPtr hs⟩
  · rintro ⟨rfl, -⟩
    exact Nat.one_pos

/-- The free map of this world is in its file, in sector 2. -/
theorem exitWorld_freeMap : FreeMapState exitWorld (fun x => x = 2) := by
  have hmap := smallData_map exitWorld 2 4 (by decide) (by decide) (by decide)
  have hlen : (smallData 2 4).length = 4 := smallData_length (by decide) (by decide)
  have hsec : (exitWorld.blocksOf (smallData 2 4)).sector (.block 0) = 2 := smallData_directPtr (by decide)
  refine .present 10 _ ⟨⟨⟨20, _, rfl, rfl, rfl⟩, rfl, ⟨rfl, rfl⟩, ?_, ?_, fun p hp => ?_, fun p q hp hq _ => ?_⟩, ?_⟩ fun x => ?_
  · exact hlen.trans (by decide)
  · rw [hlen]
    decide
  · rw [((hmap p).mp hp).2]
    decide
  · rw [((hmap p).mp hp).1, ((hmap q).mp hq).1]
  · intro j hj
    have hj : j < 4 := hj
    have hbytes : ∀ j < 4, (exitWorld.dev.disk 2).byte (j % 512) = bitmapByte exitWorld.mem.freeMap j := by decide
    show (exitWorld.dev.disk ((exitWorld.blocksOf (smallData 2 4)).sector (.block (j / 512)))).byte (j % 512) = _
    rw [Nat.div_eq_of_lt (by omega), hsec]
    exact hbytes j hj
  · constructor
    · rintro rfl
      exact ⟨.block 0, (hmap _).mpr ⟨rfl, hsec⟩, hsec⟩
    · rintro ⟨p, hp, rfl⟩
      exact ((hmap p).mp hp).2

/-- The inode of the removed program. -/
def exitProgram : Inode := { sector := 3, openCnt := 1, removed := true, extending := false, denyWriteCnt := 1,
                             data := smallData 4 100 }

theorem exitWorld_deallocatable : Deallocatable exitWorld (fun x => x = 2) exitProgram := by
  have hmap := smallData_map exitWorld 4 100 (by decide) (by decide) (by decide)
  have hlen : exitProgram.data.length = 100 := smallData_length (by decide) (by decide)
  have hsec : ∀ p, MapSlot.InUse (exitWorld.blocksOf exitProgram.data).blocks p →
    (exitWorld.blocksOf exitProgram.data).sector p = 4 :=
    fun p hp => ((hmap p).mp hp).2
  refine ⟨exitWorld_freeMap, rfl, rfl, ⟨?_, ⟨fun p hp => ?_, fun p hp => ?_, fun p q hp hq _ => ?_⟩, by decide,
    fun p hp => ?_⟩, ?_⟩
  · rw [hlen]
    decide
  · rw [hsec p hp]
    decide
  · rw [hsec p hp]
    decide
  · rw [((hmap p).mp hp).1, ((hmap q).mp hq).1]
  · rw [hsec p hp]
    decide
  · rintro x (rfl | ⟨p, hp, rfl⟩)
    · decide
    · rw [hsec p hp]
      decide

/-- The table with one global file, for the empty file. -/
def exitFiles : FilesState where
  procs := fun _ => { fields := fun _ => 0, fds := [{ value := 2, globalFile := 40 }] }
  slots := fun i => if i = 0 then some 40 else none
  heap := fun a => if a = 40 then some { refcount := 1, file := 22 } else none
  files := fun f => f == 22
  status := .running

theorem exitWorld_executable {i : Inode} (hi : exitWorld.ExecutableInode (some 21) i) : i = exitProgram := by
  obtain ⟨f, file, hf, hfile, hcell⟩ := hi
  cases hf
  cases hfile
  exact (Option.some.inj hcell).symm

/-- The program can be closed. -/
theorem exitWorld_closable : Closable exitWorld 21 11 exitProgram true := by
  refine ⟨⟨52, rfl⟩, rfl, by decide, by decide, by decide, ?_⟩
  intro g file hg hfile
  cases hg
  cases hfile
  decide

/-- The process may exit with its descriptor open, or after it is closed. -/
theorem exitWorld_ready (fds : List Descriptor) (hfds : ∀ d ∈ fds, d.globalFile = 40) :
    ExitReady exitWorld exitFiles (some 21) fds where
  executable f hf := by
    cases hf
    exact ⟨11, exitProgram, true, exitWorld_closable⟩
  opened a i hi := by
    simp only [exitWorld] at hi
    split_ifs at hi <;> cases hi <;> decide
  descriptors d hd := ⟨{ refcount := 1, file := 22 }, by simp [exitFiles, hfds d hd], by decide, by decide⟩
  sectors _ i hi _ _ := by
    obtain rfl := exitWorld_executable hi
    refine ⟨?_, _, exitWorld_deallocatable.givable⟩
    rw [show exitProgram.data.length = 100 from smallData_length (by decide) (by decide)]
    decide

/-! ## The exit -/

/-- A process that has no descriptor open when it exits gives everything back, and no other process does. -/
theorem process_exit_ok {w : World} {s : FilesState} {exe : Option Nat} {fds : List Descriptor} (h : ExitReady w s exe fds) :
    (fds = [] → Runs false (processExit exe fds s) (fun _ w' => ExitOk w w' (s.held exe fds)) w) ∧
    ∀ s' w', (processExit exe fds s).run (FsOp.exec false) w = .ok (s', w') → ExitOk w w' (s.held exe fds) → fds = [] := by
  refine ⟨?_, fun s' w' hrun hok => h.not_exitOk hrun hok⟩
  rintro rfl
  exact h.exitOk

/-- With its descriptor closed, the process gives all back: the program's inode goes with its last reference, and its sectors
are free. -/
theorem process_exit_ok_closed : ExitReady exitWorld exitFiles (some 21) [] ∧
    Runs false (processExit (some 21) [] exitFiles) (fun _ w' => ExitOk exitWorld w' [21]) exitWorld := by
  have hready := exitWorld_ready [] (by simp)
  exact ⟨hready, (process_exit_ok hready).1 rfl⟩

/-- With its descriptor open, the process leaves a `struct file` behind, and with it the reference to the empty file's
inode. -/
theorem process_exit_leaks : ExitReady exitWorld exitFiles (some 21) [{ value := 2, globalFile := 40 }] ∧
    Runs false (processExit (some 21) [{ value := 2, globalFile := 40 }] exitFiles)
      (fun _ w' => w'.mem.files 22 = exitWorld.mem.files 22 ∧ w'.mem.inodes 12 = exitWorld.mem.inodes 12 ∧
        ¬ExitOk exitWorld w' (exitFiles.held (some 21) [{ value := 2, globalFile := 40 }])) exitWorld := by
  have hready := exitWorld_ready [{ value := 2, globalFile := 40 }] (by simp)
  refine ⟨hready, ?_⟩
  have hd := exitWorld_deallocatable
  refine (Runs.fileClose exitWorld_closable (fun _ _ => ⟨hd.blocks_le_format, _, hd.givable⟩)).bind
    (fun _ w' hclosed => Runs.pure_iff.mpr ?_)
  have hfile : w'.mem.files 22 = exitWorld.mem.files 22 := hclosed.files 22
  refine ⟨hfile, hclosed.others 12 (by decide), fun hok => ?_⟩
  have hnone := hok.closed 22 (by decide)
  rw [hfile] at hnone
  cases hnone

end Pintos
