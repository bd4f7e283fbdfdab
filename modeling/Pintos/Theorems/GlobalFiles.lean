import Pintos.Lemmas.GlobalFiles

/-!
# When the table of global files is what it should be

`delete_global` frees a global file and leaves its place in the table as it is. So every close of an open descriptor, and
every exit of a process that has one, leaves a pointer to a freed object in the table. The table is right exactly as long as
neither happens, and no open fails after it has made a global file.
-/

namespace Pintos

open FilesState Function Option

/-- What the table promises, in a state of `n` processes. -/
structure GlobalFilesOk (n : Nat) (s : FilesState) : Prop where
  /-- Every pointer in the table is to a live global file. -/
  live : ∀ i a, i < 1024 → s.slots i = some a → ∃ g, s.heap a = some g
  /-- No two places hold the same file. -/
  distinct : ∀ i j a b g h, i < 1024 → j < 1024 → s.slots i = some a → s.slots j = some b → s.heap a = some g →
    s.heap b = some h → g.file = h.file → i = j
  /-- The count of a global file is the number of descriptors that point to it. -/
  count : ∀ i a g, i < 1024 → s.slots i = some a → s.heap a = some g → g.refcount = s.pointers n a
  /-- A global file is live just as long as a descriptor points to it. -/
  freed : ∀ a, (s.heap a).isSome = true ↔ 0 < s.pointers n a
  /-- While fewer than 1024 files are open there is a place free. -/
  free : (∀ l : List Nat, l.Nodup → (∀ a ∈ l, 0 < s.pointers n a) → l.length < 1024) → s.freeSlot ≠ none

/-- No open descriptor is closed, no process exits with one, and no open that has made a global file fails to make the
descriptor. -/
def NothingGivenUp (s : FilesState) : FilesAction → Prop
  | .open pid _ addr memory => s.freeSlot ≠ none → addr ≠ none → s.intact pid = true → memory = true
  | .close _ _ => False
  | .exit pid => (s.procs pid).fds = []

/-- The state in which one more file is open. -/
abbrev FilesState.opened (s : FilesState) (file : Nat) : FilesState := { s with files := update s.files file true }

section Steps

variable {n : Nat} {s s' : FilesState}

/-! ## Opening -/

/-- An open that gets no global file only sets the mark. -/
theorem finishOpen_none (s : FilesState) (pid : Nat) (memory : Bool) :
    s.finishOpen pid none memory = { s with procs := update s.procs pid ((s.procs pid).mark (s.procs pid).nextFd) } := rfl

variable {a file pid : Nat}

/-- An open that has a global file sets the mark and, if there is memory, adds a descriptor. -/
theorem finishOpen_some (memory : Bool) (h : s.intact pid = true) : s.finishOpen pid (some a) memory =
      { s with
        procs := update s.procs pid
          (if memory then { (s.procs pid).mark (s.procs pid).nextFd with fds := (s.procs
            pid).fds ++ [{ value := (s.procs pid).nextFd, globalFile := a }] }
          else (s.procs pid).mark (s.procs pid).nextFd) } := by
  have hm : update (s.procs pid).fields (s.procs pid).nextFd 1 129 = threadMagic := by simpa [intact] using h
  cases memory <;> simp [finishOpen, Process.syscallOpen, hm]

theorem mark_fds_congr (s : FilesState) (pid fd q : Nat) :
    (update s.procs pid ((s.procs pid).mark fd) q).fds = (s.procs q).fds := by
  rcases eq_or_ne q pid with rfl | hne
  · rw [update_self, Process.mark_fds]
  · rw [update_of_ne hne]

section

variable (hi : FilesInv n s)
include hi

/-- What an open does: it stops early and changes no list and no place of the table, or it makes a global file. -/
theorem FilesInv.open_cases (pid : Nat) (addr : Option Nat) (memory : Bool) (hfile : s.files file = false) :
    (¬ (s.freeSlot ≠ none ∧ addr ≠ none ∧ s.intact pid = true) ∧ FilesInv n (s.syscallOpen pid file addr memory)) ∨
    ∃ i a, s.freeSlot = some i ∧ addr = some a ∧ s.intact pid = true ∧
      s.syscallOpen pid file addr memory = ((s.opened file).insertAt i a file).finishOpen pid (some a) memory := by
  have hsearch : (s.opened file).searchGlobal file = .ok none := by
    unfold searchGlobal
    refine searchFrom_none (fun i a hs => ?_) _
    obtain ⟨g, hg⟩ := hi.slotLive i a hs
    refine ⟨g, hg, ?_⟩
    rintro rfl
    rw [hi.fileLive a g hg] at hfile
    cases hfile
  have hfiles : ∀ f, s.files f = true → update s.files file true f = true := by
    intro f hf
    rw [update_apply]
    split <;> simp_all
  have hfree : (s.opened file).freeSlot = s.freeSlot := rfl
  cases hslot : s.freeSlot with
  | none =>
    refine .inl ⟨by simp, ?_⟩
    have heq : s.syscallOpen pid file addr memory = (s.opened file).finishOpen pid none memory := by
      simp only [syscallOpen, hsearch]
      rw [hfree, hslot]
    rw [heq, finishOpen_none]
    exact hi.congr rfl rfl hfiles (mark_fds_congr s pid _)
  | some i =>
    cases addr with
    | none =>
      refine .inl ⟨by simp, ?_⟩
      have heq : s.syscallOpen pid file none memory = { s.opened file with status := .panicked } := by
        simp only [syscallOpen, hsearch]
        rw [hfree, hslot]
      rw [heq]
      exact hi.congr rfl rfl hfiles (fun _ => rfl)
    | some a =>
      have heq : s.syscallOpen pid file (some a) memory =
          if s.intact pid then ((s.opened file).insertAt i a file).finishOpen pid (some a) memory
          else { s.opened file with status := .panicked } := by
        simp only [syscallOpen, hsearch]
        rw [hfree, hslot]
        rfl
      cases hint : s.intact pid with
      | false =>
        refine .inl ⟨by simp, ?_⟩
        simp only [heq, hint, Bool.false_eq_true, if_false]
        exact hi.congr rfl rfl hfiles (fun _ => rfl)
      | true => exact .inr ⟨i, a, rfl, rfl, rfl, by simp only [heq, hint, if_true]⟩

/-- An open that has memory for its descriptor keeps the invariant. -/
theorem FilesInv.open {addr : Option Nat} (memory : Bool) (hpid : pid < n) (hfile : s.files file = false)
    (hnew : (addr.bind s.heap).isNone = true)
    (hmem : s.freeSlot ≠ none → addr ≠ none → s.intact pid = true → memory = true) :
    FilesInv n (s.syscallOpen pid file addr memory) := by
  rcases hi.open_cases pid addr memory hfile with ⟨-, h⟩ | ⟨i, a, hslot, rfl, hint, heq⟩
  · exact h
  have hm : memory = true := hmem (by simp [hslot]) (by simp) hint
  obtain ⟨hlt, hfree⟩ := freePlace_some hslot
  have hint' : ((s.opened file).insertAt i a file).intact pid = true := hint
  rw [heq, finishOpen_some memory hint', hm, if_pos rfl]
  exact hi.insert hlt hfree (by simpa using hnew) hfile hpid rfl rfl rfl rfl rfl rfl

/-- An open that makes a global file and then finds no memory leaves one that no descriptor points to. -/
theorem FilesInv.open_needed {addr : Option Nat} {memory : Bool} (hfile : s.files file = false)
    (hnew : (addr.bind s.heap).isNone = true) (hok : GlobalFilesOk n (s.syscallOpen pid file addr memory)) :
    s.freeSlot ≠ none → addr ≠ none → s.intact pid = true → memory = true := by
  intro h1 h2 h3
  rcases hi.open_cases pid addr memory hfile with ⟨hnot, -⟩ | ⟨i, a, hslot, rfl, hint, heq⟩
  · exact absurd ⟨h1, h2, h3⟩ hnot
  by_contra hm
  have hm : memory = false := by simpa using hm
  have hnone : s.heap a = none := by simpa using hnew
  have hint' : ((s.opened file).insertAt i a file).intact pid = true := hint
  rw [heq, finishOpen_some memory hint', hm, if_neg (by simp)] at hok
  have hcount := hok.count i a { refcount := 1, file := file } (freePlace_some hslot).1 (by simp [insertAt])
    (by simp [insertAt])
  rw [pointers_congr (s := s) (mark_fds_congr _ pid _), hi.count a, hnone] at hcount
  simp at hcount

/-! ## Giving up a descriptor -/

/-- A global file that has one pointer is freed, and the table stays. -/
theorem FilesInv.deleteGlobal (s' : FilesState) {g : GlobalFile} (hg : s.heap a = some g) (hslots : s'.slots = s.slots)
    (hheap : s'.heap = s.heap) : (s'.deleteGlobal g.file).heap a = none ∧ (s'.deleteGlobal g.file).slots = s.slots := by
  have hsearch : s'.searchGlobal g.file = .ok (some a) := by
    obtain ⟨i, hlt, hsi⟩ := hi.inTable a g hg
    unfold FilesState.searchGlobal
    refine FilesState.searchFrom_found (fun j b hj => ?_) ⟨i, List.mem_range.mpr hlt, by rw [hslots, hsi]⟩ (by rw [hheap, hg]) rfl
    rw [hslots] at hj
    rw [hheap]
    obtain ⟨h, hh⟩ := hi.slotLive j b hj
    exact ⟨h, hh, hi.fileInj b a h g hh hg⟩
  simp [FilesState.deleteGlobal, hsearch, hheap, hg, hi.one a g hg, hslots]

end

/-- `delete_global` makes no global file and leaves the table. -/
theorem deleteGlobal_keeps (s : FilesState) (file : Nat) (ha : s.heap a = none) :
    (s.deleteGlobal file).heap a = none ∧ (s.deleteGlobal file).slots = s.slots := by
  unfold deleteGlobal
  split
  · exact ⟨ha, rfl⟩
  · exact ⟨ha, rfl⟩
  rename_i b hb
  split
  · exact ⟨ha, rfl⟩
  rename_i g hg
  have hne : a ≠ b := by
    rintro rfl
    rw [ha] at hg
    cases hg
  split
  · exact ⟨by simp [update_of_ne hne, ha], rfl⟩
  · split
    · exact ⟨by simp [update_of_ne hne, ha], rfl⟩
    · exact ⟨ha, rfl⟩

/-- `free_thread` makes no global file and leaves the table. -/
theorem freeThread_keeps (ds : List Descriptor) (s : FilesState) (ha : s.heap a = none) :
    (s.freeThread ds).heap a = none ∧ (s.freeThread ds).slots = s.slots := by
  induction ds generalizing s with
  | nil => exact ⟨ha, rfl⟩
  | cons d rest ih =>
    simp only [freeThread]
    split
    · exact ⟨ha, rfl⟩
    · rename_i g hg
      obtain ⟨h1, h2⟩ := deleteGlobal_keeps s g.file ha
      obtain ⟨h3, h4⟩ := ih _ h1
      exact ⟨h3, h4.trans h2⟩

section

variable (hi : FilesInv n s)
include hi

/-- A place in the table whose global file has been freed breaks the promise. -/
theorem not_globalFilesOk {g : GlobalFile} (hg : s.heap a = some g) (hheap : s'.heap a = none)
    (hslots : s'.slots = s.slots) : ¬ GlobalFilesOk n s' := by
  intro hok
  obtain ⟨i, hlt, hsi⟩ := hi.inTable a g hg
  obtain ⟨h, hh⟩ := hok.live i a hlt (by rw [hslots, hsi])
  rw [hheap] at hh
  cases hh

theorem FilesInv.descriptor {d : Descriptor} (hpid : pid < n) (hd : d ∈ (s.procs pid).fds) :
    ∃ g, s.heap d.globalFile = some g := by
  have hpos := pointers_pos hpid hd
  rw [hi.count d.globalFile] at hpos
  refine isSome_iff_exists.mp ?_
  by_contra h
  simp [h] at hpos

/-- Every close of an open descriptor leaves a pointer to a freed global file. -/
theorem FilesInv.close_breaks {d : Descriptor} (hpid : pid < n) (hd : d ∈ (s.procs pid).fds) :
    ¬ GlobalFilesOk n (s.syscallClose pid d) := by
  obtain ⟨g, hg⟩ := hi.descriptor hpid hd
  have hdel := hi.deleteGlobal { s with procs := update s.procs pid ((s.procs pid).syscallClose d.value) } hg rfl rfl
  refine not_globalFilesOk hi hg ?_ ?_
  · simp only [syscallClose, hg]
    exact hdel.1
  · simp only [syscallClose, hg]
    exact hdel.2

/-- So does every exit of a process that has an open descriptor. -/
theorem FilesInv.exit_breaks (hpid : pid < n) (hne : (s.procs pid).fds ≠ []) : ¬ GlobalFilesOk n (s.exitProcess pid) := by
  obtain ⟨d, rest, hfds⟩ := List.exists_cons_of_ne_nil hne
  obtain ⟨g, hg⟩ := hi.descriptor hpid (d := d) (by simp [hfds])
  obtain ⟨hnone, hslots⟩ := hi.deleteGlobal s hg rfl rfl
  obtain ⟨hnone', hslots'⟩ := freeThread_keeps rest _ hnone
  refine not_globalFilesOk hi hg ?_ ?_
  · simp only [exitProcess, hfds, freeThread, hg]
    exact hnone'
  · simp only [exitProcess, hfds, freeThread, hg]
    exact hslots'.trans hslots

/-- The exit of a process that has no open descriptor keeps the invariant. -/
theorem FilesInv.exit (hfds : (s.procs pid).fds = []) : FilesInv n (s.exitProcess pid) := by
  simp only [exitProcess, hfds, freeThread]
  refine hi.congr rfl rfl (fun _ h => h) (fun q => ?_)
  rcases eq_or_ne q pid with rfl | hne
  · simp [Process.loaded, hfds]
  · simp [update_of_ne hne]

/-! ## Runs -/

/-- The invariant gives what the table promises. -/
theorem FilesInv.ok : GlobalFilesOk n s where
  live i a _ hs := hi.slotLive i a hs
  distinct i j a b g h _ _ hsi hsj hg hh hf := by
    have hab := hi.fileInj a b g h hg hh hf
    exact hi.slotInj i j a hsi (hab ▸ hsj)
  count i a g _ _ hg := by rw [hi.one a g hg, hi.count a, hg, isSome_some, if_pos rfl]
  freed a := by
    rw [hi.count a]
    cases s.heap a <;> simp
  free hfew := by
    intro hnone
    have htaken := fun i (hi' : i < 1024) => Option.ne_none_iff_exists'.mp fun h => freePlace_none hnone ⟨i, hi', h⟩
    -- the addresses in the 1024 places are those of as many open files
    have hlt := hfew ((List.range 1024).map (fun i => (s.slots i).getD 0)) ?_ ?_
    · simp at hlt
    · refine List.Nodup.map_on (fun i hi1 j hj1 heq => ?_) List.nodup_range
      obtain ⟨a, ha⟩ := htaken i (List.mem_range.mp hi1)
      obtain ⟨b, hb⟩ := htaken j (List.mem_range.mp hj1)
      rw [ha, hb] at heq
      cases heq
      exact hi.slotInj i j a ha hb
    · intro a ha
      obtain ⟨i, hi1, rfl⟩ := List.mem_map.mp ha
      obtain ⟨b, hb⟩ := htaken i (List.mem_range.mp hi1)
      obtain ⟨g, hg⟩ := hi.slotLive i b hb
      rw [hb, getD_some, hi.count b, hg]
      simp

/-- After a step the table is right just if the step meets the condition. -/
theorem FilesInv.step_iff {a : FilesAction} (h : step n s a = some s') :
    (GlobalFilesOk n s' ↔ NothingGivenUp s a) ∧ (NothingGivenUp s a → FilesInv n s') := by
  cases a with
  | «open» pid file addr memory =>
    obtain ⟨⟨-, hpid, hfile, hnew⟩, h⟩ := ite_none_right_eq_some.mp h
    cases h
    have hinv := hi.open memory hpid hfile hnew
    exact ⟨⟨hi.open_needed hfile hnew, fun hmem => (hinv hmem).ok⟩, hinv⟩
  | close pid fd =>
    obtain ⟨⟨-, hpid⟩, h⟩ := ite_none_right_eq_some.mp h
    obtain ⟨d, hd, rfl⟩ := map_eq_some_iff.mp h
    exact ⟨⟨fun hok => hi.close_breaks hpid (List.mem_of_find?_eq_some hd) hok, False.elim⟩, False.elim⟩
  | exit pid =>
    obtain ⟨⟨-, hpid⟩, h⟩ := ite_none_right_eq_some.mp h
    cases h
    refine ⟨⟨fun hok => ?_, fun hfds => (hi.exit hfds).ok⟩, hi.exit⟩
    by_contra hne
    exact hi.exit_breaks hpid hne hok

end

/-- The invariant in every state reached under the condition. -/
theorem files_inv (hr : (filesSystem n).ReachableIf NothingGivenUp s) : FilesInv n s := by
  refine hr.invariant ?_ (fun _ _ _ hi hg h => (hi.step_iff h).2 hg)
  rintro _ rfl
  constructor <;> simp [start, pointers, Process.loaded]

end Steps

/-- In every run of any processes in which no open descriptor is closed, no process exits with one and no open fails after it
has made a global file, the table is what it should be; and a step that misses the condition leaves it wrong. -/
theorem global_files_ok (n : Nat) (s : FilesState) (hr : (filesSystem n).ReachableIf NothingGivenUp s) :
    GlobalFilesOk n s ∧ ∀ a s', step n s a = some s' → (GlobalFilesOk n s' ↔ NothingGivenUp s a) :=
  ⟨(files_inv hr).ok, fun _ _ h => ((files_inv hr).step_iff h).1⟩

/-- Two processes open a file each. -/
theorem global_files_ok_two :
    ∃ s, (filesSystem 2).run start [.open 0 100 (some 8) true, .open 1 200 (some 16) true] = some s ∧ GlobalFilesOk 2 s ∧
      s.slots 0 = some 8 ∧ s.slots 1 = some 16 := by
  refine Transition.System.exists_run rfl ?_ (fun s hr => (global_files_ok 2 s hr).1) (by decide +kernel)
  exact ⟨fun _ _ _ => rfl, fun _ _ => ⟨fun _ _ _ => rfl, fun _ _ => trivial⟩⟩

/-- A process opens a file and closes it: the table still points to the global file, which has been freed. When it opens
another, the table is searched, and the freed object is used. -/
theorem global_files_dangle :
    (∃ s, (filesSystem 1).Reachable s ∧ s.slots 0 = some 8 ∧ s.heap 8 = none ∧ (s.procs 0).fds = []) ∧
    ∃ s, (filesSystem 1).Reachable s ∧ s.status = .badAccess := by
  constructor
  · exact Transition.System.exists_reachable rfl [.open 0 100 (some 8) true, .close 0 2] (by decide +kernel)
  · exact Transition.System.exists_reachable rfl [.open 0 100 (some 8) true, .close 0 2, .open 0 200 (some 16) true]
      (by decide +kernel)

end Pintos
