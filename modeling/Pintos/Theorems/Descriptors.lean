import Pintos.Userprog.Descriptors

/-!
# When descriptors are handed out as they should be

`syscall_close` sets the mark that it should clear, so that a closed descriptor never becomes available again, and with no
mark free `syscall_open` goes on into the words after the array. Nor are the 1024 places of the table ever cleared.
-/

namespace Pintos

open Process Function

/-- What opening a file promises, in a state. -/
structure OpenOk (s : FdState) (file : Bool) (found addr : Option Nat) (memory : Bool) : Prop where
  /-- A descriptor that is returned is from 2 to 127 and was not open. -/
  range : ∀ fd, (s.syscallOpen file found addr memory).1 = .returned fd → fd ≠ -1 → 2 ≤ fd ∧ fd ≤ 127 ∧ s.proc.isOpen fd = false
  /-- Only elements of `closed_files` are used. -/
  index : file = true → s.proc.nextFd < 128
  /-- The words after `closed_files` stay. -/
  frame : ∀ i, 128 ≤ i → (s.syscallOpen file found addr memory).2.proc.fields i = s.proc.fields i
  /-- A file that is there is opened, if fewer than 126 are open and there is memory. -/
  succeeds : file = true → addr.isSome = true → memory = true → s.proc.fds.length < 126 →
    ∃ fd, (s.syscallOpen file found addr memory).1 = .returned fd ∧ fd ≠ -1

/-- What closing an open descriptor promises. -/
structure CloseOk (p : Process) (fd : Int) : Prop where
  index : fd < 128
  frame : ∀ i, 128 ≤ i → (p.syscallClose fd.toNat).fields i = p.fields i
  /-- The descriptor is available again. -/
  available : (p.syscallClose fd.toNat).fields fd.toNat = 0

/-- What a call promises. -/
def FdOk (s : FdState) : FdAction → Prop
  | .open file found addr memory => OpenOk s file found addr memory
  | .close fd => s.proc.sysClose fd ≠ none → CloseOk s.proc fd
  | .insertGlobal _ => True

/-- A file is opened only while a mark from 2 to 127 is free and, where it could be opened otherwise, the file or a free
place is found in the table; and no open descriptor is closed. -/
def MarkFree (s : FdState) : FdAction → Prop
  | .open file found addr memory => file = true → (∃ i, 2 ≤ i ∧ i < 128 ∧ s.proc.fields i = 0) ∧
    (addr.isSome = true → memory = true → s.proc.fds.length < 126 → found.isSome = true ∨ ∃ i, i < 1024 ∧ s.slots i = none)
  | .close fd => s.proc.isOpen fd = false
  | .insertGlobal _ => True

/-! ## The loop -/

/-- Where the loop stops: all before is marked, and if it has not run out the place is free or past 128. -/
theorem lowestFd_spec (fields : Nat → UInt32) (n fd : Nat) :
    fd ≤ lowestFd fields n fd ∧ (∀ i, fd ≤ i → i < lowestFd fields n fd → fields i ≠ 0) ∧
    (lowestFd fields n fd < fd + n → fields (lowestFd fields n fd) = 0 ∨ 128 < lowestFd fields n fd) := by
  induction n generalizing fd with
  | zero => exact ⟨Nat.le_refl _, fun i h1 h2 => absurd h2 (by simp [lowestFd]; omega), fun h => absurd h (by simp [lowestFd])⟩
  | succ n ih =>
    simp only [lowestFd]
    split
    · rename_i hmark
      obtain ⟨h1, h2, h3⟩ := ih (fd + 1)
      refine ⟨by omega, fun i hi hlt => ?_, fun h => h3 (by omega)⟩
      rcases Nat.eq_or_lt_of_le hi with rfl | hgt
      · exact hmark.1
      · exact h2 i hgt hlt
    · rename_i hmark
      refine ⟨Nat.le_refl _, fun i h1 h2 => by omega, fun _ => ?_⟩
      by_contra h
      obtain ⟨hne, hle⟩ := not_or.mp h
      exact hmark ⟨hne, by omega⟩

variable {p : Process}

/-- With a mark free the loop stops at a free one. -/
theorem nextFd_free {i : Nat} (h2 : 2 ≤ i) (hi : i < 128) (h0 : p.fields i = 0) :
    2 ≤ p.nextFd ∧ p.nextFd ≤ i ∧ p.fields p.nextFd = 0 := by
  obtain ⟨hge, hmarked, hstop⟩ := lowestFd_spec p.fields 127 2
  have hle : p.nextFd ≤ i := by
    by_contra hlt
    exact hmarked i h2 (by unfold nextFd at hlt; omega) h0
  refine ⟨hge, hle, ?_⟩
  rcases hstop (by unfold nextFd at hle; omega) with h | h
  · exact h
  · unfold nextFd at hle
    omega

/-- With no mark free the loop leaves the array. -/
theorem nextFd_full (h : ∀ i, 2 ≤ i → i < 128 → p.fields i ≠ 0) : 128 ≤ p.nextFd := by
  by_contra hlt
  obtain ⟨hge, -, hstop⟩ := lowestFd_spec p.fields 127 2
  unfold nextFd at hlt
  rcases hstop (by omega) with h0 | h128
  · exact h _ hge (by omega) h0
  · omega

/-! ## The calls -/

/-- The process, as long as the calls meet the condition. -/
structure FdInv (p : Process) : Prop where
  magic : p.fields 129 = threadMagic
  /-- Every open descriptor is an element of the array, and marked. -/
  marked : ∀ d ∈ p.fds, 2 ≤ d.value ∧ d.value < 128 ∧ p.fields d.value ≠ 0

theorem isOpen_iff {fd : Int} : p.isOpen fd = true ↔ ∃ d ∈ p.fds, (d.value : Int) = fd := by
  simp [isOpen]

/-- Opening a file with a mark free: the mark is set and, if there is a global file and memory, the descriptor is
returned. -/
theorem syscallOpen_free (hmagic : p.fields 129 = threadMagic) (hlt : p.nextFd < 128) (g : Option Nat) (memory : Bool) :
    (p.syscallOpen true g memory = (.returned (-1), p.mark p.nextFd) ∧ ¬ (g.isSome = true ∧ memory = true)) ∨
    ∃ a, g = some a ∧ memory = true ∧
      p.syscallOpen true g memory =
        (.returned p.nextFd, { p.mark p.nextFd with fds := p.fds ++ [{ value := p.nextFd, globalFile := a }] }) := by
  have hm : update p.fields p.nextFd 1 129 = threadMagic := by
    rw [update_of_ne (by omega), hmagic]
  cases g with
  | none => exact .inl ⟨rfl, by simp⟩
  | some a =>
    cases memory with
    | false => exact .inl ⟨by simp [syscallOpen, hm], by simp⟩
    | true => exact .inr ⟨a, rfl, rfl, by simp [syscallOpen, hm]⟩

theorem FdInv.mark (hi : FdInv p) {fd : Nat} (hlt : fd < 128) : FdInv (p.mark fd) where
  magic := by rw [mark_fields, update_of_ne (by omega), hi.magic]
  marked d hd := by
    obtain ⟨h2, h128, hne⟩ := hi.marked d hd
    refine ⟨h2, h128, ?_⟩
    rcases eq_or_ne d.value fd with heq | hfd
    · rw [mark_fields, heq, update_self]
      decide
    · rwa [mark_fields, update_of_ne hfd]

theorem FdInv.open (hi : FdInv p) (hlt : p.nextFd < 128) (hge : 2 ≤ p.nextFd) (g : Option Nat) (memory : Bool) :
    FdInv (p.syscallOpen true g memory).2 := by
  have hmark := hi.mark hlt
  rcases syscallOpen_free hi.magic hlt g memory with ⟨heq, -⟩ | ⟨a, -, -, heq⟩
  · rw [heq]
    exact hmark
  · rw [heq]
    refine ⟨hmark.magic, List.forall_mem_append.mpr ⟨hmark.marked, List.forall_mem_singleton.mpr ⟨hge, hlt, ?_⟩⟩⟩
    simp

variable {s : FdState} {file memory : Bool} {found addr : Option Nat}

/-- What the table gives to an open: the file found in it, or a new one at a free place. There is no other where `malloc` has
given null for a new one. -/
theorem open_cases (s : FdState) (found addr : Option Nat) (memory : Bool) :
    (addr = none ∧ (s.syscallOpen true found addr memory).2.proc = s.proc.mark s.proc.nextFd ∧
      (s.syscallOpen true found addr memory).1 = .panicked) ∨
    ∃ g, (g.isSome = true ↔ found.isSome = true ∨ ∃ i, i < 1024 ∧ s.slots i = none) ∧
      (s.syscallOpen true found addr memory).1 = (s.proc.syscallOpen true g memory).1 ∧
      (s.syscallOpen true found addr memory).2.proc = (s.proc.syscallOpen true g memory).2 := by
  obtain h | ⟨g, slots, htable, hg⟩ : (addr = none ∧
      (if found.isSome then some (found, s.slots) else insertGlobal s.slots addr) = none) ∨
      ∃ g slots, (if found.isSome then some (found, s.slots) else insertGlobal s.slots addr) = some (g, slots) ∧
        (g.isSome = true ↔ found.isSome = true ∨ ∃ i, i < 1024 ∧ s.slots i = none) := by
    cases found with
    | some a => exact .inr ⟨some a, s.slots, rfl, by simp⟩
    | none =>
      cases hplace : freePlace s.slots with
      | none => exact .inr ⟨none, s.slots, by simp [insertGlobal, hplace], by simpa using freePlace_none hplace⟩
      | some i =>
        cases addr with
        | none => exact .inl ⟨rfl, by simp [insertGlobal, hplace]⟩
        | some a => exact .inr ⟨some a, _, by simp only [insertGlobal, hplace]; rfl, by simpa using ⟨i, freePlace_some hplace⟩⟩
  · exact .inl ⟨h.1, by simp only [FdState.syscallOpen, h.2]; rfl, by simp only [FdState.syscallOpen, h.2]; rfl⟩
  · refine .inr ⟨g, hg, ?_⟩
    simp only [FdState.syscallOpen, htable]
    cases hp : s.proc.syscallOpen true g memory with
    | mk r p => cases r <;> exact ⟨rfl, rfl⟩

/-- The invariant in every state reached under the condition. -/
theorem fd_inv (hr : fdSystem.ReachableIf MarkFree s) : FdInv s.proc := by
  refine hr.invariant (I := fun s => FdInv s.proc) ?_ ?_
  · rintro _ ⟨file, slots, rfl⟩
    exact ⟨rfl, by simp [loaded]⟩
  intro s a s' hi hg h
  cases a with
  | «open» file found addr memory =>
    obtain ⟨-, h⟩ := Option.ite_none_right_eq_some.mp h
    have hopen : FdInv (s.syscallOpen file found addr memory).2.proc := by
      cases file with
      | false => exact hi
      | true =>
        obtain ⟨⟨i, h2, h128, h0⟩, -⟩ := hg rfl
        obtain ⟨hge, hle, -⟩ := nextFd_free h2 h128 h0
        rcases open_cases s found addr memory with ⟨-, heq, -⟩ | ⟨g, -, -, heq⟩
        · exact heq ▸ hi.mark (by omega)
        · exact heq ▸ hi.open (by omega) hge g memory
    split at h
    all_goals
      rename_i heq
      cases h
      rwa [heq] at hopen
  | close fd =>
    obtain ⟨-, h⟩ := Option.ite_none_right_eq_some.mp h
    have hclosed : s.proc.isOpen fd = false := hg
    have hnone : s.proc.sysClose fd = none := by simp [sysClose, hclosed]
    rw [hnone] at h
    cases h
    exact hi
  | insertGlobal addr =>
    obtain ⟨-, h⟩ := Option.ite_none_right_eq_some.mp h
    obtain ⟨r, -, rfl⟩ := Option.map_eq_some_iff.mp h
    exact hi

/-- Opening a file with a mark free does what it promises, if the table has a place. -/
theorem FdInv.openOk (hi : FdInv s.proc) (hfree : MarkFree s (.open file found addr memory)) :
    OpenOk s file found addr memory := by
  cases file with
  | false =>
    refine ⟨fun fd hfd hne => ?_, by simp, fun _ _ => rfl, by simp⟩
    cases hfd
    exact absurd rfl hne
  | true =>
    obtain ⟨⟨i, h2, hi128, h0⟩, hplace⟩ := hfree rfl
    obtain ⟨hge, hle, hzero⟩ := nextFd_free h2 hi128 h0
    have hlt : s.proc.nextFd < 128 := by omega
    -- the free place is no open descriptor's
    have hnew : s.proc.isOpen s.proc.nextFd = false := by
      by_contra h
      obtain ⟨d, hd, heq⟩ := isOpen_iff.mp (by simpa using h)
      have hv : d.value = s.proc.nextFd := by omega
      exact (hi.marked d hd).2.2 (hv ▸ hzero)
    have hframe : ∀ i, 128 ≤ i → (s.proc.mark s.proc.nextFd).fields i = s.proc.fields i := by
      intro i hi128
      rw [mark_fields, update_of_ne (by omega)]
    rcases open_cases s found addr memory with ⟨rfl, heq, hpanic⟩ | ⟨g, hg, hret, heq⟩
    · exact ⟨fun fd hfd => absurd (hpanic.symm.trans hfd) (by simp), fun _ => hlt, by rw [heq]; exact hframe, by simp⟩
    rcases syscallOpen_free hi.magic hlt g memory with ⟨hopen, hfail⟩ | ⟨a, -, -, hopen⟩
    · rw [hopen] at hret heq
      refine ⟨fun fd hfd hne => ?_, fun _ => hlt, by rw [heq]; exact hframe, fun _ ha hm hlen => ?_⟩
      · rw [hret] at hfd
        cases hfd
        exact absurd rfl hne
      · exact absurd ⟨hg.mpr (hplace ha hm hlen), hm⟩ hfail
    · rw [hopen] at hret heq
      refine ⟨fun fd hfd _ => ?_, fun _ => hlt, by rw [heq]; exact hframe, fun _ _ _ _ => ⟨s.proc.nextFd, hret, by omega⟩⟩
      rw [hret] at hfd
      cases hfd
      exact ⟨by omega, by omega, hnew⟩

/-- A call does what it promises just if it meets the condition. -/
theorem FdInv.ok_iff (hi : FdInv s.proc) (a : FdAction) : FdOk s a ↔ MarkFree s a := by
  cases a with
  | «open» file found addr memory =>
    refine ⟨fun hok hfile => ?_, hi.openOk⟩
    have hindex := OpenOk.index hok hfile
    subst hfile
    refine ⟨?_, fun ha hm hlen => ?_⟩
    · by_contra hfull
      have h128 : 128 ≤ s.proc.nextFd := nextFd_full (fun i h2 hi128 h0 => hfull ⟨i, h2, hi128, h0⟩)
      omega
    -- an open that succeeds has got a global file
    obtain ⟨fd, hfd, hne⟩ := OpenOk.succeeds hok rfl ha hm hlen
    rcases open_cases s found addr memory with ⟨-, -, hpanic⟩ | ⟨g, hg, hret, -⟩
    · exact absurd (hpanic.symm.trans hfd) (by simp)
    · refine hg.mp (Option.ne_none_iff_isSome.mp fun hnone => ?_)
      subst hnone
      exact hne (OpenResult.returned.inj (hfd.symm.trans hret))
  | close fd =>
    constructor
    · intro hok
      by_contra hopen
      have hopen : s.proc.isOpen fd = true := by simpa [MarkFree] using hopen
      obtain ⟨d, hd, heq⟩ := isOpen_iff.mp hopen
      have hd2 := hi.marked d hd
      have hsome : s.proc.sysClose fd ≠ none := by
        rw [sysClose, if_neg (by simp [hopen]; omega)]
        simp
      have havail := (hok hsome).available
      simp [syscallClose] at havail
    · intro hclosed hsome
      have hclosed : s.proc.isOpen fd = false := hclosed
      exact absurd (by simp [sysClose, hclosed]) hsome
  | insertGlobal addr => exact .rfl

/-- In every run of opens and closes of a process in which every file is opened while a mark from 2 to 127 and a place of the
table are free, and no open descriptor is closed, every call does what it promises; and a call that misses the condition does
not. -/
theorem descriptors_ok (s : FdState) (hr : fdSystem.ReachableIf MarkFree s) (a : FdAction) : FdOk s a ↔ MarkFree s a :=
  (fd_inv hr).ok_iff a

/-- A file that is not in the table is opened. -/
def openNew (addr : Nat) : FdAction := .open true none (some addr) true

/-- A process that has just been loaded, with nothing in the table. -/
def FdState.loaded : FdState := { proc := .loaded 1, slots := fun _ => none, status := .running }

/-- A process opens a file, another process does, and the first opens one more. -/
theorem descriptors_ok_second : ∃ s, fdSystem.run .loaded [openNew 8, .insertGlobal 16] = some s ∧ FdOk s (openNew 24) ∧
    (s.syscallOpen true none (some 24) true).1 = .returned 3 ∧ (s.syscallOpen true none (some 24) true).2.slots 2 = some 24 := by
  have hfree : MarkFree .loaded (openNew 8) := fun _ => ⟨⟨2, by decide, by decide, rfl⟩, fun _ _ _ => .inr ⟨0, by decide, rfl⟩⟩
  obtain ⟨s, hs, h3, hslot, hmark, hplace⟩ : ∃ s, fdSystem.run .loaded [openNew 8, .insertGlobal 16] = some s ∧
      (s.syscallOpen true none (some 24) true).1 = .returned 3 ∧ (s.syscallOpen true none (some 24) true).2.slots 2 = some 24 ∧
      s.proc.fields 3 = 0 ∧ s.slots 2 = none := by decide +kernel
  have hr : fdSystem.ReachableIf MarkFree s :=
    .run (s := .loaded) (.init ⟨1, _, rfl⟩) [openNew 8, .insertGlobal 16] ⟨hfree, fun _ _ => ⟨trivial, fun _ _ => trivial⟩⟩ hs
  refine ⟨s, hs, (descriptors_ok s hr (openNew 24)).mpr fun _ => ?_, h3, hslot⟩
  exact ⟨⟨3, by decide, by decide, hmark⟩, fun _ _ _ => .inr ⟨2, by decide, hplace⟩⟩

/-- A descriptor that has been closed stays marked; with 126 files open, the next open writes over `magic`; and with all
places of the table taken, a process that has nothing open gets no descriptor. -/
theorem descriptors_run_out :
    (∃ s, fdSystem.Reachable s ∧ s.proc.fds = [] ∧ s.proc.fields 2 = 1) ∧
    (∃ s, fdSystem.Reachable s ∧ s.proc.fds.length = 126 ∧ s.proc.fields 129 = threadMagic ∧
      ∃ s', fdSystem.step s (openNew 8) = some s' ∧ s'.proc.fields 129 = 1 ∧ s'.status = .panicked) ∧
    ∃ s, fdSystem.Reachable s ∧ s.proc.fds = [] ∧ (s.syscallOpen true none (some 8) true).1 = .returned (-1) := by
  refine ⟨?_, ?_, ?_⟩
  · exact Transition.System.exists_reachable (s := .loaded) ⟨1, _, rfl⟩ [openNew 8, .close 2] (by decide +kernel)
  · exact Transition.System.exists_reachable (s := .loaded) ⟨1, _, rfl⟩ (.replicate 126 (openNew 8)) (by decide +kernel)
  · exact ⟨{ FdState.loaded with slots := fun _ => some 8 }, .init ⟨1, _, rfl⟩, rfl, by decide +kernel⟩

end Pintos
