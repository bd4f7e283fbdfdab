import Mathlib.Algebra.BigOperators.Group.Finset.Piecewise
import Mathlib.Algebra.Order.BigOperators.Group.Finset
import Pintos.Userprog.GlobalFiles

/-!
# The table of global files, while nothing is given up

As long as no descriptor is closed, no process exits with open descriptors and no open fails between the table and the list
of descriptors, every descriptor has a global file of its own, and every global file has its place in the table.
-/

namespace Pintos

open List Function

variable {file i pid : Nat} {p : Process} {d : Descriptor} {n : Nat} {s s' : FilesState}

namespace FilesState

/-! ## Looking through the table -/

theorem searchFrom_none (h : ∀ i a, s.slots i = some a → ∃ g, s.heap a = some g ∧ g.file ≠ file) (l : List Nat) :
    s.searchFrom file l = .ok none := by
  induction l with
  | nil => rfl
  | cons i rest ih =>
    simp only [searchFrom]
    cases hs : s.slots i with
    | none => exact ih
    | some a =>
      obtain ⟨g, hg, hne⟩ := h i a hs
      simp only [hg, if_neg hne]
      exact ih

/-- A file that is in the table is found, if every place is live and no other place has the file. -/
theorem searchFrom_found {a : Nat} (hlive : ∀ i b, s.slots i = some b → ∃ g, s.heap b = some g ∧ (g.file = file → b = a))
    {l : List Nat} (h : ∃ i ∈ l, s.slots i = some a) {g : GlobalFile} (hg : s.heap a = some g) (hf : g.file = file) :
    s.searchFrom file l = .ok (some a) := by
  induction l with
  | nil => simp at h
  | cons i rest ih =>
    simp only [searchFrom]
    cases hs : s.slots i with
    | none =>
      obtain ⟨j, hj, hja⟩ := h
      refine ih ⟨j, ?_, hja⟩
      rcases mem_cons.mp hj with rfl | hmem
      · rw [hs] at hja
        cases hja
      · exact hmem
    | some b =>
      obtain ⟨g', hg', himp⟩ := hlive i b hs
      simp only [hg']
      by_cases hfile : g'.file = file
      · rw [if_pos hfile, himp hfile]
      rw [if_neg hfile]
      obtain ⟨j, hj, hja⟩ := h
      refine ih ⟨j, ?_, hja⟩
      rcases mem_cons.mp hj with rfl | hmem
      · rw [hs] at hja
        cases hja
        rw [hg] at hg'
        cases hg'
        exact absurd hf hfile
      · exact hmem

/-! ## Counting -/

/-- The number of pointers depends on the lists of descriptors only. -/
theorem pointers_congr (h : ∀ pid, (s'.procs pid).fds = (s.procs pid).fds) (a : Nat) : s'.pointers n a = s.pointers n a := by
  simp [pointers, h]

/-- A descriptor that is added points to one global file. -/
theorem pointers_push (hpid : pid < n) (hprocs : s'.procs = update s.procs pid p)
    (hfds : p.fds = (s.procs pid).fds ++ [d]) (a : Nat) :
    s'.pointers n a = s.pointers n a + if d.globalFile = a then 1 else 0 := by
  have hterm : ∀ q, (s'.procs q).fds.countP (·.globalFile == a) =
      (s.procs q).fds.countP (·.globalFile == a) + if q = pid then (if d.globalFile = a then 1 else 0) else 0 := by
    intro q
    rw [hprocs]
    rcases eq_or_ne q pid with rfl | hne
    · simp [hfds, countP_append, countP_cons]
    · simp [hne]
  simp only [pointers, hterm, Finset.sum_add_distrib, Finset.sum_ite_eq', Finset.mem_range, hpid, if_true]

theorem pointers_pos (hpid : pid < n) (hd : d ∈ (s.procs pid).fds) : 0 < s.pointers n d.globalFile := by
  refine lt_of_lt_of_le ?_ (Finset.single_le_sum (fun _ _ => Nat.zero_le _) (Finset.mem_range.mpr hpid))
  exact countP_pos_iff.mpr ⟨d, hd, by simp⟩

end FilesState

/-! ## The invariant -/

/-- The state, as long as nothing is given up. -/
structure FilesInv (n : Nat) (s : FilesState) : Prop where
  slotLive : ∀ i a, s.slots i = some a → ∃ g, s.heap a = some g
  slotInj : ∀ i j a, s.slots i = some a → s.slots j = some a → i = j
  inTable : ∀ a g, s.heap a = some g → ∃ i < 1024, s.slots i = some a
  fileLive : ∀ a g, s.heap a = some g → s.files g.file = true
  fileInj : ∀ a b g h, s.heap a = some g → s.heap b = some h → g.file = h.file → a = b
  one : ∀ a g, s.heap a = some g → g.refcount = 1
  count : ∀ a, s.pointers n a = if (s.heap a).isSome then 1 else 0

namespace FilesInv

/-- A step that leaves the table and the lists of descriptors. -/
theorem congr (hi : FilesInv n s) (hslots : s'.slots = s.slots) (hheap : s'.heap = s.heap)
    (hfiles : ∀ f, s.files f = true → s'.files f = true) (hfds : ∀ pid, (s'.procs pid).fds = (s.procs pid).fds) :
    FilesInv n s' := by
  constructor
  · rw [hslots, hheap]
    exact hi.slotLive
  · rw [hslots]
    exact hi.slotInj
  · rw [hslots, hheap]
    exact hi.inTable
  · rw [hheap]
    exact fun a g hg => hfiles _ (hi.fileLive a g hg)
  · rw [hheap]
    exact hi.fileInj
  · rw [hheap]
    exact hi.one
  · intro a
    rw [FilesState.pointers_congr hfds, hheap]
    exact hi.count a

/-- A new file gets a place, a global file and a descriptor. -/
theorem insert (hi : FilesInv n s) {a : Nat} (hlt : i < 1024) (hfree : s.slots i = none)
    (hnew : s.heap a = none) (hfile : s.files file = false) (hpid : pid < n) (hslots : s'.slots = update s.slots i (some a))
    (hheap : s'.heap = update s.heap a (some { refcount := 1, file := file }))
    (hfiles : s'.files = update s.files file true) (hprocs : s'.procs = update s.procs pid p)
    (hfds : p.fds = (s.procs pid).fds ++ [d]) (hd : d.globalFile = a) : FilesInv n s' := by
  -- no place of the table pointed to the new global file
  have hnot : ∀ j, s.slots j ≠ some a := by
    intro j hj
    obtain ⟨g, hg⟩ := hi.slotLive j a hj
    rw [hnew] at hg
    cases hg
  have hold : ∀ b g, s.heap b = some g → g.file ≠ file := by
    rintro b g hg rfl
    rw [hi.fileLive b g hg] at hfile
    cases hfile
  constructor
  · intro j b hj
    rw [hslots, update_apply] at hj
    rw [hheap, update_apply]
    grind [hi.slotLive]
  · intro j k b hj hk
    rw [hslots, update_apply] at hj hk
    grind [hi.slotInj]
  · intro b g hg
    rw [hheap, update_apply] at hg
    rw [hslots]
    split at hg
    · rename_i hb
      exact ⟨i, hlt, by rw [update_self, hb]⟩
    · obtain ⟨j, hj, hjb⟩ := hi.inTable b g hg
      refine ⟨j, hj, ?_⟩
      rw [update_of_ne (by rintro rfl; rw [hfree] at hjb; cases hjb), hjb]
  · intro b g hg
    rw [hheap, update_apply] at hg
    rw [hfiles, update_apply]
    grind [hi.fileLive]
  · intro b c g h hg hh
    rw [hheap, update_apply] at hg hh
    grind [hi.fileInj]
  · intro b g hg
    rw [hheap, update_apply] at hg
    grind [hi.one]
  · intro b
    have hc := hi.count b
    rw [FilesState.pointers_push hpid hprocs hfds, hd, hc, hheap, update_apply]
    rcases eq_or_ne b a with rfl | hne
    · simp [hnew]
    · simp [hne, hne.symm]

end FilesInv

end Pintos
