import Pintos.Lemmas.Deallocate
import Pintos.Lemmas.GrowRuns

/-!
# Closing inodes and files

`inode_close` counts down. The last closer takes the inode off the list of open ones, puts its data on disk, and, if it is
marked as removed, gives its sectors back before its memory is freed. `file_close` lifts the write denial of the file first,
and frees the file last.
-/

namespace Pintos

open Program

variable {w : World} {E : Nat → Prop} {i : Inode}

/-- The world in which the last opener of an inode has put its data on disk and is about to free it. -/
def World.closing (w : World) (a : Nat) (i : Inode) : World :=
  World.put { w with mem := { w.mem.setInode a (some { i with openCnt := 0 }) with openInodes := w.mem.openInodes.erase a } }
    i.sector i.data

/-- The world with the memory of an inode freed. -/
def World.freeInode (w : World) (a : Nat) : World := { w with mem := w.mem.setInode a none }

/-- What a file holds does not depend on the inode's own sector, so that it is the same when the data are on disk, and can
still be given back. -/
theorem Givable.closing {a : Nat} (hg : Givable w E (i.held w.dev)) (ha : w.NotFreeMap a) :
    i.held (w.closing a i).dev = i.held w.dev ∧ Givable (w.closing a i) E (i.held w.dev) := by
  have hown : i.sector ∈ i.held w.dev := by simp [Inode.held]
  constructor
  · refine congrArg (· ++ [i.sector]) (heldSectors_congr fun x hx => if_neg ?_)
    rintro rfl
    exact List.disjoint_of_nodup_append hg.nodup hx (List.mem_singleton_self _)
  · refine { hg with state := hg.state.frame rfl rfl rfl (fun f file hf hff => ⟨hff, ?_⟩) rfl (fun x hx => if_neg ?_) }
    · exact Fs.setInode_ne _ _ (ha f file hf hff)
    · rintro rfl
      exact hg.apart _ hown hx

namespace Runs

variable {st : Bool} {a : Nat}

/-- An inode that others have open is counted down. -/
theorem inodeClose_shared (hi : w.mem.inodes a = some i) (hcnt : i.openCnt ≠ 1) :
    Runs st (inodeClose (some a))
      (fun _ w' => w' = { w with mem := w.mem.setInode a (some { i with openCnt := i.openCnt - 1 }) }) w := by
  unfold inodeClose
  rw [inode_bind hi]
  simp only
  rw [setInode_bind, if_neg (by omega)]
  exact pure_iff.mpr rfl

section

variable (hi : w.mem.inodes a = some i) (hcnt : i.openCnt = 1)
include hi hcnt

/-- The last closer puts the inode on disk and frees it. -/
theorem inodeClose_last (hsec : i.sector < w.dev.size) (hrem : i.removed = false) :
    Runs st (inodeClose (some a)) (fun _ w' => w' = (w.closing a i).freeInode a) w := by
  unfold inodeClose
  rw [inode_bind hi]
  simp only
  rw [setInode_bind, if_pos (by omega), modify_bind, writeSector_bind (by exact hsec), if_neg (by rw [hrem]; decide), hcnt]
  exact modify_iff.mpr rfl

/-- The last closer of a removed inode runs `deallocate_file` as well. -/
theorem inodeClose_deallocates (hrem : i.removed = true) (hsec : i.sector < w.dev.size)
    {P : World → Prop} (h : Runs st (deallocateFile a) (fun _ w1 => P w1) (w.closing a i)) :
    Runs st (inodeClose (some a)) (fun _ w' => ∃ w1, P w1 ∧ w' = w1.freeInode a) w := by
  unfold inodeClose
  rw [inode_bind hi]
  simp only
  rw [setInode_bind, if_pos (by omega), modify_bind, writeSector_bind (by exact hsec), if_pos hrem, hcnt]
  exact h.bind (fun _ w1 h => modify_iff.mpr ⟨w1, h, rfl⟩)

/-- That gives the sectors of the inode back. -/
theorem inodeClose_removed (hrem : i.removed = true) (hn : bytesToSectors i.data.length ≤ formatBlocks)
    (hg : Givable w E (i.held w.dev)) (ha : w.NotFreeMap a) :
    Runs st (inodeClose (some a))
      (fun _ w' => ∃ w1, Released E (· ∈ i.held w.dev) (w.closing a i) w1 ∧ w' = w1.freeInode a) w := by
  obtain ⟨hheld, hg'⟩ := hg.closing ha
  refine inodeClose_deallocates hi hcnt hrem (hg.inside _ (by simp [Inode.held])) ?_
  rw [← hheld] at hg' ⊢
  exact Givable.deallocateFile (i := { i with openCnt := 0 }) (Fs.setInode_self _ _ _) hn hg'

end

end Runs

/-! ## Files -/

/-- The inode with the write denial of a file lifted. -/
def Inode.lift (i : Inode) (deny : Bool) : Inode := if deny then i.allowWrite else i

theorem Inode.lift_fields (i : Inode) (deny : Bool) :
    (i.lift deny).sector = i.sector ∧ (i.lift deny).openCnt = i.openCnt ∧ (i.lift deny).removed = i.removed ∧
      (i.lift deny).data = i.data ∧ (i.lift deny).denyWriteCnt = i.denyWriteCnt - if deny then 1 else 0 := by
  cases deny <;> simp [Inode.lift, Inode.allowWrite]

/-- What the close of a file leaves: the file is gone, its inode is counted down or gone, and the sectors of a removed inode
that nobody has open any more are free. -/
structure FileClosed (w w' : World) (f a : Nat) (i : Inode) (deny : Bool) : Prop where
  files : ∀ g, w'.mem.files g = if g = f then none else w.mem.files g
  others : ∀ b, b ≠ a → w'.mem.inodes b = w.mem.inodes b
  cell : w'.mem.inodes a = if i.openCnt = 1 then none else some { i.lift deny with openCnt := i.openCnt - 1 }
  bits : ∀ x, w'.mem.freeMap x = true ↔ w.mem.freeMap x = true ∧ ¬(i.openCnt = 1 ∧ i.removed = true ∧ x ∈ i.held w.dev)

/-- A file can be closed: it is there with its inode, the counts of the inode are right, and it is not the free map's. -/
structure Closable (w : World) (f a : Nat) (i : Inode) (deny : Bool) : Prop where
  file : ∃ pos, w.mem.files f = some { inode := a, pos := pos, denyWrite := deny }
  cell : w.mem.inodes a = some i
  denied : deny = true → 0 < i.denyWriteCnt ∧ i.denyWriteCnt ≤ i.openCnt
  sector : i.sector < w.dev.size
  notFreeMap : w.mem.freeMapFile ≠ some f ∧ w.NotFreeMap a

/-- The world with the write denial of a file lifted. -/
def World.lifted (w : World) (f a : Nat) (i : Inode) (deny : Bool) (pos : Int) : World :=
  { w with mem := (w.mem.setFile f (some { inode := a, pos := pos, denyWrite := false })).setInode a (some (i.lift deny)) }

section

variable {f a : Nat} {deny : Bool}

theorem Closable.notFreeMap_lifted (h : Closable w f a i deny) (pos : Int) : (w.lifted f a i deny pos).NotFreeMap a := by
  intro g file hg hfile
  have hne : g ≠ f := fun he => h.notFreeMap.1 (he ▸ hg)
  exact h.notFreeMap.2 g file hg ((Fs.setFile_ne _ _ hne).symm.trans hfile)

/-- What can be given back can be so when the write denial is lifted. -/
theorem Givable.lifted {L : List Nat} (hg : Givable w E L) (h : Closable w f a i deny) (pos : Int) :
    Givable (w.lifted f a i deny pos) E L := by
  refine { hg with state := hg.state.frame rfl rfl rfl (fun g file hg hfile => ⟨?_, ?_⟩) rfl (fun _ _ => rfl) }
  · have hne : g ≠ f := fun he => h.notFreeMap.1 (he ▸ hg)
    exact (Fs.setFile_ne _ _ hne).trans hfile
  · exact Fs.setInode_ne _ _ (h.notFreeMap.2 g file hg hfile)

/-- The last line of `file_close` frees the file. -/
theorem FileClosed.of_lifted {w1 : World} (pos : Int) (hfiles : w1.mem.files = (w.lifted f a i deny pos).mem.files)
    (hothers : ∀ b, b ≠ a → w1.mem.inodes b = (w.lifted f a i deny pos).mem.inodes b)
    (hcell : w1.mem.inodes a = if i.openCnt = 1 then none else some { i.lift deny with openCnt := i.openCnt - 1 })
    (hbits : ∀ x, w1.mem.freeMap x = true ↔ w.mem.freeMap x = true ∧ ¬(i.openCnt = 1 ∧ i.removed = true ∧ x ∈ i.held w.dev)) :
    FileClosed w { w1 with mem := w1.mem.setFile f none } f a i deny where
  files g := by
    by_cases hg : g = f
    · simp [hg]
    · rw [if_neg hg, ← Fs.setFile_ne w.mem (some { inode := a, pos := pos, denyWrite := false }) hg]
      exact (Fs.setFile_ne _ _ hg).trans (congrFun hfiles g)
  others b hb := (hothers b hb).trans (Fs.setInode_ne _ _ hb)
  cell := hcell
  bits := hbits

namespace Runs

variable {st : Bool}

/-- `file_allow_write` lifts the denial, if there is one. -/
theorem fileAllowWrite_bind (h : Closable w f a i deny) {β : Type} {k : Unit → FsM β} {Q : β → World → Prop}
    (hk : ∀ pos, Runs st (k ()) Q (w.lifted f a i deny pos)) : Runs st (fileAllowWrite f >>= k) Q w := by
  obtain ⟨pos, hf⟩ := h.file
  have hk := hk pos
  unfold fileAllowWrite
  rw [bind_assoc, file_bind hf]
  cases deny with
  | false =>
    have heq : w.lifted f a i false pos = w := by
      unfold World.lifted Inode.lift
      rw [Fs.setFile_eq _ hf, if_neg (by decide), Fs.setInode_eq _ h.cell]
    rw [heq] at hk
    exact hk
  | true =>
    obtain ⟨h1, h2⟩ := h.denied rfl
    simp only [if_true]
    rw [bind_assoc, modify_bind]
    unfold inodeAllowWrite
    rw [bind_assoc, inode_bind (by exact h.cell), bind_assoc, assert_bind (decide_eq_true h1), bind_assoc,
      assert_bind (decide_eq_true h2), setInode_bind]
    exact hk

/-- `file_close`: where the file is the last reference to a removed inode, its sectors must be such that they can be given
back. -/
theorem fileClose (h : Closable w f a i deny)
    (hd : i.openCnt = 1 → i.removed = true → bytesToSectors i.data.length ≤ formatBlocks ∧ ∃ E, Givable w E (i.held w.dev)) :
    Runs st (fileClose (some f)) (fun _ w' => FileClosed w w' f a i deny) w := by
  obtain ⟨hsec, hcnt, hrem, hdata, -⟩ := i.lift_fields deny
  refine fileAllowWrite_bind h (fun pos => ?_)
  have hfile : (w.lifted f a i deny pos).mem.files f = some { inode := a, pos := pos, denyWrite := false } :=
    Fs.setFile_self _ _ _
  have hcell : (w.lifted f a i deny pos).mem.inodes a = some (i.lift deny) := Fs.setInode_self _ _ _
  have hheld : (i.lift deny).held w.dev = i.held w.dev := by rw [Inode.held, hsec, hdata, Inode.held]
  rw [file_bind hfile]
  by_cases hlast : i.openCnt = 1
  · cases hr : i.removed with
    | true =>
      obtain ⟨hn, E, hg⟩ := hd hlast hr
      rw [← hheld] at hg
      refine (inodeClose_removed hcell (hcnt.trans hlast) (hrem.trans hr) (hdata ▸ hn) (hg.lifted h pos)
        (h.notFreeMap_lifted pos)).bind ?_
      rintro _ _ ⟨w1, hrel, rfl⟩
      refine modify_iff.mpr (.of_lifted pos ?_ ?_ ?_ ?_)
      · rw [World.freeInode, Fs.setInode, hrel.mem]
        rfl
      · intro b hb
        rw [World.freeInode, Fs.setInode_ne _ _ hb, hrel.mem]
        exact Fs.setInode_ne _ _ hb
      · rw [if_pos hlast]
        exact Fs.setInode_self _ _ _
      · intro x
        simp only [hlast, hr, true_and]
        rw [← hheld]
        exact hrel.bits x
    | false =>
      refine (inodeClose_last hcell (hcnt.trans hlast) (hsec ▸ h.sector) (hrem.trans hr)).bind ?_
      rintro _ _ rfl
      refine modify_iff.mpr (.of_lifted pos rfl ?_ ?_ ?_)
      · intro b hb
        exact (Fs.setInode_ne _ _ hb).trans (Fs.setInode_ne _ _ hb)
      · rw [if_pos hlast]
        exact Fs.setInode_self _ _ _
      · intro x
        simp only [hr, Bool.false_eq_true, false_and, and_false, not_false_eq_true, and_true]
        rfl
  · refine (inodeClose_shared hcell (hcnt ▸ hlast)).bind ?_
    rintro _ _ rfl
    refine modify_iff.mpr (.of_lifted pos rfl ?_ ?_ ?_)
    · intro b hb
      exact Fs.setInode_ne _ _ hb
    · rw [if_neg hlast, ← hcnt]
      exact Fs.setInode_self _ _ _
    · intro x
      simp only [hlast, false_and, not_false_eq_true, and_true]
      rfl

end Runs

end

end Pintos
