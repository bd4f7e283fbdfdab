import Pintos.Lemmas.Acquired
import Pintos.Lemmas.StoreRuns
import Pintos.Theorems.ProcessExit

/-!
# A file that is removed gives back what its creation took (`filesys/inode.c`, `filesys/free-map.c`)

`allocate_file` and `deallocate_file` are two loops over three levels, written apart. They count the blocks of each level in
the same way, also where `byte_to_sector` no longer follows, so that what is given back is what was taken, for every length
that the on-disk format has room for.
-/

namespace Pintos

open Program List

variable {w : World} {length : Int} {E : Nat → Prop} {s : Nat} {d : InodeDisk} {T : List Nat}

/-- A program calls `free_map_release` for the sectors of a list, one after the other, and does nothing besides. -/
def Releases (p : FsM Unit) (L : List Nat) (w : World) : Prop :=
  ∀ Q : Unit → World → Prop, Runs false p Q w ↔ Runs false (releaseAll L) Q w

/-- A mounted file system: the free map has a file, in the sectors `E`, it is as large as the device, and the sectors of its
file and of the inodes in memory are marked. -/
structure Mounted (w : World) (E : Nat → Prop) : Prop extends FreeMapWhole w E where
  mapFile : w.mem.freeMapFile.isSome = true
  inodes : ∀ a i, w.mem.inodes a = some i → w.mem.freeMap i.sector = true
  old : ∀ f file, w.mem.freeMapFile = some f → w.mem.files f = some file → file.inode < w.mem.nextAddr

/-- That is so in every state that the calls of the file system lead to. -/
theorem Store.mounted {g : Ghost} (h : Store g w) : Mounted w g.E where
  toFreeMapWhole := h.freeMapWhole
  mapFile := by
    obtain ⟨f, -, -, -, -, hf, -⟩ := h.mem.freeMap
    rw [hf]
    rfl
  inodes a i hi := by
    refine (h.disk.used _).mpr (.inl ?_)
    by_cases hs : i.sector = freeMapSector
    · exact .inl hs
    · exact .inr (.inr ⟨_, _, (h.mem.obj a i hi hs).1, .inl rfl⟩)
  old f file hf hfile := by
    obtain ⟨f', a, i, pos, -, hf', hfile', hi, -⟩ := h.mem.freeMap
    cases hf'.symm.trans hf
    cases hfile'.symm.trans hfile
    exact (h.mem.cell a i hi).1

/-- A file has been made in the sector `s`: its inode, with the data `d`, is on disk, and the sectors `T` that it holds have
been taken. -/
structure MadeFile (w v : World) (E : Nat → Prop) (s : Nat) (d : InodeDisk) (T : List Nat) : Prop where
  mem : ∃ c n, v.mem = { w.mem with nextAddr := n, diskInode := c, freeMap := v.mem.freeMap } ∧ w.mem.nextAddr ≤ n
  size : v.dev.size = w.dev.size
  state : FreeMapState v E
  data : v.dev.disk s = d
  nodup : T.Nodup
  fresh : ∀ x ∈ T, x < w.dev.size ∧ w.mem.freeMap x = false
  used : ∀ x, v.mem.freeMap x = true ↔ w.mem.freeMap x = true ∨ x ∈ T
  held : T.Perm (heldSectors v.dev d (bytesToSectors d.length))

/-- The length of a file is no part of its pointers. -/
theorem heldSectors_setLength (dev : Block) (d : InodeDisk) (length : Int) (n : Nat) :
    heldSectors dev (d.setLength length) n = heldSectors dev d n := by
  have hdirect : (d.setLength length).directPtr = d.directPtr := funext (InodeDisk.directPtr_setLength d length)
  simp only [heldSectors, singlySectors, doublySectors, hdirect, InodeDisk.singlyIndirectPtr_setLength,
    InodeDisk.doublyIndirectPtr_setLength]

/-- The world in which `inode_create` has got memory for a blank `struct inode_disk`. -/
def World.blank (w : World) : World :=
  { mem := { w.mem with nextAddr := w.mem.nextAddr + 1, diskInode := blankInode }, dev := w.dev, heap := fun n => w.heap (n + 1) }

/-- `inode_create` for any length that the format has room for. -/
theorem Runs.inodeCreate_made {st : Bool} (hfm : FreeMapWhole w E) (hs : s < w.dev.size ∧ w.mem.freeMap s = true ∧ ¬E s)
    (h0 : 0 ≤ length) (h1 : length ≤ formatBytes) :
    Runs st (Pintos.inodeCreate s length) (fun r v => r = true → ∃ d T, d.length = length ∧ MadeFile w v E s d T) w := by
  have hbytes : formatBytes = 8517120 := rfl
  have hacq : Acquired (w.blank.blocksOf blankInode) E [] (w.blank.blocksOf blankInode) :=
    .start hfm.numbered hfm.marked blankInode_length
  have hblank : FreeMapState w.blank E := hfm.state.frame rfl rfl rfl (fun _ _ _ hf => ⟨hf, rfl⟩) rfl (fun _ _ => rfl)
  unfold Pintos.inodeCreate
  rw [assert_bind (decide_eq_true h0)]
  refine malloc_either (fun _ => pure_iff.mpr nofun) ?_
  rw [modify_bind]
  have hgrow : Runs st _ _ w.blank := onBlocks_safe (w := w.blank)
    .fresh trivial hfm.whole hblank (hacq.safe_allocateBlocks (bytesToSectors_le h0 h1))
  refine hgrow.bind ?_
  rintro (_ | _) v ⟨hgrowing, hpost⟩
  · exact pure_iff.mpr nofun
  obtain ⟨T, htaken, hperm⟩ := hpost rfl
  refine (dataRef_modify .fresh nofun _).bind ?_
  rintro _ _ rfl
  refine bind_eq (dataRef_get .fresh nofun) ?_
  rw [writeSector_bind (by show s < v.dev.size; rw [hgrowing.size]; exact hs.1)]
  have hlen : (v.mem.diskInode.setLength length).length = length := InodeDisk.length_setLength _ (by omega) (by omega)
  -- the inode's own sector is in use, so that it is none of those just taken
  have hnot : s ∉ T := fun hT => Bool.false_ne_true ((htaken.fresh s hT).2.symm.trans hs.2.1)
  refine pure_iff.mpr (fun _ => ⟨v.mem.diskInode.setLength length, T, hlen, ?_⟩)
  refine { htaken with mem := ?_, size := ?_, state := ?_, data := ?_, held := ?_ }
  · obtain ⟨e, hmem⟩ := hgrowing.mem
    refine ⟨v.mem.diskInode.setLength length, w.mem.nextAddr + 1, ?_, Nat.le_succ _⟩
    rw [hmem]
    rfl
  · exact hgrowing.size
  · refine hgrowing.state.frame rfl rfl rfl (fun _ _ _ hf => ⟨hf, rfl⟩) rfl (fun x hx => if_neg ?_)
    rintro rfl
    exact hs.2.2 hx
  · exact if_pos rfl
  have hheld : heldSectors v.dev (v.mem.diskInode.setLength length) (bytesToSectors length) =
      heldSectors v.dev v.mem.diskInode (bytesToSectors length) := heldSectors_setLength _ _ _ _
  rw [hlen]
  refine hperm.trans (.of_eq (hheld.symm.trans (heldSectors_congr (fun x hx => if_neg ?_)).symm))
  rintro rfl
  rw [hheld] at hx
  exact hnot (hperm.mem_iff.mpr hx)

/-- The inode that has been opened, and marked as removed. -/
def removedInode (s : Nat) (d : InodeDisk) : Inode :=
  { sector := s, openCnt := 1, removed := true, extending := false, denyWriteCnt := 0, data := d }

/-- The file that has been made is open and marked as removed, at the address `a`. -/
structure OpenRemoved (w v u : World) (E : Nat → Prop) (s a : Nat) (d : InodeDisk) : Prop where
  cell : u.mem.inodes a = some (removedInode s d)
  notFreeMap : u.NotFreeMap a
  state : FreeMapState u E
  dev : u.dev = v.dev
  bits : u.mem.freeMap = v.mem.freeMap
  mapFile : u.mem.freeMapFile = w.mem.freeMapFile
  bitCnt : u.mem.bitCnt = w.mem.bitCnt

/-- `inode_open` and `inode_remove` of the file that has been made. -/
theorem MadeFile.openRemoved {v : World} (h : MadeFile w v E s d T) (hs : s < w.dev.size) (hclosed : w.mem.findOpen s = none)
    (hold : ∀ f file, w.mem.freeMapFile = some f → w.mem.files f = some file → file.inode < w.mem.nextAddr) :
    Runs false (do
        match ← inodeOpen s with
        | none => pure none
        | some a =>
          inodeRemove a
          pure (some a))
      (fun r u => ∀ a, r = some a → OpenRemoved w v u E s a d) v := by
  obtain ⟨c, n, hmem, hn⟩ := h.mem
  have hfind : v.mem.findOpen s = none := by
    rw [hmem]
    exact hclosed
  have hfresh : ∀ f file, v.mem.freeMapFile = some f → v.mem.files f = some file → file.inode ≠ v.mem.nextAddr := by
    intro f file hf hfile
    rw [hmem] at hf hfile ⊢
    exact Nat.ne_of_lt (Nat.lt_of_lt_of_le (hold f file hf hfile) hn)
  unfold inodeOpen
  rw [bind_assoc, Runs.get_bind, hfind]
  rw [bind_assoc]
  refine Runs.malloc_either (fun _ => Runs.pure_iff.mpr nofun) ?_
  simp only [bind_assoc, pure_bind]
  rw [Runs.modify_bind, Runs.readSector_bind (by show s < v.dev.size; rw [h.size]; exact hs), Runs.setInode_bind]
  unfold inodeRemove
  rw [Runs.modifyInode_bind (Fs.setInode_self _ _ _)]
  refine Runs.pure_iff.mpr (fun a ha => ?_)
  cases ha
  refine ⟨?_, hfresh, ?_, rfl, rfl, ?_, ?_⟩
  · refine (Fs.setInode_self _ _ _).trans ?_
    rw [removedInode, ← h.data]
  · refine h.state.frame rfl rfl rfl (fun f file hf hfile => ⟨hfile, ?_⟩) rfl (fun _ _ => rfl)
    exact (Fs.setInode_ne _ _ (hfresh f file hf hfile)).trans (Fs.setInode_ne _ _ (hfresh f file hf hfile))
  · show v.mem.freeMapFile = _
    rw [hmem]
  · show v.mem.bitCnt = _
    rw [hmem]

/-- What such a file holds can be given back. -/
theorem MadeFile.givable {v u : World} {a : Nat} (h : MadeFile w v E s d T)
    (hu : OpenRemoved w v u E s a d) (hfm : FreeMapWhole w E) (hmap : w.mem.freeMapFile.isSome = true)
    (hs : s < w.dev.size ∧ w.mem.freeMap s = true ∧ ¬E s) : Givable u E ((removedInode s d).held u.dev) := by
  have hfresh : ∀ x ∈ heldSectors v.dev d (bytesToSectors d.length), x < w.dev.size ∧ w.mem.freeMap x = false :=
    fun x hx => h.fresh x (h.held.mem_iff.mpr hx)
  have hsize : u.dev.size = w.dev.size := by rw [hu.dev, h.size]
  refine ⟨hu.state, ?_, ?_, ?_, ?_, ?_, ?_⟩
  · exact (congrArg Option.isSome hu.mapFile).trans hmap
  · rw [hsize, ← hfm.whole]
    exact hu.bitCnt
  all_goals rw [hu.dev]
  · refine nodup_append'.mpr ⟨h.held.nodup h.nodup, nodup_singleton s, disjoint_singleton.mpr fun hx => ?_⟩
    cases (hfresh s hx).2.symm.trans hs.2.1
  · rw [h.size]
    exact forall_mem_append.mpr ⟨fun x hx => (hfresh x hx).1, forall_mem_singleton.mpr hs.1⟩
  · simp only [hu.bits, h.used]
    exact forall_mem_append.mpr ⟨fun x hx => .inr (h.held.mem_iff.mpr hx), forall_mem_singleton.mpr (.inl hs.2.1)⟩
  · refine forall_mem_append.mpr ⟨fun x hx hEx => ?_, forall_mem_singleton.mpr hs.2.2⟩
    cases (hfresh x hx).2.symm.trans (hfm.marked x hEx)

/-- **Removing a file gives back what creating it took.** A file of any length that the on-disk format has room for is made
in a mounted file system, opened, and marked as removed. The sectors that have been taken are those of a list without
duplicates; `inode_close` runs `deallocate_file`, which calls `free_map_release` for exactly these, without tripping an
assertion; and then the free map is what it was. -/
theorem removed_file_gives_back {w : World} {E : Nat → Prop} (h : Mounted w E) {length : Int} (h0 : 0 ≤ length)
    (h1 : length ≤ formatBytes) :
    Runs false (createRemoved length) (fun r v => ∀ a, r = some a → ∃ i L, v.mem.inodes a = some i ∧ L.Nodup ∧
      (∀ x, v.mem.freeMap x = true ↔ w.mem.freeMap x = true ∨ x ∈ L) ∧ (∀ x ∈ L, w.mem.freeMap x = false) ∧
      Releases (deallocateFile a) L (v.closing a i) ∧
      Runs false (inodeClose (some a)) (fun _ u => u.mem.freeMap = w.mem.freeMap) v) w := by
  refine (Runs.freeMapAllocate h.state).bind ?_
  rintro _ w1 (⟨s, dev, rfl, ⟨hlt, hfree, -⟩, rfl, hdev, hstate⟩ | ⟨rfl, -⟩)
  case inr => exact Runs.pure_iff.mpr nofun
  have hbit : ∀ x, (w.mem.setBit s true).freeMap x = true ↔ w.mem.freeMap x = true ∨ x = s := by
    intro x
    by_cases hx : x = s <;> simp [Fs.setBit, hx]
  have hfm : FreeMapWhole ⟨w.mem.setBit s true, dev, w.heap⟩ E :=
    ⟨hstate, fun x hx => (hbit x).mpr (.inl (h.marked x hx)), h.whole.trans hdev.size.symm, hdev.size ▸ h.numbered⟩
  have hs : s < dev.size ∧ (w.mem.setBit s true).freeMap s = true ∧ ¬E s :=
    ⟨hfm.whole ▸ hlt, (hbit s).mpr (.inr rfl), fun hE => Bool.false_ne_true (hfree.symm.trans (h.marked s hE))⟩
  have hclosed : (w.mem.setBit s true).findOpen s = none := by
    cases hfind : w.mem.findOpen s with
    | none => exact hfind
    | some b =>
      obtain ⟨j, hj, rfl⟩ := Fs.findOpen_some hfind
      exact absurd (h.inodes b j hj) (by rw [hfree]; exact Bool.false_ne_true)
  refine (Runs.inodeCreate_made hfm hs h0 h1).bind ?_
  rintro (_ | _) v hmade
  · exact Runs.pure_iff.mpr nofun
  obtain ⟨d, T, hlen, hmade⟩ := hmade rfl
  refine (hmade.openRemoved hs.1 hclosed h.old).mono (fun r u hu a ha => ?_)
  have hu := hu a ha
  have hg := hmade.givable hu hfm h.mapFile hs
  obtain ⟨hheld, hg'⟩ := hg.closing hu.notFreeMap
  have hn : bytesToSectors d.length ≤ formatBlocks := bytesToSectors_le (hlen ▸ h0) (hlen ▸ h1)
  obtain ⟨L, hL⟩ : ∃ L, (removedInode s d).held u.dev = L := ⟨_, rfl⟩
  have hmem : ∀ x, x ∈ L ↔ x ∈ T ∨ x = s := by
    intro x
    rw [← hL, hu.dev, hmade.held.mem_iff]
    simp [Inode.held, removedInode]
  have hused : ∀ x, u.mem.freeMap x = true ↔ w.mem.freeMap x = true ∨ x ∈ L := by
    intro x
    rw [hu.bits, hmade.used, hmem, hbit, or_assoc, or_comm (a := x = s)]
  have hfreeL : ∀ x ∈ L, w.mem.freeMap x = false := by
    intro x hx
    rcases (hmem x).mp hx with hx | rfl
    · exact Bool.eq_false_iff.mpr fun hw => Bool.false_ne_true ((hmade.fresh x hx).2.symm.trans ((hbit x).mpr (.inl hw)))
    · exact hfree
  have hreleases : Releases (deallocateFile a) L (u.closing a (removedInode s d)) := by
    intro Q
    rw [← hheld] at hg'
    rw [← hL, ← hheld]
    exact Givable.deallocateFile_iff (i := { removedInode s d with openCnt := 0 }) (Fs.setInode_self _ _ _) hn hg'
  refine ⟨removedInode s d, L, hu.cell, hL ▸ hg.nodup, hused, hfreeL, hreleases, ?_⟩
  refine (Runs.inodeClose_removed hu.cell rfl rfl hn hg hu.notFreeMap).mono ?_
  rintro _ _ ⟨w2, hreleased, rfl⟩
  rw [hL] at hreleased
  funext x
  show w2.mem.freeMap x = w.mem.freeMap x
  have hclosing : (u.closing a (removedInode s d)).mem.freeMap x = u.mem.freeMap x := rfl
  rw [Bool.eq_iff_iff, hreleased.bits, hclosing, hused]
  constructor
  · rintro ⟨hx | hx, hnot⟩
    · exact hx
    · exact absurd hx hnot
  · intro hx
    exact ⟨.inl hx, fun hL => Bool.false_ne_true ((hfreeL x hL).symm.trans hx)⟩

/-- The small file system in which a process is about to exit has two sectors left. -/
theorem exitWorld_mounted : Mounted exitWorld (fun x => x = 2) where
  state := exitWorld_freeMap
  mapFile := rfl
  marked x hx := by
    subst hx
    decide
  whole := rfl
  numbered := by decide
  inodes a i hi := by
    simp only [exitWorld] at hi
    split at hi
    · cases hi
      decide
    split at hi
    · cases hi
      decide
    split at hi
    · cases hi
      decide
    · cases hi
  old f file hf hfile := by
    cases hf
    cases hfile
    decide

/-- A file of one block takes the two sectors that are left, and gives them back. -/
theorem exitWorld_gives_back : Runs false (createRemoved 512)
    (fun r v => ∀ a, r = some a → ∃ i L, v.mem.inodes a = some i ∧ L.Nodup ∧
    (∀ x, v.mem.freeMap x = true ↔ exitWorld.mem.freeMap x = true ∨ x ∈ L) ∧ (∀ x ∈ L, exitWorld.mem.freeMap x = false) ∧
    Releases (deallocateFile a) L (v.closing a i) ∧
    Runs false (inodeClose (some a)) (fun _ u => u.mem.freeMap = exitWorld.mem.freeMap) v) exitWorld :=
  removed_file_gives_back exitWorld_mounted (by decide) (by decide)

-- the creation does succeed there, and no sector is left
example : (createRemoved 512).passes (fun r v => r == some 31 && v.mem.freeMap 6 && v.mem.freeMap 7) exitWorld = true := by
  decide +kernel

end Pintos
