import Pintos.Lemmas.FileTable
import Pintos.Lemmas.Format

/-!
# The file system refines a table of byte arrays

After formatting a zeroed disk, any sequence of calls of one thread, as long as no allocation fails, does to names, handles
and bytes what `FileTable.Step` says. All the while every file has sectors of its own, which the free map knows of, and keeps
them until nothing refers to it any more.
-/

namespace Pintos

open Program

/-- What a caller keeps to. A handle is open. A write is of at least one byte, from a buffer that has them, and ends at or
below byte `mapBytes` of its file, which is past the direct and singly indirect range; the entry of a new name is such a
write to the directory. What a read adds up fits an `off_t`. -/
def FileTable.Legal (t : FileTable) : FileCall → Prop
  | .filesysCreate _ => dirEntrySize * (t.names.length + 1) ≤ mapBytes
  | .filesysOpen _ => True
  | .fileWriteAt f buffer size ofs =>
    (t.handles f).isSome = true ∧ 0 < size ∧ 0 ≤ ofs ∧ ofs + size ≤ mapBytes ∧ size ≤ buffer.length
  | .fileReadAt f size ofs => (t.handles f).isSome = true ∧ (size ≤ 0 ∨ 0 ≤ ofs ∧ ofs + size < 2147483648)
  | .fileClose f => (t.handles f).isSome = true
  | .filesysRemove _ => True

/-- The sector belongs to the file: it is that of its inode, a data sector or an index sector. -/
def World.hasSector (w : World) (s x : Nat) : Prop := w.owns s (w.inodeData s) x

/-- The inodes: that of the free map, that of the root directory and those of the files that are there. -/
def FileTable.Inode (t : FileTable) (s : Nat) : Prop := s = freeMapSector ∨ s = rootDirSector ∨ t.Live s

/-- The sectors are in order: no two files have one in common, and the free map marks those that a file has. -/
structure Stored (t : FileTable) (w : World) : Prop where
  apart : ∀ s s' x, t.Inode s → t.Inode s' → w.hasSector s x → w.hasSector s' x → s = s'
  marked : ∀ x, w.mem.freeMap x = true ↔ ∃ s, t.Inode s ∧ w.hasSector s x

/-- A file that is there before and after keeps its sectors. -/
def SectorsKept (t t' : FileTable) (w v : World) : Prop := ∀ s x, t.Live s → t'.Live s → w.hasSector s x → v.hasSector s x

/-- The calls, each as long as the caller keeps to what it has to, return what the table allows, from here to the end. -/
def Refines : List FileCall → FileTable → World → Prop
  | [], t, w => Stored t w
  | c :: calls, t, w =>
    Stored t w ∧ (t.Legal c → Runs true c.run (fun r v => ∃ t', t.Step c r t' ∧ SectorsKept t t' w v ∧ Refines calls t' v) w)

/-! ## From the store to the table -/

/-- The data of a file are where the code looks for them. -/
theorem Store.inodeData_eq {g : Ghost} {w : World} (h : Store g w) {s : Nat} {o : Obj} (hs : g.objs s = some o) :
    w.inodeData s = o.data := by
  unfold World.inodeData
  cases hfind : w.mem.findOpen s with
  | some a =>
    obtain ⟨i, hi, rfl⟩ := Fs.findOpen_some hfind
    obtain ⟨hobj, -, -⟩ := h.mem.obj a i hi (h.disk.sector_ne hs)
    rw [Option.bind_some, hi, Option.some.inj (hs.symm.trans hobj)]
  | none =>
    rcases h.onDisk s o hs with ⟨a, i, hi, his⟩ | ⟨hdisk, -⟩
    · exact absurd his (Fs.findOpen_none hfind (h.mem.cell a i hi).2.1 hi)
    · exact hdisk

/-- The sectors of the free map's file. -/
theorem Store.hasSector_freeMap {g : Ghost} {w : World} (h : Store g w) (x : Nat) : w.hasSector freeMapSector x ↔
    x = freeMapSector ∨ g.E x := by
  obtain ⟨f, a, i, pos, -, hf, hfile, hi, hs⟩ := h.mem.freeMap
  have hdata : w.inodeData freeMapSector = i.data := by
    unfold World.inodeData
    cases hfind : w.mem.findOpen freeMapSector with
    | some b =>
      obtain ⟨j, hj, hjs⟩ := Fs.findOpen_some hfind
      obtain rfl := h.mem.unique a b i j hi hj (hs.trans hjs.symm)
      rw [Option.bind_some, hi]
    | none => exact absurd hs (Fs.findOpen_none hfind (h.mem.cell a i hi).2.1 hi)
  rw [World.hasSector, hdata, World.owns]
  rcases h.state with ⟨hnone, -⟩ | ⟨b, j, hok, hE⟩
  · rw [hf] at hnone
    cases hnone
  obtain ⟨f', file', hf', hfile', rfl⟩ := hok.file
  cases hf.symm.trans hf'
  cases hfile.symm.trans hfile'
  cases hi.symm.trans hok.cell
  rw [hE]

namespace Represents

variable {t : FileTable} {g : Ghost} {w : World} {d : InodeDisk}

section

variable (h : Represents t g w d)
include h

/-- The inodes are the free map's and those of the store's files. -/
theorem inode_iff (s : Nat) : t.Inode s ↔ s = freeMapSector ∨ ∃ o, g.objs s = some o := by
  refine or_congr_right ⟨?_, ?_⟩
  · rintro (rfl | hl)
    · exact ⟨_, h.root⟩
    · exact ((h.files s).mp hl).2
  · rintro ⟨o, ho⟩
    by_cases hs : s = rootDirSector
    · exact .inl hs
    · exact .inr ((h.files s).mpr ⟨hs, o, ho⟩)

/-- The sectors of a file. -/
theorem hasSector_iff {s : Nat} {o : Obj} (hs : g.objs s = some o) (x : Nat) : w.hasSector s x ↔ w.owns s o.data x := by
  rw [World.hasSector, h.store.inodeData_eq hs]

theorem stored : Stored t w := by
  have hmap : ∀ s o x, g.objs s = some o → w.owns s o.data x → ¬w.hasSector freeMapSector x := by
    intro s o x ho hx hm
    obtain ⟨hne, hE, -⟩ := h.store.disk.owned ho hx
    exact ((h.store.hasSector_freeMap x).mp hm).elim hne hE
  constructor
  · intro s s' x hs hs' hx hx'
    rcases (h.inode_iff s).mp hs with rfl | ⟨o, ho⟩ <;> rcases (h.inode_iff s').mp hs' with rfl | ⟨o', ho'⟩
    · rfl
    · exact absurd hx (hmap s' o' x ho' ((h.hasSector_iff ho' x).mp hx'))
    · exact absurd hx' (hmap s o x ho ((h.hasSector_iff ho x).mp hx))
    · by_contra hne
      exact h.store.disk.disjoint ho ho' hne ((h.hasSector_iff ho x).mp hx) ((h.hasSector_iff ho' x).mp hx')
  · intro x
    rw [h.store.disk.used, h.idle.1]
    constructor
    · rintro ((rfl | hE | ⟨s, o, ho, hx⟩) | hspare)
      · exact ⟨freeMapSector, .inl rfl, .inl rfl⟩
      · exact ⟨freeMapSector, .inl rfl, (h.store.hasSector_freeMap x).mpr (.inr hE)⟩
      · exact ⟨s, (h.inode_iff s).mpr (.inr ⟨o, ho⟩), (h.hasSector_iff ho x).mpr hx⟩
      · cases hspare
    · rintro ⟨s, hs, hx⟩
      rcases (h.inode_iff s).mp hs with rfl | ⟨o, ho⟩
      · exact .inl (((h.store.hasSector_freeMap x).mp hx).imp_right .inl)
      · exact .inl (.inr (.inr ⟨s, o, ho, (h.hasSector_iff ho x).mp hx⟩))

theorem call {c : FileCall} (hc : t.Legal c) : Runs true c.run (Simulates t g w c) w := by
  cases c with
  | filesysCreate name => exact h.filesysCreate name hc
  | filesysOpen name => exact h.filesysOpen name
  | fileWriteAt f buffer size ofs => exact h.fileWriteAt hc.1 hc.2.1 hc.2.2.1 hc.2.2.2.1 hc.2.2.2.2
  | fileReadAt f size ofs => exact h.fileReadAt hc.1 hc.2
  | fileClose f => exact h.fileClose hc
  | filesysRemove name => exact h.filesysRemove name

theorem refines (calls : List FileCall) : Refines calls t w := by
  induction calls generalizing t g w d with
  | nil => exact h.stored
  | cons c calls ih =>
    refine ⟨h.stored, fun hc => (h.call hc).mono ?_⟩
    rintro r v ⟨t', g', d', hstep, hr, hkept⟩
    refine ⟨t', hstep, fun s x hs hs' hx => ?_, ih hr⟩
    obtain ⟨hroot, o, ho⟩ := (h.files s).mp hs
    obtain ⟨-, o', ho'⟩ := (hr.files s).mp hs'
    exact (hr.hasSector_iff ho' x).mpr (hkept s o o' hroot ho ho' x ((h.hasSector_iff ho x).mp hx))

end

end Represents

/-! ## From the start -/

/-- Whether an entry is in use is said by its last byte. -/
theorem World.slot_inUse (w : World) (d : InodeDisk) (k : Nat) :
    (w.slot d k).inUse = ((w.blocksOf d).fileByte (dirEntrySize * k + 19) != 0) := by
  simp [World.slot, DirEntry.decode, BlockWorld.fileBytes, dirEntrySize]

/-- A formatted disk whose sectors were zero has no file. -/
theorem Formatted.represents {w v : World} {E : Nat → Prop} {d : InodeDisk} (h : Formatted w v E d)
    (hzero : ∀ x, w.dev.disk x = Contents.fill 0) : Represents .empty (.rootOnly E d) v d := by
  have hfree : inUseEntries (v.slots d) = [] := by
    rw [inUseEntries, List.map_eq_nil_iff, List.filter_eq_nil_iff]
    intro e he
    obtain ⟨k, hk, rfl⟩ := List.mem_map.mp he
    have hk : k < 16 := by simpa [h.length, dirEntrySize] using hk
    rw [World.slot_inUse, h.bytes _ (by unfold dirEntrySize; omega), hzero]
    simp [Contents.fill]
  have hnone : ∀ s o, s ≠ rootDirSector → (Ghost.rootOnly E d).objs s = some o → False :=
    fun s o hs ho => hs (Ghost.rootOnly_objs ho).1
  refine
    { h with
      idle := ⟨rfl, rfl⟩
      root := Ghost.rootOnly_root E d
      whole := by rw [h.length]; rfl
      entries := by rw [hfree]; exact .refl _
      numbers := List.nodup_nil
      handles := fun f s => ⟨by simp [FileTable.empty], ?_⟩
      files := fun s => ⟨by simp [FileTable.Live, FileTable.empty], ?_⟩
      removed := fun s o hs ho => (hnone s o hs ho).elim
      contents := fun s o hs ho => (hnone s o hs ho).elim }
  · rintro ⟨a, i, hf, -⟩
    exact absurd hf List.not_mem_nil
  · rintro ⟨hs, o, ho⟩
    exact (hnone s o hs ho).elim

/-- After `filesys_init (true)` on a zeroed disk, whatever calls one thread makes, the file system is a table of byte arrays,
as long as no allocation fails. The disk has room for the two inodes that formatting makes, and its free map lies within
`mapBytes`. -/
theorem filesys_refines_table (w : World) (hboot : w.mem = Fs.boot) (hzero : ∀ x, w.dev.disk x = Contents.fill 0)
    (hsectors : 2 ≤ w.dev.size ∧ w.dev.size ≤ 8 * mapBytes) (calls : List FileCall) :
    Runs true (filesysInit w.dev.size true) (fun _ v => Refines calls .empty v) w := by
  have hsize : w.dev.size ≤ 1552384 := by
    have hmap : mapBytes = 194048 := rfl
    omega
  refine (Runs.filesysInit_format hboot ⟨hsectors.1, hsize⟩).mono ?_
  rintro _ v ⟨E, d, h⟩
  exact (h.represents hzero).refines calls

/-- A zeroed disk of 64 sectors when the kernel starts, with memory for everything. -/
def zeroedDisk : World where
  mem := Fs.boot
  dev := { size := 64, disk := fun _ => Contents.fill 0 }
  heap _ := true

/-- A file is written, loses its name while it is open, and is read and closed. -/
def removedWhileOpen : List FileCall :=
  [.filesysCreate (cstr [97]), .filesysOpen (cstr [97]), .fileWriteAt 14 [1, 2, 3] 3 0, .filesysRemove (cstr [97]),
    .fileReadAt 14 3 0, .fileClose 14]

/-- The disk is formatted, the calls refine the table, and all of them succeed. -/
theorem zeroedDisk_refines : Runs true (filesysInit 64 true) (fun _ v => Refines removedWhileOpen .empty v) zeroedDisk ∧
    (filesysInit 64 true >>= fun _ => removedWhileOpen.mapM FileCall.run).passes
      (fun rs _ => rs == [.bool true, .file (some 14), .count 3, .bool true, .bytes 3 [1, 2, 3], .unit]) zeroedDisk = true :=
  ⟨filesys_refines_table zeroedDisk rfl (fun _ => rfl) (by decide) removedWhileOpen, by decide +kernel⟩

end Pintos
