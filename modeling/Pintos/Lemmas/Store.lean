import Mathlib.Data.List.Count
import Pintos.Lemmas.InodeLife
import Pintos.Lemmas.WriteRuns

/-!
# The store: all files of the file system together

What the file system is made of at any time is a set of files, each with an inode sector of its own, the free map among them.
`Ghost` names what no single variable of the code holds: the data of every file, wherever they are kept, and who refers to
which open inode. `Store` says that disk and memory agree with it: no sector belongs to two files, every sector of a file is
marked, an open inode is in memory once and counts its references, and a file that is not open is on disk.
-/

namespace Pintos

open Program List

variable {a s x : Nat} {o : Obj} {i : Inode} {d : InodeDisk}

/-- A file: the data of its inode, and whether it is marked as removed. -/
structure Obj where
  data : InodeDisk
  removed : Bool

/-- A file that is not removed. -/
abbrev Obj.present (d : InodeDisk) : Obj := { data := d, removed := false }

/-- The sectors of the free map's file, the files by their inode sectors, a sector that was taken from the free map and is in
no file yet, the open inodes that a function has a reference to, and the `struct file`s with the inodes they refer to. -/
structure Ghost where
  E : Nat → Prop
  objs : Nat → Option Obj
  spare : Option Nat
  held : List Nat
  handles : List (Nat × Nat)

/-- The addresses of inodes, one for each reference. -/
def Ghost.addrs (g : Ghost) : List Nat := g.held ++ g.handles.map (·.2)

/-! ## Sectors -/

/-- A file that has not been touched between two worlds. -/
structure Untouched (w w' : World) (s : Nat) (d : InodeDisk) : Prop where
  file : FileOk w' s d
  owns : ∀ x, w'.owns s d x ↔ w.owns s d x
  bytes : ∀ k : Nat, (k : Int) < d.length → (w'.blocksOf d).fileByte k = (w.blocksOf d).fileByte k

section

variable {w w' : World}

/-- A file is marked, sector by sector. -/
theorem FileOk.marked (h : FileOk w s d) (hx : w.owns s d x) : w.mem.freeMap x = true := by
  rcases hx with rfl | ⟨p, hp, rfl⟩
  · exact h.own.2
  · exact h.map.marked p hp

/-- A file whose map leads to sectors that hold what they held, and whose sectors are still marked, is untouched. -/
theorem FileOk.untouched (h : FileOk w s d) (hsize : w'.dev.size = w.dev.size)
    (hmark : ∀ x, w.owns s d x → w'.mem.freeMap x = true)
    (hdisk : ∀ p, MapSlot.InUse (w.blocksOf d).blocks p →
    w'.dev.disk ((w.blocksOf d).sector p) = w.dev.disk ((w.blocksOf d).sector p)) : Untouched w w' s d := by
  have hst : BlockWorld.Stable (w.blocksOf d).blocks (w.blocksOf d) (w'.blocksOf d) :=
    BlockWorld.stable_of_index rfl (fun p hp _ => hdisk p hp)
  refine ⟨⟨h.length, h.map.of_stable hst hsize fun p hp => hmark _ (.inr ⟨p, hp, rfl⟩), ⟨?_, ?_⟩, fun p hp => ?_⟩,
    fun x => ?_, fun k hk => ?_⟩
  · exact Nat.lt_of_lt_of_eq h.own.1 hsize.symm
  · exact hmark _ (.inl rfl)
  · rw [hst p hp]
    exact h.notMapped p hp
  · exact or_congr_right (World.mapSectors_congr hst x)
  · have hb := block_inUse w hk
    rw [BlockWorld.fileByte, hst _ hb]
    exact congrArg (fun c : Contents => c.byte (k % 512)) (hdisk _ hb)

end

/-- What a sector may be in use for, the file at `s0` and the sector in hand apart: the free map, or another file. -/
def Ghost.Rest (g : Ghost) (w : World) (s0 x : Nat) : Prop :=
  x = freeMapSector ∨ g.E x ∨ ∃ s o, s ≠ s0 ∧ g.objs s = some o ∧ w.owns s o.data x

/-- What a sector may be in use for, the sector in hand apart. -/
def Ghost.Files (g : Ghost) (w : World) (x : Nat) : Prop :=
  x = freeMapSector ∨ g.E x ∨ ∃ s o, g.objs s = some o ∧ w.owns s o.data x

/-- The sectors are in order: every file has its own, the free map has its own, and these are the sectors that are marked. -/
structure DiskOk (g : Ghost) (w : World) : Prop where
  whole : w.mem.bitCnt = w.dev.size
  numbered : w.dev.size ≤ invalidSector
  mapApart : ¬g.E freeMapSector
  used : ∀ x, w.mem.freeMap x = true ↔ g.Files w x ∨ g.spare = some x
  file : ∀ s o, g.objs s = some o → FileOk w s o.data
  apart : ∀ s o, g.objs s = some o → ∀ x, w.owns s o.data x → ¬g.Rest w s x
  spare : ∀ x, g.spare = some x → x < w.dev.size ∧ ¬g.Files w x

theorem Ghost.files_iff (g : Ghost) (w : World) (s0 x : Nat) :
    g.Files w x ↔ g.Rest w s0 x ∨ ∃ o, g.objs s0 = some o ∧ w.owns s0 o.data x := by
  constructor
  · rintro (h | h | ⟨s, o, hs, hx⟩)
    · exact .inl (.inl h)
    · exact .inl (.inr (.inl h))
    · rcases eq_or_ne s s0 with rfl | hne
      · exact .inr ⟨o, hs, hx⟩
      · exact .inl (.inr (.inr ⟨s, o, hne, hs, hx⟩))
  · rintro ((h | h | ⟨s, o, -, hs, hx⟩) | ⟨o, hs, hx⟩)
    · exact .inl h
    · exact .inr (.inl h)
    · exact .inr (.inr ⟨s, o, hs, hx⟩)
    · exact .inr (.inr ⟨s0, o, hs, hx⟩)

/-- Where the other files are untouched, their sectors are what they were. -/
theorem Ghost.rest_iff {g g' : Ghost} {w w' : World} {s0 : Nat} (hE : g'.E = g.E) (hobjs : ∀ s, s ≠ s0 → g'.objs s = g.objs s)
    (hu : ∀ s o, s ≠ s0 → g.objs s = some o → Untouched w w' s o.data) (x : Nat) : g'.Rest w' s0 x ↔ g.Rest w s0 x := by
  unfold Ghost.Rest
  rw [hE]
  refine or_congr_right (or_congr_right (exists_congr fun s => exists_congr fun o => and_congr_right fun hne => ?_))
  rw [hobjs s hne]
  exact and_congr_right fun hs => (hu s o hne hs).owns x

namespace DiskOk

variable {g g' : Ghost} {w w' : World}

section

variable (h : DiskOk g w)
include h

/-- The free map's sector is not that of a file. -/
theorem objs_freeMap : g.objs freeMapSector = none := by
  cases ho : g.objs freeMapSector with
  | none => rfl
  | some o => exact absurd (.inl rfl) (h.apart _ o ho _ (.inl rfl))

/-- Where a file has a sector, it is no sector of the free map, and marked. -/
theorem owned (hs : g.objs s = some o) (hx : w.owns s o.data x) : x ≠ freeMapSector ∧ ¬g.E x ∧ w.mem.freeMap x = true :=
  ⟨fun he => h.apart s o hs x hx (.inl he), fun he => h.apart s o hs x hx (.inr (.inl he)), (h.file s o hs).marked hx⟩

theorem sector_ne (hs : g.objs s = some o) : s ≠ freeMapSector := (h.owned hs (.inl rfl)).1

theorem mapMarked (hx : g.E x) : w.mem.freeMap x = true := (h.used x).mpr (.inl (.inr (.inl hx)))

theorem disjoint {t : Nat} {p : Obj} (hs : g.objs s = some o) (ht : g.objs t = some p) (hne : s ≠ t)
    (hx : w.owns s o.data x) : ¬w.owns t p.data x :=
  fun hy => h.apart s o hs x hx (.inr (.inr ⟨t, p, hne.symm, ht, hy⟩))

/-- One file is made, changed or given up, and the others are untouched. -/
theorem change (s0 : Nat) (hE : g'.E = g.E) (hcnt : w'.mem.bitCnt = w.mem.bitCnt) (hsize : w'.dev.size = w.dev.size)
    (hobjs : ∀ s, s ≠ s0 → g'.objs s = g.objs s) (hu : ∀ s o, s ≠ s0 → g.objs s = some o → Untouched w w' s o.data)
    (hnew : ∀ o, g'.objs s0 = some o → FileOk w' s0 o.data ∧ ∀ x, w'.owns s0 o.data x → ¬g.Rest w s0 x)
    (hused : ∀ x, w'.mem.freeMap x = true ↔
      g.Rest w s0 x ∨ (∃ o, g'.objs s0 = some o ∧ w'.owns s0 o.data x) ∨ g'.spare = some x)
    (hspare : ∀ x, g'.spare = some x → x < w.dev.size ∧ ¬g.Rest w s0 x ∧ ∀ o, g'.objs s0 = some o → ¬w'.owns s0 o.data x) :
    DiskOk g' w' where
  whole := by rw [hcnt, h.whole, hsize]
  numbered := by rw [hsize]; exact h.numbered
  mapApart := by rw [hE]; exact h.mapApart
  used x := by rw [hused, g'.files_iff w' s0, Ghost.rest_iff hE hobjs hu, or_assoc]
  file s o hs := by
    rcases eq_or_ne s s0 with rfl | hne
    · exact (hnew o hs).1
    · exact (hu s o hne (hobjs s hne ▸ hs)).file
  apart s o hs x hx := by
    rcases eq_or_ne s s0 with rfl | hne
    · rw [Ghost.rest_iff hE hobjs hu]
      exact (hnew o hs).2 x hx
    rw [hobjs s hne] at hs
    have hold := ((hu s o hne hs).owns x).mp hx
    rintro (he | he | ⟨t, p, hts, ht, hy⟩)
    · exact (h.owned hs hold).1 he
    · exact (h.owned hs hold).2.1 (hE ▸ he)
    · rcases eq_or_ne t s0 with rfl | hnt
      · exact (hnew p ht).2 x hy (.inr (.inr ⟨s, o, hne, hs, hold⟩))
      · rw [hobjs t hnt] at ht
        exact h.disjoint hs ht hts.symm hold (((hu t p hnt ht).owns x).mp hy)
  spare x hx := by
    obtain ⟨h1, h2, h3⟩ := hspare x hx
    rw [hsize, g'.files_iff w' s0, Ghost.rest_iff hE hobjs hu]
    exact ⟨h1, fun hf => hf.elim h2 (fun ⟨o, ho, hy⟩ => h3 o ho hy)⟩

/-- No file is changed, and the sector in hand may be another. -/
theorem keep (hE : g'.E = g.E) (hobjs : g'.objs = g.objs) (hcnt : w'.mem.bitCnt = w.mem.bitCnt)
    (hsize : w'.dev.size = w.dev.size) (hu : ∀ s o, g.objs s = some o → Untouched w w' s o.data)
    (hused : ∀ x, w'.mem.freeMap x = true ↔ g.Files w x ∨ g'.spare = some x)
    (hspare : ∀ x, g'.spare = some x → x < w.dev.size ∧ ¬g.Files w x) : DiskOk g' w' := by
  have hnone : g.objs freeMapSector = none := h.objs_freeMap
  have hfiles : ∀ x, g.Files w x ↔ g.Rest w freeMapSector x := by
    intro x
    rw [g.files_iff w freeMapSector, hnone]
    simp
  refine h.change freeMapSector hE hcnt hsize (fun s _ => by rw [hobjs]) (fun s o _ hs => hu s o hs) ?_ ?_ ?_
  · intro o ho
    rw [hobjs, hnone] at ho
    cases ho
  · intro x
    rw [hused, hobjs, hnone, hfiles]
    simp
  · intro x hx
    obtain ⟨h1, h2⟩ := hspare x hx
    rw [hobjs, hnone]
    exact ⟨h1, (hfiles x).not.mp h2, nofun⟩

theorem same (hE : g'.E = g.E) (hobjs : g'.objs = g.objs) (hspare : g'.spare = g.spare)
    (hcnt : w'.mem.bitCnt = w.mem.bitCnt) (hbits : w'.mem.freeMap = w.mem.freeMap) (hsize : w'.dev.size = w.dev.size)
    (hu : ∀ s o, g.objs s = some o → Untouched w w' s o.data) : DiskOk g' w' :=
  h.keep hE hobjs hcnt hsize hu (by rw [hbits, hspare]; exact h.used) (by rw [hspare]; exact h.spare)

end

end DiskOk

/-! ## Memory -/

/-- Memory is in order: the free map's file is open, every open inode is in memory once, belongs to a file and counts its
references, and the `struct file`s of the handles are there. -/
structure MemOk (g : Ghost) (w : World) : Prop where
  freeMap : ∃ f a i pos, f < w.mem.nextAddr ∧ w.mem.freeMapFile = some f ∧
    w.mem.files f = some { inode := a, pos := pos, denyWrite := false } ∧ w.mem.inodes a = some i ∧ i.sector = freeMapSector
  cell : ∀ a i, w.mem.inodes a = some i →
    a < w.mem.nextAddr ∧ a ∈ w.mem.openInodes ∧ i.extending = false ∧ i.denyWriteCnt = 0
  obj : ∀ a i, w.mem.inodes a = some i → i.sector ≠ freeMapSector →
    g.objs i.sector = some { data := i.data, removed := i.removed } ∧ i.openCnt = g.addrs.count a ∧ a ∈ g.addrs
  unique : ∀ a b i j, w.mem.inodes a = some i → w.mem.inodes b = some j → i.sector = j.sector → a = b
  listed : ∀ a ∈ w.mem.openInodes, ∃ i, w.mem.inodes a = some i
  nodup : w.mem.openInodes.Nodup
  live : ∀ a ∈ g.addrs, ∃ i, w.mem.inodes a = some i ∧ i.sector ≠ freeMapSector
  handle : ∀ f a, (f, a) ∈ g.handles →
    f < w.mem.nextAddr ∧ w.mem.freeMapFile ≠ some f ∧ ∃ pos, w.mem.files f = some { inode := a, pos := pos, denyWrite := false }
  handlesNodup : g.handles.Nodup

/-- Disk and memory are in order, and a file that is not open is on disk. -/
structure Store (g : Ghost) (w : World) : Prop where
  state : FreeMapState w g.E
  disk : DiskOk g w
  mem : MemOk g w
  onDisk : ∀ s o, g.objs s = some o →
    (∃ a i, w.mem.inodes a = some i ∧ i.sector = s) ∨ (w.dev.disk s = o.data ∧ o.removed = false)

theorem Fs.setInode_cases {fs : Fs} {b : Nat} {j k : Inode} (h : (fs.setInode a (some j)).inodes b = some k) :
    (b = a ∧ k = j) ∨ (b ≠ a ∧ fs.inodes b = some k) := by
  rcases eq_or_ne b a with rfl | hne
  · rw [Fs.setInode_self] at h
    exact .inl ⟨rfl, (Option.some.inj h).symm⟩
  · rw [Fs.setInode_ne _ _ hne] at h
    exact .inr ⟨hne, h⟩

/-- The world in which an inode has come into memory at a new address. -/
def World.opened (w : World) (j : Inode) : World :=
  let fs := { w.mem with nextAddr := w.mem.nextAddr + 1, openInodes := w.mem.nextAddr :: w.mem.openInodes }
  { w with mem := fs.setInode w.mem.nextAddr (some j) }

/-- The world in which there is one more `struct file`. -/
def World.fileOpened (w : World) (a : Nat) : World :=
  let fs := { w.mem with nextAddr := w.mem.nextAddr + 1 }
  { w with mem := fs.setFile w.mem.nextAddr (some { inode := a, pos := 0, denyWrite := false }) }

namespace MemOk

variable {g : Ghost} {w w' : World}

/-- An open inode of a file is not that of the free map. -/
theorem notFreeMap (h : MemOk g w) (hi : w.mem.inodes a = some i) (hs : i.sector ≠ freeMapSector) : w.NotFreeMap a := by
  obtain ⟨f0, a0, i0, pos, -, hf0, hfile0, hi0, hs0⟩ := h.freeMap
  intro f file hf hfile
  obtain rfl : f0 = f := Option.some.inj (hf0.symm.trans hf)
  cases hfile0.symm.trans hfile
  rintro rfl
  obtain rfl : i0 = i := Option.some.inj (hi0.symm.trans hi)
  exact hs hs0

/-- The bits of the free map, and the inode that is being created, are not looked at. -/
theorem congr (h : MemOk g w) (hinodes : w'.mem.inodes = w.mem.inodes) (hopen : w'.mem.openInodes = w.mem.openInodes)
    (hfiles : w'.mem.files = w.mem.files) (hnext : w.mem.nextAddr ≤ w'.mem.nextAddr)
    (hmap : w'.mem.freeMapFile = w.mem.freeMapFile) :
    MemOk g w' where
  freeMap := by
    rw [hinodes, hfiles, hmap]
    obtain ⟨f, a, i, pos, hf, hrest⟩ := h.freeMap
    exact ⟨f, a, i, pos, by omega, hrest⟩
  cell a i hi := by
    rw [hinodes] at hi
    obtain ⟨h1, h2, h3⟩ := h.cell a i hi
    rw [hopen]
    exact ⟨by omega, h2, h3⟩
  obj := by rw [hinodes]; exact h.obj
  unique := by rw [hinodes]; exact h.unique
  listed := by rw [hinodes, hopen]; exact h.listed
  nodup := by rw [hopen]; exact h.nodup
  live := by rw [hinodes]; exact h.live
  handle f a hf := by
    obtain ⟨h1, h2⟩ := h.handle f a hf
    rw [hfiles, hmap]
    exact ⟨by omega, h2⟩
  handlesNodup := h.handlesNodup

section

variable {j : Inode}

/-- One inode comes into memory, changes there or goes: what has to be checked of its address. -/
theorem change (h : MemOk g w) (g' : Ghost) (a : Nat) (hcell : ∀ b, b ≠ a → w'.mem.inodes b = w.mem.inodes b)
    (hnext : w.mem.nextAddr ≤ w'.mem.nextAddr) (hfiles : w'.mem.files = w.mem.files)
    (hmap : w'.mem.freeMapFile = w.mem.freeMapFile)
    (hopen : ∀ b, b ≠ a → (b ∈ w'.mem.openInodes ↔ b ∈ w.mem.openInodes)) (hnodup : w'.mem.openInodes.Nodup)
    (hmine : ∀ i, w.mem.inodes a = some i → i.sector ≠ freeMapSector)
    (hobjs : ∀ b k, b ≠ a → w.mem.inodes b = some k → g'.objs k.sector = g.objs k.sector)
    (hothers : ∀ b, b ≠ a → g'.addrs.count b = g.addrs.count b) (hhandles : g'.handles = g.handles)
    (hnone : w'.mem.inodes a = none → a ∉ w'.mem.openInodes ∧ a ∉ g'.addrs)
    (hnew : ∀ j, w'.mem.inodes a = some j → (a < w'.mem.nextAddr ∧ a ∈ w'.mem.openInodes ∧ j.extending = false ∧
      j.denyWriteCnt = 0) ∧
      (g'.objs j.sector = some { data := j.data, removed := j.removed } ∧ j.openCnt = g'.addrs.count a ∧ a ∈ g'.addrs) ∧
      j.sector ≠ freeMapSector ∧ ∀ b k, b ≠ a → w.mem.inodes b = some k → k.sector ≠ j.sector) : MemOk g' w' := by
  have hmem : ∀ b, b ≠ a → (b ∈ g'.addrs ↔ b ∈ g.addrs) := by
    intro b hb
    rw [← count_pos_iff, ← count_pos_iff, hothers b hb]
  have hsome : a ∈ w'.mem.openInodes ∨ a ∈ g'.addrs → ∃ j, w'.mem.inodes a = some j := by
    intro ha
    cases hj : w'.mem.inodes a with
    | none => exact absurd ha (not_or.mpr (hnone hj))
    | some j => exact ⟨j, rfl⟩
  constructor
  · obtain ⟨f, a0, i0, pos, hf, hmap0, hfile, hi0, hs0⟩ := h.freeMap
    have hne : a0 ≠ a := by
      rintro rfl
      exact hmine i0 hi0 hs0
    exact ⟨f, a0, i0, pos, by omega, hmap.trans hmap0, hfiles ▸ hfile, (hcell a0 hne).trans hi0, hs0⟩
  · intro b k hb
    rcases eq_or_ne b a with rfl | hne
    · exact (hnew k hb).1
    · rw [hcell b hne] at hb
      obtain ⟨h1, h2, h3⟩ := h.cell b k hb
      exact ⟨by omega, (hopen b hne).mpr h2, h3⟩
  · intro b k hb hk
    rcases eq_or_ne b a with rfl | hne
    · exact (hnew k hb).2.1
    · rw [hcell b hne] at hb
      rw [hobjs b k hne hb, hothers b hne, hmem b hne]
      exact h.obj b k hb hk
  · intro b c k l hb hc he
    rcases eq_or_ne b a with hb' | hb' <;> rcases eq_or_ne c a with hc' | hc'
    · exact hb'.trans hc'.symm
    · subst hb'
      exact absurd he.symm ((hnew k hb).2.2.2 c l hc' (hcell c hc' ▸ hc))
    · subst hc'
      exact absurd he ((hnew l hc).2.2.2 b k hb' (hcell b hb' ▸ hb))
    · exact h.unique b c k l (hcell b hb' ▸ hb) (hcell c hc' ▸ hc) he
  · intro b hb
    rcases eq_or_ne b a with rfl | hne
    · exact hsome (.inl hb)
    · rw [hcell b hne]
      exact h.listed b ((hopen b hne).mp hb)
  · exact hnodup
  · intro b hb
    rcases eq_or_ne b a with rfl | hne
    · obtain ⟨j, hj⟩ := hsome (.inr hb)
      exact ⟨j, hj, (hnew j hj).2.2.1⟩
    · rw [hcell b hne]
      exact h.live b ((hmem b hne).mp hb)
  · intro f b hf
    rw [hhandles] at hf
    obtain ⟨h1, h2⟩ := h.handle f b hf
    rw [hmap, hfiles]
    exact ⟨by omega, h2⟩
  · rw [hhandles]
    exact h.handlesNodup

/-- A cell that stays in memory, with another count or other data. -/
theorem setCell (h : MemOk g w) (g' : Ghost) (hi : w.mem.inodes a = some i) (hs : i.sector ≠ freeMapSector)
    (hsec : j.sector = i.sector)
    (hj : j.extending = false ∧ j.denyWriteCnt = 0) (hobjs : ∀ t, t ≠ i.sector → g'.objs t = g.objs t)
    (hobj : g'.objs i.sector = some { data := j.data, removed := j.removed }) (hcnt : j.openCnt = g'.addrs.count a)
    (ha : a ∈ g'.addrs)
    (hothers : ∀ b, b ≠ a → g'.addrs.count b = g.addrs.count b) (hhandles : g'.handles = g.handles) :
    MemOk g' { w with mem := w.mem.setInode a (some j) } := by
  have hother : ∀ b k, b ≠ a → w.mem.inodes b = some k → k.sector ≠ i.sector := fun b k hb hk he => hb (h.unique b a k i hk hi he)
  refine h.change g' a (fun b hb => Fs.setInode_ne _ _ hb) (Nat.le_refl _) rfl rfl (fun _ _ => Iff.rfl) h.nodup
    (fun k hk => Option.some.inj (hi.symm.trans hk) ▸ hs) (fun b k hb hk => hobjs _ (hother b k hb hk)) hothers hhandles ?_ ?_
  · intro hn
    cases (Fs.setInode_self _ _ _).symm.trans hn
  · intro k hk
    cases (Fs.setInode_self _ _ _).symm.trans hk
    rw [hsec]
    exact ⟨⟨(h.cell a i hi).1, (h.cell a i hi).2.1, hj⟩, ⟨hobj, hcnt, ha⟩, hs, hother⟩

/-- A file that nobody has open is opened: its inode comes into memory at a new address. -/
theorem openNew (h : MemOk g w) (hobj : g.objs s = some (.present d)) (hs : s ≠ freeMapSector)
    (hclosed : ∀ b k, w.mem.inodes b = some k → k.sector ≠ s)
    (hj : j = { sector := s, openCnt := 1, removed := false, extending := false, denyWriteCnt := 0, data := d }) :
    MemOk { g with held := w.mem.nextAddr :: g.held } (w.opened j) := by
  have hnew : ∀ k, w.mem.inodes w.mem.nextAddr ≠ some k := fun k hk => Nat.lt_irrefl _ (h.cell _ k hk).1
  have hnot : w.mem.nextAddr ∉ g.addrs := by
    intro hmem
    obtain ⟨k, hk, -⟩ := h.live _ hmem
    exact hnew k hk
  have haddrs : Ghost.addrs { g with held := w.mem.nextAddr :: g.held } = w.mem.nextAddr :: g.addrs := rfl
  refine h.change _ w.mem.nextAddr (fun b hb => Fs.setInode_ne _ _ hb)
    (Nat.le_succ _) rfl rfl (fun b hb => mem_cons.trans (or_iff_right hb))
    (nodup_cons.mpr ⟨fun hmem => ?_, h.nodup⟩) (fun k hk => absurd hk (hnew k)) (fun _ _ _ _ => rfl)
    (fun b hb => count_cons_of_ne hb.symm) rfl ?_ ?_
  · obtain ⟨k, hk⟩ := h.listed _ hmem
    exact hnew k hk
  · intro hn
    cases (Fs.setInode_self _ _ _).symm.trans hn
  · intro k hk
    cases (Fs.setInode_self _ _ _).symm.trans hk
    rw [haddrs, hj, count_cons_self, count_eq_zero.mpr hnot]
    exact ⟨⟨Nat.lt_succ_self _, mem_cons_self, rfl, rfl⟩, ⟨hobj, rfl, mem_cons_self⟩, hs, fun b k _ hk => hclosed b k hk⟩

end

section

variable (h : MemOk g w)
include h

/-- The last reference to an inode is given up, and its memory is freed. -/
theorem closed (g' : Ghost) (hi : w.mem.inodes a = some i) (hs : i.sector ≠ freeMapSector)
    (hobjs : ∀ t, t ≠ i.sector → g'.objs t = g.objs t) (ha : a ∉ g'.addrs)
    (hothers : ∀ b, b ≠ a → g'.addrs.count b = g.addrs.count b) (hhandles : g'.handles = g.handles) :
    MemOk g' { w with mem := { w.mem.setInode a none with openInodes := w.mem.openInodes.erase a } } := by
  refine h.change g' a (fun b hb => Fs.setInode_ne _ _ hb) (Nat.le_refl _) rfl rfl (fun b hb => mem_erase_of_ne hb)
    (h.nodup.erase a)
    (fun k hk => Option.some.inj (hi.symm.trans hk) ▸ hs)
    (fun b k hb hk => hobjs _ (fun he => hb (h.unique b a k i hk hi he))) hothers
    hhandles (fun _ => ⟨h.nodup.not_mem_erase, ha⟩) ?_
  intro j hj
  cases (Fs.setInode_self _ _ _).symm.trans hj

/-- References may go from one place to another, and files that are not open may come and go. -/
theorem perm (g' : Ghost)
    (hobjs : ∀ a i, w.mem.inodes a = some i → i.sector ≠ freeMapSector → g'.objs i.sector = g.objs i.sector)
    (hp : g'.addrs.Perm g.addrs) (hhandle : ∀ f a, (f, a) ∈ g'.handles →
      f < w.mem.nextAddr ∧ w.mem.freeMapFile ≠ some f ∧
      ∃ pos, w.mem.files f = some { inode := a, pos := pos, denyWrite := false })
    (hnodup : g'.handles.Nodup) : MemOk g' w :=
  { h with
    obj a i hi hs := by
      rw [hobjs a i hi hs, hp.count_eq, hp.mem_iff]
      exact h.obj a i hi hs
    live a ha := h.live a (hp.mem_iff.mp ha)
    handle := hhandle
    handlesNodup := hnodup }

/-- A function takes over the reference of a `struct file`. -/
theorem takeOver {f : Nat} (hf : (f, a) ∈ g.handles) :
    MemOk { g with held := a :: g.held, handles := g.handles.erase (f, a) } w := by
  refine h.perm _ (fun _ _ _ _ => rfl) ?_ (fun f' b hb => h.handle f' b (mem_of_mem_erase hb)) (h.handlesNodup.erase _)
  have hp : (g.handles.map (·.2)).Perm (a :: (g.handles.erase (f, a)).map (·.2)) := (perm_cons_erase hf).map _
  exact (perm_middle.symm.trans (hp.symm.append_left _))

/-- A handle whose reference was taken over is no handle any more. -/
theorem handle_gone {f : Nat} (hf : (f, a) ∈ g.handles) (b : Nat) : (f, b) ∉ g.handles.erase (f, a) := by
  intro hb
  obtain ⟨-, -, pos, hfile⟩ := h.handle f a hf
  obtain ⟨-, -, pos', hfile'⟩ := h.handle f b (mem_of_mem_erase hb)
  obtain rfl : b = a := congrArg OpenFile.inode (Option.some.inj (hfile'.symm.trans hfile))
  exact h.handlesNodup.not_mem_erase hb

theorem freeFile {f : Nat} (hmap : w.mem.freeMapFile ≠ some f) (hf : ∀ a, (f, a) ∉ g.handles) :
    MemOk g { w with mem := w.mem.setFile f none } := by
  refine { h with freeMap := ?_, handle := fun f' a ha => ?_ }
  · obtain ⟨f0, a0, i0, pos, hlt, hf0, hfile, hrest⟩ := h.freeMap
    have hne : f0 ≠ f := fun he => hmap (he ▸ hf0)
    exact ⟨f0, a0, i0, pos, hlt, hf0, (Fs.setFile_ne _ _ hne).trans hfile, hrest⟩
  obtain ⟨h1, h2, pos, h3⟩ := h.handle f' a ha
  have hne : f' ≠ f := by
    rintro rfl
    exact hf a ha
  exact ⟨h1, h2, pos, (Fs.setFile_ne _ _ hne).trans h3⟩

/-- A new `struct file` takes over a reference of a function. -/
theorem newFile {held : List Nat} (hheld : g.held = a :: held) :
    MemOk { g with held := held, handles := (w.mem.nextAddr, a) :: g.handles } (w.fileOpened a) := by
  have hadd : MemOk g (w.fileOpened a) := by
    refine { h with freeMap := ?_, cell := fun b k hk => ?_, handle := fun f b hb => ?_ }
    · obtain ⟨f0, a0, i0, pos, hlt, hf0, hfile, hrest⟩ := h.freeMap
      exact ⟨f0, a0, i0, pos, Nat.lt_succ_of_lt hlt, hf0, (Fs.setFile_ne _ _ (Nat.ne_of_lt hlt)).trans hfile, hrest⟩
    · obtain ⟨h1, h2⟩ := h.cell b k hk
      exact ⟨Nat.lt_succ_of_lt h1, h2⟩
    · obtain ⟨h1, h2, pos, h3⟩ := h.handle f b hb
      exact ⟨Nat.lt_succ_of_lt h1, h2, pos, (Fs.setFile_ne _ _ (Nat.ne_of_lt h1)).trans h3⟩
  refine hadd.perm _ (fun _ _ _ _ => rfl) ?_ (fun f b hb => ?_) (nodup_cons.mpr ⟨fun hmem => ?_, h.handlesNodup⟩)
  · show (held ++ a :: g.handles.map (·.2)).Perm (g.held ++ g.handles.map (·.2))
    rw [hheld]
    exact perm_middle
  · rcases mem_cons.mp hb with he | hb
    · cases he
      refine ⟨Nat.lt_succ_self _, fun hmap => ?_, 0, Fs.setFile_self _ _ _⟩
      obtain ⟨f0, a0, i0, pos, hlt, hf0, -⟩ := h.freeMap
      exact absurd (Option.some.inj (hf0.symm.trans hmap)) (Nat.ne_of_lt hlt)
    · exact hadd.handle f b hb
  · exact absurd (h.handle _ _ hmem).1 (Nat.lt_irrefl _)

end

end MemOk

/-- What is open at an address is the inode of the sector that it was: addresses are not used again. -/
structure SameCells (w w' : World) : Prop where
  next : w.mem.nextAddr ≤ w'.mem.nextAddr
  old : ∀ a j, w'.mem.inodes a = some j → a < w.mem.nextAddr → ∃ i, w.mem.inodes a = some i ∧ j.sector = i.sector

namespace SameCells

variable {w w' w'' : World}

theorem of_eq (hnext : w.mem.nextAddr ≤ w'.mem.nextAddr) (h : w'.mem.inodes = w.mem.inodes) : SameCells w w' where
  next := hnext
  old a j hj _ := by
    rw [h] at hj
    exact ⟨j, hj, rfl⟩

theorem trans (h1 : SameCells w w') (h2 : SameCells w' w'') : SameCells w w'' where
  next := h1.next.trans h2.next
  old a j hj ha := by
    obtain ⟨k, hk, hkj⟩ := h2.old a j hj (Nat.lt_of_lt_of_le ha h1.next)
    obtain ⟨i, hi, hik⟩ := h1.old a k hk ha
    exact ⟨i, hi, hkj.trans hik⟩

theorem setInode {j : Inode} (hnext : w.mem.nextAddr ≤ w'.mem.nextAddr)
    (h : w'.mem.inodes = (w.mem.setInode a (some j)).inodes) (hi : w.mem.inodes a = some i) (hs : j.sector = i.sector) :
    SameCells w w' where
  next := hnext
  old b k hk _ := by
    rw [h] at hk
    rcases Fs.setInode_cases hk with ⟨rfl, rfl⟩ | ⟨-, hk⟩
    · exact ⟨i, hi, hs⟩
    · exact ⟨k, hk, rfl⟩

theorem freeInode (hnext : w.mem.nextAddr ≤ w'.mem.nextAddr) (h : w'.mem.inodes = (w.mem.setInode a none).inodes) :
    SameCells w w' where
  next := hnext
  old b k hk _ := by
    rw [h] at hk
    rcases eq_or_ne b a with rfl | hne
    · rw [Fs.setInode_self] at hk
      cases hk
    · rw [Fs.setInode_ne _ _ hne] at hk
      exact ⟨k, hk, rfl⟩

end SameCells

/-- Every file is untouched, and the open inodes are those of their sectors. -/
structure Kept (g : Ghost) (w w' : World) : Prop where
  files : ∀ s o, g.objs s = some o → Untouched w w' s o.data
  cells : SameCells w w'

theorem Untouched.refl {w : World} (h : FileOk w s d) : Untouched w w s d := ⟨h, fun _ => Iff.rfl, fun _ _ => rfl⟩

theorem Untouched.trans {w w' w'' : World} (h1 : Untouched w w' s d) (h2 : Untouched w' w'' s d) : Untouched w w'' s d :=
  ⟨h2.file, fun x => (h2.owns x).trans (h1.owns x), fun k hk => (h2.bytes k hk).trans (h1.bytes k hk)⟩

/-- Where sectors and bits are as they were, so are the files. -/
theorem Store.untouched {g : Ghost} {w v : World} (h : Store g w) (hdev : v.dev = w.dev)
    (hbits : v.mem.freeMap = w.mem.freeMap) (s : Nat) (o : Obj) (hs : g.objs s = some o) : Untouched w v s o.data :=
  (h.disk.file s o hs).untouched (by rw [hdev]) (fun x hx => by rw [hbits]; exact (h.disk.owned hs hx).2.2)
    (fun _ _ => by rw [hdev])

end Pintos
