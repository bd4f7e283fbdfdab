import Pintos.Lemmas.Create
import Pintos.Theorems.FileTable

/-!
# `filesys_create` is not all or nothing

When `filesys_create` fails it gives the sector of the inode back, and no other. The data sectors that `inode_create` has
marked stay marked, and so do those that `dir_add` has marked for a directory that then could not grow.
-/

namespace Pintos

open Program

variable (w : World) (n : Nat) (name : CString) (initialSize : Int)

/-- There is at most one free sector. -/
def World.AtMostOneFree : Prop :=
  ∀ x y, x < w.mem.bitCnt → y < w.mem.bitCnt → w.mem.freeMap x = false → w.mem.freeMap y = false → x = y

/-- The name is empty or too long, or there is an entry of that name. -/
def World.Refuses : Prop :=
  (name.strlen = 0 ∨ nameMax < name.strlen) ∨ w.rootEntries.any (fun e => e.isNamed name) = true

/-- The free map and the entries of the root directory are what they were. -/
def Unchanged (v : World) : Prop := v.mem.freeMap = w.mem.freeMap ∧ v.rootEntries = w.rootEntries

/-- A failing `filesys_create` of so many bytes leaves nothing behind. -/
def World.FailsCleanly : Prop :=
  w.MallocFails ∨ w.AtMostOneFree ∨ (initialSize = 0 ∧ w.Refuses name)

section

variable {w u : World} {E : Nat → Prop} {a : Nat} {i : Inode} {name : CString}

/-- The stages from where the inode has been made, when nothing but its sector is to be given back. -/
theorem Taken.createEnd {s : Nat} (h : Taken w u E a i s) (hs : s ≠ 0) (name : CString) :
    Yields false (createEnd a name s false) (fun _ v => Unchanged w v) u := by
  show Yields false ((if (!false) = true ∧ s ≠ 0 then freeMapRelease s else pure ()) >>= fun _ => dirClose (some a) >>=
    fun _ => pure false) _ u
  rw [if_pos ⟨rfl, hs⟩]
  exact h.undone

/-- With a free sector for the inode, whether another is free. -/
theorem atMostOneFree_iff {s : Nat} (hs : s < w.mem.bitCnt) (hfree : w.mem.freeMap s = false) :
    w.AtMostOneFree ↔ ∀ x < w.mem.bitCnt, x ≠ s → w.mem.freeMap x = true := by
  refine ⟨fun h x hx hne => ?_, fun h x y hx hy hfx hfy => ?_⟩
  · by_contra hf
    exact hne (h x s hx hs (Bool.eq_false_iff.mpr hf) hfree)
  have hone : ∀ z < w.mem.bitCnt, w.mem.freeMap z = false → z = s := by
    intro z hz hfz
    by_contra hne
    cases (h z hz hne).symm.trans hfz
  rw [hone x hx hfx, hone y hy hfy]

/-- The entry is added, or not, to a directory that is open, after an empty file has been made for it. -/
theorem RootOpen.createEnd {s : Nat} (h : RootOpen u E a i) (ht : Taken w u E a i s) (hs : s ≠ 0)
    (hcnt : u.mem.bitCnt = w.mem.bitCnt) (hheap : ¬w.MallocFails) (hsector : s < 2 ^ 32) :
    Yields false (Pintos.createEnd a name s true) (fun r v => r = false → (Unchanged w v ↔ w.FailsCleanly name 0)) u := by
  have hbits : ∀ x, x ≠ s → u.mem.freeMap x = w.mem.freeMap x := by
    intro x hx
    rw [ht.bits]
    exact if_neg hx
  have hslots := ht.entries
  have hone := atMostOneFree_iff (hcnt ▸ ht.inMap) ht.free
  -- Where the name is refused nothing has happened since.
  have hrefused : w.Refuses name → Yields false (Pintos.createEnd a name s false)
    (fun r v => r = false → (Unchanged w v ↔ w.FailsCleanly name 0)) u :=
    fun hr => (ht.createEnd hs name).mono (fun _ v hv _ => ⟨fun _ => .inr (.inr ⟨rfl, hr⟩), fun _ => hv⟩)
  unfold Pintos.createEnd
  have hadd : Yields false (dirAdd a name s) (fun r v => r = false →
      (w.Refuses name ∧ v = u) ∨ (¬w.Refuses name ∧ ∃ d, EntryFailed u v E a i d)) u := by
    refine h.readable.dirAdd (fun _ _ => trivial) (fun hv _ => .inl ⟨.inl ?_, rfl⟩)
      (fun hany _ => .inl ⟨.inr (hslots ▸ hany), rfl⟩) (fun hv hnone => ?_)
    · have := mt decide_eq_true hv
      omega
    have hfits := (u.last_fits i.data ((u.slots i.data).findIdx (fun e => !e.inUse) + 1)).fill name hsector
    refine (h.writeEntry List.findIdx_le_length hfits).mono (fun r v hr hfalse => .inr ⟨?_, hr hfalse⟩)
    have hvalid := of_decide_eq_true hv
    rintro (hbad | hany)
    · omega
    · rw [← hslots, hnone] at hany
      cases hany
  refine hadd.bind (fun success v hv => ?_)
  cases success with
  | true =>
    refine (Yields.of_all (fun _ _ => trivial)).bind (fun _ _ _ => ?_)
    exact (Yields.of_all (fun _ _ => trivial)).bind (fun _ _ _ => Yields.pure_iff.mpr nofun)
  | false =>
    rcases hv rfl with ⟨hr, rfl⟩ | ⟨hr, d, hfail⟩
    · exact hrefused hr
    by_cases hfew : w.AtMostOneFree
    · -- The sector of the inode was the only one: there was none for the directory, which is what it was.
      have hfull : ∀ x < u.mem.bitCnt, u.mem.freeMap x = true := by
        intro x hx
        by_cases hxs : x = s
        · rw [ht.bits]
          exact if_pos hxs
        · exact (hbits x hxs).trans (hone.mp hfew x (hcnt ▸ hx) hxs)
      exact ((hfail.taken h hfull ht).createEnd hs name).mono (fun _ v hv _ => ⟨fun _ => .inr (.inl hfew), fun _ => hv⟩)
    · -- Another sector was free, and it is marked now.
      obtain ⟨x, hx, hxs, hfree⟩ : ∃ x < w.mem.bitCnt, x ≠ s ∧ w.mem.freeMap x = false := by simpa using mt hone.mpr hfew
      have hcell : v.mem.inodes a = some { i with data := d, extending := true } := by
        rw [hfail.mem]
        exact Fs.setInode_self _ _ _
      refine (OnlyMarks.rest hcell h.kept (hfail.full x (hcnt ▸ hx)) hxs false name).mono (fun _ v hv _ =>
        ⟨fun hsame => ?_, fun hc => ?_⟩)
      · rw [hsame.1, hfree] at hv
        cases hv
      · rcases hc with hc | hc | ⟨-, hc⟩
        · exact absurd hc hheap
        · exact absurd hc hfew
        · exact absurd hc hr

/-- The stages from where the root directory is open. -/
theorem RootOpened.createIn {initialSize : Int} (h0 : 0 ≤ initialSize) (h1 : initialSize ≤ 2147483647)
    (hopen : RootOpened w E (some a) u) :
    Yields false (createIn a name initialSize) (fun r v => r = false → (Unchanged w v ↔ w.FailsCleanly name initialSize)) u := by
  obtain ⟨hbits, hcnt, hmalloc, i, hroot, hslots⟩ := hopen
  have hin : rootDirSector < u.dev.size := hroot.sector ▸ hroot.file.own.1
  refine (Runs.freeMapAllocate hroot.state).yields.bind ?_
  rintro r v (⟨s, dev, rfl, ⟨hs, hfree, -⟩, rfl, hdev, hstate⟩ | ⟨rfl, -, hv, hfull⟩)
  · have hs0 : s ≠ 0 := by
      rintro rfl
      cases hroot.first.symm.trans hfree
    have hsector : s < 2 ^ 32 := by
      have h1 := hroot.whole
      have h2 : u.dev.size ≤ 4294967295 := hroot.numbered
      omega
    have hfree' : w.mem.freeMap s = false := hbits ▸ hfree
    have hother : ∀ x, x ≠ s → (u.mem.setBit s true).freeMap x = w.mem.freeMap x :=
      fun x hx => (if_neg hx).trans (congrFun hbits x)
    have hset : (u.mem.setBit s true).freeMap = (w.mem.setBit s true).freeMap := by
      unfold Fs.setBit
      rw [hbits]
    -- Whatever is written to the new sector, the directory is what it was.
    have hkeep : ∀ (next : Nat) (c : InodeDisk) (heap : Nat → Bool) (disk : Nat → Contents), (∀ x, x ≠ s → disk x = dev.disk x) →
        let v : World := { mem := { u.mem.setBit s true with nextAddr := next, diskInode := c },
                           dev := { dev with disk := disk }, heap := heap }
        RootOpen v E a i ∧ Taken w v E a i s := by
      intro next c heap disk hdisk v
      have hused : ∀ x, u.mem.freeMap x = true → x ≠ s := by
        rintro x hx rfl
        rw [hx] at hfree
        cases hfree
      have hst : FreeMapState v E :=
        hstate.frame rfl rfl rfl (fun _ _ _ hf => ⟨hf, rfl⟩) rfl (fun x hx => hdisk x (hused x (hroot.marked x hx)))
      obtain ⟨hr, hsl⟩ := hroot.frame hst rfl rfl ⟨rfl, rfl⟩ (fun x hx => (if_neg (hused x hx)).trans hx) rfl hdev.size
        (fun x hx hE => (hdisk x (hused x hx)).trans (hdev.same x hE))
      exact ⟨hr, hr.taken hs hfree' hset (hsl.trans hslots)⟩
    refine (Yields.inodeCreate hstate s h0 h1).bind (fun made v hmade => ?_)
    cases hmade with
    | noMemory hheap =>
      refine Yields.mono (Taken.createEnd (hkeep _ _ _ dev.disk (fun _ _ => rfl)).2 hs0 name) (fun _ v hv _ => ?_)
      exact ⟨fun _ => .inl (hmalloc.mpr hheap), fun _ => hv⟩
    | noSector hn hfull =>
      refine Yields.mono (Taken.createEnd (hkeep _ _ _ dev.disk (fun _ _ => rfl)).2 hs0 name) (fun _ v hv _ => ?_)
      refine ⟨fun _ => .inr (.inl ((atMostOneFree_iff (hcnt ▸ hs) hfree').mpr fun x hx hne => ?_)), fun _ => hv⟩
      exact (hother x hne).symm.trans (hfull x (hcnt ▸ hx))
    | empty hheap hn c =>
      subst hn
      obtain ⟨hr, ht⟩ := hkeep (u.mem.nextAddr + 1) c (fun k => u.heap (k + 1)) (fun y => if y = s then c else dev.disk y)
        (fun x hx => if_neg hx)
      exact hr.createEnd ht hs0 hcnt (fun hf => absurd (hheap.symm.trans (hmalloc.mp hf)) (by decide)) hsector
    | marked hheap hn hv hx hfreex hmark =>
      rename_i x
      have hxs : x ≠ s := by
        rintro rfl
        cases (if_pos rfl).symm.trans hfreex
      have hfreew : w.mem.freeMap x = false := (hother x hxs).symm.trans hfreex
      obtain ⟨j, hj, -, -, hjr⟩ := hv.cells a i hroot.cell
      refine (OnlyMarks.rest hj (hjr.trans hroot.kept) hmark hxs made name).mono (fun _ v hv' _ =>
        ⟨fun hsame => ?_, fun hc => ?_⟩)
      · rw [hsame.1, hfreew] at hv'
        cases hv'
      · rcases hc with hc | hc | ⟨hc, -⟩
        · cases hheap.symm.trans (hmalloc.mp hc)
        · exact absurd (hc x s (hcnt ▸ hx) (hcnt ▸ hs) hfreew hfree') hxs
        · omega
  · subst v
    refine (hroot.toRootCell.dirClose hin (hroot.sector ▸ hroot.file.notMapped)).yields.bind (fun _ v hv =>
      Yields.pure_iff.mpr (fun _ => ?_))
    have hfull' : ∀ x < w.mem.bitCnt, w.mem.freeMap x = true := by
      rw [← hbits, ← hcnt]
      exact hfull
    refine ⟨fun _ => .inr (.inl (fun x y hx _ hfx _ => absurd ((hfull' x hx).symm.trans hfx) (by decide))), fun _ => ?_⟩
    exact ⟨hv.1.trans hbits, hv.2.trans hslots⟩

end

/-- A file system that stands for a table of files is as `filesys_create` needs it. -/
theorem Represents.rootReady {t : FileTable} {g : Ghost} {w : World} {d : InodeDisk} (h : Represents t g w d) :
    RootReady w g.E := by
  have hdata : w.inodeData rootDirSector = d := h.store.inodeData_eq h.root
  have hne : rootDirSector ≠ freeMapSector := by decide
  have hapart : ∀ x, w.owns rootDirSector d x → ¬g.E x := fun x hx hE => h.store.disk.apart _ _ h.root x hx (.inr (.inl hE))
  refine
    { growable := ?_
      entries := by rw [hdata]; exact h.whole
      own := hapart _ (.inl rfl)
      first := (h.store.disk.used _).mpr (.inl (.inl rfl))
      settled := fun a i hfind hi => ?_
      alone := fun a hfind b hb j hj hs => ?_
      fresh := ⟨fun b hb => ?_, fun f file hf hfile => ?_⟩ }
  · rw [hdata]
    exact
      { file := h.store.disk.file _ _ h.root
        state := h.store.state
        marked := fun x hx => (h.store.disk.used x).mpr (.inl (.inr (.inl hx)))
        apart := fun p hp => hapart _ (.inr ⟨p, hp, rfl⟩)
        whole := h.store.disk.whole
        numbered := h.store.disk.numbered }
  · obtain ⟨k, hk, hs⟩ := Fs.findOpen_some hfind
    obtain rfl : k = i := Option.some.inj (hk.symm.trans hi)
    obtain ⟨-, -, hext, hdeny⟩ := h.store.mem.cell a k hi
    obtain ⟨hobj, -, -⟩ := h.store.mem.obj a k hi (hs ▸ hne)
    rw [hs, h.root] at hobj
    exact ⟨(congrArg Obj.removed (Option.some.inj hobj)).symm, hext, hdeny, h.store.mem.notFreeMap hi (hs ▸ hne)⟩
  · obtain ⟨k, hk, hks⟩ := Fs.findOpen_some hfind
    obtain rfl := h.store.mem.unique a b k j hk hj (hks.trans hs.symm)
    exact ((List.Nodup.mem_erase_iff h.store.mem.nodup).mp hb).1 rfl
  · obtain ⟨i, hi⟩ := h.store.mem.listed b hb
    exact (h.store.mem.cell b i hi).1
  · obtain ⟨f0, a, i, pos, -, hf0, hfile0, hi, -⟩ := h.store.mem.freeMap
    obtain rfl : f0 = f := Option.some.inj (hf0.symm.trans hf)
    cases hfile0.symm.trans hfile
    exact Nat.ne_of_lt (h.store.mem.cell a i hi).1

/-- A `filesys_create` that returns false leaves the free map and the entries of the root directory as they were exactly when
a call of `malloc` has failed, or there was no free sector or just one, or an empty file was asked for and the name
refused. -/
theorem filesys_create_all_or_nothing {w v : World} {E : Nat → Prop} (h : RootReady w E) {name : CString} {initialSize : Int}
    (h0 : 0 ≤ initialSize) (h1 : initialSize ≤ 2147483647)
    (hrun : (filesysCreate name initialSize).run (FsOp.exec false) w = .ok (false, v)) :
    Unchanged w v ↔ w.FailsCleanly name initialSize := by
  have hyields : Yields false (filesysCreate name initialSize)
      (fun r v => r = false → (Unchanged w v ↔ w.FailsCleanly name initialSize)) w := by
    rw [filesysCreate_eq]
    refine h.dirOpenRoot.bind (fun r u hopen => ?_)
    cases r with
    | some a => exact hopen.createIn h0 h1
    | none => exact Yields.pure_iff.mpr (fun _ => ⟨fun _ => .inl hopen.2.1, fun _ => ⟨hopen.1, hopen.2.2⟩⟩)
  exact hyields.ok hrun rfl

/-- A zeroed disk of so many sectors when the kernel starts, with memory for everything. -/
def zeroedSectors : World where
  mem := Fs.boot
  dev := { size := n, disk := fun _ => Contents.fill 0 }
  heap _ := true

/-- The disk is formatted and a file is created. -/
theorem zeroedSectors_create (t0 : Unit → World → Bool) (t : Bool → World → Bool)
    (hn : 2 ≤ n ∧ n ≤ 1552384) (hinit : ((filesysInit n true).run (FsOp.exec true) (zeroedSectors n)).isOk = true)
    (hpass0 : (filesysInit n true).passes t0 (zeroedSectors n) = true)
    (hpass : (filesysInit n true >>= fun _ => filesysCreate name initialSize).passes t (zeroedSectors n) = true) :
    ∃ w E, RootReady w E ∧ t0 () w = true ∧
      ∃ r v, (filesysCreate name initialSize).run (FsOp.exec false) w = .ok (r, v) ∧ t r v = true := by
  obtain ⟨⟨⟩, w, hw, ht0⟩ := FsM.run_of_passes hpass0
  obtain ⟨r, v, hrun, ht⟩ := FsM.run_of_passes hpass
  rw [Prog.run_bind, hw] at hrun
  cases hstrict : (filesysInit n true).run (FsOp.exec true) (zeroedSectors n) with
  | error e =>
    rw [hstrict] at hinit
    cases hinit
  | ok u =>
    obtain rfl : u = ((), w) := Except.ok.inj ((FsM.run_of_strict hstrict).symm.trans hw)
    obtain ⟨E, d, hfmt⟩ := (Runs.filesysInit_format rfl hn).yields.ok hstrict
    exact ⟨w, E, (hfmt.represents (fun _ => rfl)).rootReady, ht0, r, v, hrun, ht⟩

/-- On a disk of four sectors there is none for a file. -/
theorem zeroedSectors_full : ∃ w v, (∃ E, RootReady w E) ∧
    (filesysCreate (cstr [97]) 0).run (FsOp.exec false) w = .ok (false, v) ∧
    w.FailsCleanly (cstr [97]) 0 ∧ Unchanged w v := by
  obtain ⟨w, E, hready, ht0, r, v, hrun, ht⟩ := zeroedSectors_create 4 (cstr [97]) 0
    (fun _ w => w.mem.bitCnt == 4 && (List.range 4).all w.mem.freeMap) (fun r _ => !r) (by decide) (by decide +kernel)
    (by decide +kernel) (by decide +kernel)
  obtain ⟨hcnt, hmarked⟩ := Bool.and_eq_true_iff.mp ht0
  obtain rfl : r = false := by simpa using ht
  have hfull : w.AtMostOneFree := by
    intro x y hx _ hfx _
    have := List.all_eq_true.mp hmarked x (List.mem_range.mpr (beq_iff_eq.mp hcnt ▸ hx))
    rw [hfx] at this
    cases this
  have hclean : w.FailsCleanly (cstr [97]) 0 := .inr (.inl hfull)
  exact ⟨w, v, ⟨E, hready⟩, hrun, hclean, (filesys_create_all_or_nothing hready (by decide) (by decide) hrun).mpr hclean⟩

/-- A file of one byte without a name is refused on a disk of eight sectors, and sector 5, taken for its byte, stays
marked. -/
theorem zeroedSectors_leak : ∃ w v, (∃ E, RootReady w E) ∧ (filesysCreate (cstr []) 1).run (FsOp.exec false) w = .ok (false, v) ∧
    ¬Unchanged w v := by
  obtain ⟨w, E, hready, ht0, r, v, hrun, ht⟩ := zeroedSectors_create 8 (cstr []) 1 (fun _ w => !w.mem.freeMap 5)
    (fun r v => !r && v.mem.freeMap 5) (by decide) (by decide +kernel) (by decide +kernel) (by decide +kernel)
  obtain ⟨hr, hmarked⟩ := Bool.and_eq_true_iff.mp ht
  obtain rfl : r = false := by simpa using hr
  refine ⟨w, v, ⟨E, hready⟩, hrun, fun hsame => ?_⟩
  rw [hsame.1] at hmarked
  rw [hmarked] at ht0
  cases ht0

end Pintos
