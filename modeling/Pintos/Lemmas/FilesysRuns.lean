import Pintos.Lemmas.DirRuns

/-!
# The calls of the file system

What `filesys_create`, `filesys_open` and `filesys_remove` do to the store, each put together from the rules of the layers
below. The root directory is opened at the start of each and closed at its end.
-/

namespace Pintos

open Program Ghost List

variable {a k : Nat} {g' : Ghost} {v : World} {held : List Nat} {i : Inode} {g : Ghost} {w : World} {d : InodeDisk}

/-- An entry of a file ends where the file ends at the latest. -/
theorem slot_end_le {length n : Int} (hk : k < length.toNat / dirEntrySize) (hn : length ≤ n) : dirEntrySize * (k + 1) ≤ n := by
  unfold dirEntrySize at hk ⊢
  omega

theorem isNamed_of_findIdx? {slots : List DirEntry} {name : CString} {e : DirEntry} (hk : slots[k]? = some e)
    (hfind : slots.findIdx? (·.isNamed name) = some k) : e.isNamed name = true := by
  obtain ⟨hlt, hp, -⟩ := findIdx?_eq_some_iff_getElem.mp hfind
  rwa [(List.getElem?_eq_some_iff.mp hk).2] at hp

theorem Kept.trans {g : Ghost} {w u : World} (h : Kept g w v) (h' : Kept g' v u)
    (hobjs : ∀ s o, g.objs s = some o → g'.objs s = some o) : Kept g w u :=
  ⟨fun s o ho => (h.files s o ho).trans (h'.files s o (hobjs s o ho)), h.cells.trans h'.cells⟩

namespace Store

/-- The inode that a function has a reference to is there, and is the one it was. -/
theorem held_cell (h : Store g w) (ha : a ∈ g.addrs) (hv : Store g' v) (hcells : SameCells v w) {j : Inode}
    (hj : v.mem.inodes a = some j) : ∃ i, w.mem.inodes a = some i ∧ i.sector = j.sector := by
  obtain ⟨i, hi, -⟩ := h.mem.live a ha
  obtain ⟨k, hk, hik⟩ := hcells.old a i hi (hv.mem.cell a j hj).1
  cases hj.symm.trans hk
  exact ⟨i, hi, hik⟩

theorem root_cell (h : Store g w) (hroot : g.objs rootDirSector = some (.present d)) (hi : w.mem.inodes a = some i)
    (hs : i.sector = rootDirSector) : i.data = d ∧ i.removed = false := by
  obtain ⟨hobj, -, -⟩ := h.mem.obj a i hi (by rw [hs]; decide)
  rw [hs] at hobj
  exact Obj.mk.inj (Option.some.inj (hobj.symm.trans hroot))

/-- The root directory that a function has a reference to is there. -/
theorem held_root (h : Store g w) (ha : a ∈ g.addrs) (hroot : g.objs rootDirSector = some (.present d))
    (hv : Store g' v) (hcells : SameCells v w) {j : Inode} (hj : v.mem.inodes a = some j) (hs : j.sector = rootDirSector) :
    ∃ i, w.mem.inodes a = some i ∧ i.sector = rootDirSector ∧ i.data = d ∧ i.removed = false := by
  obtain ⟨i, hi, hij⟩ := h.held_cell ha hv hcells hj
  exact ⟨i, hi, hij.trans hs, h.root_cell hroot hi (hij.trans hs)⟩

/-- `malloc` touches no file. -/
theorem alloc (h : Store g w) (heap : Nat → Bool) :
    let v : World := { w with mem := { w.mem with nextAddr := w.mem.nextAddr + 1 }, heap := heap }
    Store g v ∧ Kept g w v :=
  h.withMem g rfl rfl rfl rfl rfl rfl rfl (fun _ _ _ hf => ⟨hf, rfl⟩) (h.mem.congr rfl rfl rfl (Nat.le_succ _) rfl)
    (fun b k hk => ⟨b, k, hk, rfl⟩) (.of_eq (Nat.le_succ _) rfl)

theorem dirOpenRoot (h : Store g w) (hroot : g.objs rootDirSector = some (.present d)) :
    Runs true dirOpenRoot (fun r v => ∃ a i, r = some a ∧ Store { g with held := a :: g.held } v ∧ v.mem.inodes a = some i ∧
      i.sector = rootDirSector ∧ i.data = d ∧ i.removed = false ∧ Kept g w v) w := by
  refine (h.inodeOpen hroot).bind ?_
  rintro _ v ⟨a, rfl, hst, ⟨i, hi, hs⟩, hkept⟩
  refine Runs.malloc_bind (.inl rfl) (fun heap _ => Runs.pure_iff.mpr ?_)
  obtain ⟨hst', hkept'⟩ := hst.alloc heap
  obtain ⟨hd, hr⟩ := hst.root_cell hroot hi hs
  exact ⟨a, i, rfl, hst', hi, hs, hd, hr, hkept.trans hkept' fun _ _ ho => ho⟩

theorem dirClose (h : Store g w) (hheld : g.held = a :: held) (hi : w.mem.inodes a = some i)
    (hs : i.sector = rootDirSector) (hrem : i.removed = false) :
    Runs true (dirClose (some a)) (fun _ v => Store { g with held := held } v ∧ Kept g w v) w := by
  refine (h.inodeClose hi (by rw [hs]; decide) hheld).mono ?_
  rintro _ v ⟨hst, hkept, -⟩
  rw [hrem, release_keep (fun hc => Bool.false_ne_true hc.1)] at hst hkept
  exact ⟨hst, hkept.files, hkept.cells⟩

/-- A new file that is still empty can be turned back into a sector in hand. -/
theorem unmake {s : Nat} {o : Obj} (h : Store (g.put s o) w) (hnone : g.objs s = none) (hspare : g.spare = none)
    (hlen : o.data.length = 0)
    (hclosed : ∀ a i, w.mem.inodes a = some i → i.sector ≠ s) : Store { g with spare := some s } w := by
  have hown : ∀ x, w.owns s o.data x ↔ x = s := by
    intro x
    refine ⟨?_, .inl⟩
    rintro (rfl | ⟨p, hp, -⟩)
    · rfl
    have hblocks : (w.blocksOf o.data).blocks = 0 := by
      show (o.data.length.toNat + 511) / 512 = 0
      rw [hlen]
      rfl
    rw [hblocks] at hp
    cases p <;> simp [MapSlot.InUse] at hp
  have hobjs : ∀ t, t ≠ s → g.objs t = (g.put s o).objs t := fun t ht => (g.put_ne o ht).symm
  have hfile := h.disk.file s o (g.put_self s o)
  refine ⟨h.state, ?_, ?_, fun t p ht => ?_⟩
  · refine h.disk.change s rfl rfl rfl hobjs (fun t p _ ht => .refl (h.disk.file t p ht)) ?_ (fun x => ?_) (fun x hx => ?_)
    · intro p hp
      cases hnone.symm.trans hp
    · rw [h.disk.used, (g.put s o).files_iff w s, g.put_self]
      show _ ∨ g.spare = some x ↔ _ ∨ (∃ p, g.objs s = some p ∧ _) ∨ some s = some x
      simp only [hnone, hspare, hown, Option.some.injEq, exists_eq_left', reduceCtorEq, false_and, exists_false, false_or,
        or_false, eq_comm]
    · cases hx
      exact ⟨hfile.own.1, h.disk.apart s o (g.put_self s o) s (.inl rfl), fun p hp => by
        cases hnone.symm.trans hp⟩
  · exact h.mem.perm _ (fun a i hi hne => hobjs _ (hclosed a i hi)) (.refl _) h.mem.handle h.mem.handlesNodup
  · have hne : t ≠ s := by
      rintro rfl
      cases hnone.symm.trans ht
    exact h.onDisk t p ((hobjs t hne).symm.trans ht)

theorem reorder (h : Store g w) (hp : held.Perm g.held) : Store { g with held := held } w :=
  { h with
    disk := h.disk.same rfl rfl rfl rfl rfl rfl (h.untouched rfl rfl)
    mem := h.mem.perm _ (fun _ _ _ _ => rfl) (hp.append_right _) h.mem.handle h.mem.handlesNodup }

/-- `file_open` of the null pointer. -/
theorem fileOpen_none (h : Store g w) : Runs true (Pintos.fileOpen none) (fun r v => r = none ∧ Store g v ∧ Kept g w v) w := by
  refine Runs.malloc_bind (.inl rfl) (fun heap _ => ?_)
  simp only
  exact Runs.pure_iff.mpr ⟨rfl, h.alloc heap⟩

theorem filesysOpen (h : Store g w) (hroot : g.objs rootDirSector = some (.present d))
    (hfiles : ∀ e ∈ w.slots d, e.inUse = true → ∃ o, g.objs e.inodeSector = some o) (name : CString) :
    Runs true (Pintos.filesysOpen name) (fun r v => Kept g w v ∧
      ((r = none ∧ (w.slots d).any (·.isNamed name) = false ∧ Store g v) ∨
        ∃ f a i e, r = some f ∧ e ∈ w.slots d ∧ e.isNamed name = true ∧ (∀ b, (f, b) ∉ g.handles) ∧ v.mem.inodes a = some i ∧
          i.sector = e.inodeSector ∧ Store { g with handles := (f, a) :: g.handles } v)) w := by
  refine (h.dirOpenRoot hroot).bind ?_
  rintro _ v ⟨a, i, rfl, hst, hi, hs, rfl, hrem, hkept⟩
  have hne : i.sector ≠ freeMapSector := by rw [hs]; decide
  have hslots : v.slots i.data = w.slots i.data := (hkept.files _ _ hroot).slots
  simp only
  unfold dirLookup
  rw [bind_assoc]
  refine ((hst.readable hi hne).lookup name).bind ?_
  rw [hslots]
  rintro _ _ ⟨⟨rfl, hnone⟩ | ⟨j, e, rfl, hj, hfind⟩, rfl⟩
  · rw [pure_bind]
    refine (hst.dirClose rfl hi hs hrem).bind ?_
    rintro _ u ⟨hst', hkept'⟩
    refine (Store.fileOpen_none hst').mono ?_
    rintro _ x ⟨rfl, hst'', hkept''⟩
    exact ⟨(hkept.trans hkept' fun _ _ ho => ho).trans hkept'' fun _ _ ho => ho, .inl ⟨rfl, hnone, hst''⟩⟩
  · have he : e ∈ w.slots i.data := mem_of_getElem? hj
    have hnamed := isNamed_of_findIdx? hj hfind
    obtain ⟨o, ho⟩ := hfiles e he (Bool.and_eq_true_iff.mp hnamed).1
    refine (hst.inodeOpen ho).bind ?_
    rintro _ u ⟨b, rfl, hst', ⟨k, hk, hks⟩, hkept'⟩
    obtain ⟨i', hi', hs', -, hrem'⟩ := hst'.held_root (by simp [addrs]) hroot hst hkept'.cells hi hs
    refine ((hst'.reorder (List.Perm.swap b a g.held)).dirClose rfl hi' hs' hrem').bind ?_
    rintro _ x ⟨hst'', hkept''⟩
    refine (Store.fileOpen hst'' rfl).mono ?_
    rintro _ y ⟨f, rfl, hfresh, hst3, hkept3, hinodes⟩
    refine ⟨((hkept.trans hkept' fun _ _ ho => ho).trans hkept'' fun _ _ ho => ho).trans hkept3 fun _ _ ho => ho, .inr ?_⟩
    obtain ⟨k', hk', hks'⟩ := hst3.held_cell (by simp [addrs]) hst' (hkept''.cells.trans hkept3.cells) hk
    exact ⟨f, b, k', e, rfl, he, hnamed, hfresh, hk', hks'.trans hks, hst3⟩

end Store

/-- The `struct file` refers to the file at the sector. -/
def Ghost.RefersTo (g : Ghost) (w : World) (f s : Nat) : Prop := ∃ a i, (f, a) ∈ g.handles ∧
    w.mem.inodes a = some i ∧ i.sector = s

/-- Some `struct file` refers to the file. -/
def Ghost.IsOpen (g : Ghost) (w : World) (s : Nat) : Prop := ∃ f, g.RefersTo w f s

/-- What `filesys_remove` leaves where it finds the name: entry `k` is free, and its file is marked as removed if it is open,
and gone if it is not. -/
structure NameRemoved (g : Ghost) (w v : World) (d : InodeDisk) (k : Nat) (e : DirEntry) (g' : Ghost)
    (d' : InodeDisk) : Prop where
  store : Store g' v
  idle : g'.spare = g.spare ∧ g'.held = g.held ∧ g'.handles = g.handles
  root : g'.objs rootDirSector = some { data := d', removed := false }
  whole : d'.length.toNat % dirEntrySize = 0
  slots : v.slots d' = (w.slots d).set k { e with inUse := false }
  others : ∀ s, s ≠ rootDirSector → s ≠ e.inodeSector → g'.objs s = g.objs s
  marked : g.IsOpen w e.inodeSector → g'.objs e.inodeSector = (g.objs e.inodeSector).map (fun o => { o with removed := true })
  gone : ¬g.IsOpen w e.inodeSector → g'.objs e.inodeSector = none
  files : ∀ s o o', s ≠ rootDirSector → g.objs s = some o → g'.objs s = some o' → o'.data = o.data ∧ Untouched w v s o.data
  cells : SameCells w v

namespace Store

/-- `dir_remove` in the root directory, to which the caller has the only reference of a function. -/
theorem dirRemove (h : Store g w) (hheld : g.held = [a]) (hi : w.mem.inodes a = some i) (hs : i.sector = rootDirSector)
    (hrem : i.removed = false) (hwhole : i.data.length.toNat % dirEntrySize = 0)
    (hfiles : ∀ e ∈ w.slots i.data, e.inUse = true → e.inodeSector ≠ rootDirSector ∧ ∃ o, g.objs e.inodeSector = some o)
    (name : CString) :
    Runs true (dirRemove a name) (fun r v =>
      (r = false ∧ (w.slots i.data).any (·.isNamed name) = false ∧ v = w) ∨
        ∃ k e g' d', r = true ∧ (w.slots i.data)[k]? = some e ∧ e.isNamed name = true ∧
        NameRemoved g w v i.data k e g' d') w := by
  have hne : i.sector ≠ freeMapSector := by rw [hs]; decide
  obtain ⟨hroot, -, -⟩ := h.mem.obj a i hi hne
  rw [hs] at hroot
  refine ((h.readable hi hne).lookup name).bind ?_
  rintro _ v ⟨⟨rfl, hnone⟩ | ⟨k, e, rfl, hk, hfind⟩, hv⟩ <;> subst v
  · exact Runs.pure_iff.mpr (.inl ⟨rfl, hnone, rfl⟩)
  have he : e ∈ w.slots i.data := mem_of_getElem? hk
  have hnamed := isNamed_of_findIdx? hk hfind
  obtain ⟨hes, o, ho⟩ := hfiles e he (Bool.and_eq_true_iff.mp hnamed).1
  refine (h.inodeOpen ho).bind ?_
  rintro _ u ⟨b, rfl, hst1, ⟨j, hj, hjs⟩, hkept1⟩
  -- the root directory is still open
  rw [hrem] at hroot
  obtain ⟨i', hi', hs', hdata', hrem'⟩ := hst1.held_root (by simp [addrs, hheld]) hroot h hkept1.cells hi hs
  have hab : b ≠ a := by
    rintro rfl
    cases hi'.symm.trans hj
    exact hes (hjs.symm.trans hs')
  have hslots1 : u.slots i'.data = w.slots i.data := by
    rw [hdata']
    exact (hkept1.files _ _ hroot).slots
  have hlt : k < (w.slots i.data).length := (List.getElem?_eq_some_iff.mp hk).1
  have hfits : ({ e with inUse := false } : DirEntry).Fits := ⟨(World.slots_fits he).name, (World.slots_fits he).sector⟩
  have hle : dirEntrySize * (k + 1) ≤ mapBytes := slot_end_le (World.slots_length w i.data ▸ hlt) (h.disk.file _ _ hroot).length.2
  refine (hst1.writeEntry hi' (by rw [hs']; decide) (hdata' ▸ hwhole) hfits (by rw [hslots1]; omega) hle).bind ?_
  rintro _ x ⟨rfl, d', hd', hwhole', hnew⟩
  rw [hslots1, endWithWrite_true, if_pos hlt] at hnew
  have hjs' : j.sector ≠ freeMapSector := by rw [hjs]; exact h.disk.sector_ne ho
  refine (hd'.store.inodeRemove ((hd'.cells b hab).trans hj) hjs').bind ?_
  rintro _ y ⟨hst2, hkept2, hjy⟩
  refine (hst2.inodeClose hjy hjs' rfl).bind ?_
  rintro _ z ⟨hst3, hkept3, -⟩
  -- what the files are now
  generalize hg3 : release _ b _ _ g.held = g3 at hst3 hkept3
  have hself : g3.objs e.inodeSector = if b ∈ g.handles.map (·.2) then some { data := j.data, removed := true } else none := by
    rw [← hg3]
    by_cases hb : b ∈ g.handles.map (·.2)
    · simp [release, addrs, put, hjs, hheld, hb]
    · simp only [release, addrs, put, hjs, hheld]
      simp [hb, hab]
  have hothers : ∀ s, s ≠ e.inodeSector → g3.objs s = if s = rootDirSector then some (.present d') else g.objs s := by
    intro s hne
    rw [← hg3]
    simp [release, put, hjs, hne, hs', hrem']
  have hroot3 := hothers rootDirSector hes.symm
  have hjobj : o = { data := j.data, removed := j.removed } := by
    obtain ⟨hobj, -, -⟩ := hst1.mem.obj b j hj hjs'
    rw [hjs] at hobj
    exact Option.some.inj (ho.symm.trans hobj)
  have hopen : b ∈ g.handles.map (·.2) ↔ g.IsOpen w e.inodeSector := by
    constructor
    · intro hb
      obtain ⟨⟨f, c⟩, hf, hc⟩ := mem_map.mp hb
      obtain rfl : c = b := hc
      obtain ⟨i0, hi0, -⟩ := h.mem.live c (mem_append_right _ hb)
      obtain ⟨i1, hi1, hsec⟩ := hkept1.cells.old c j hj (h.mem.cell c i0 hi0).1
      exact ⟨f, c, i1, hf, hi1, hsec.symm.trans hjs⟩
    · rintro ⟨f, c, i0, hf, hi0, hsec⟩
      have hc : c ∈ g.handles.map (·.2) := mem_map.mpr ⟨(f, c), hf, rfl⟩
      obtain ⟨l, hl, hls⟩ := hst1.held_cell (mem_append_right _ hc) h hkept1.cells hi0
      rwa [← hst1.mem.unique c b l j hl hj (hls.trans (hsec.trans hjs.symm))]
  have hroot2 : objs (put { g with held := b :: g.held } i'.sector { data := d', removed := i'.removed }) rootDirSector =
      some { data := d', removed := i'.removed } := by
    rw [← hs', put_self]
  refine Runs.pure_iff.mpr (.inr ⟨k, e, g3, d', rfl, hk, hnamed, hst3, hg3 ▸ ⟨rfl, rfl, rfl⟩, hroot3, hwhole', ?_,
    fun s h1 h2 => ?_, fun hop => ?_, fun hop => ?_, fun s o0 o' h1 hs0 hs3 => ?_, ?_⟩)
  · rw [← (Prod.mk.inj hnew).2, (hkept3.files _ _ hroot3).slots, (hkept2.files _ _ hroot2).slots]
  · rw [hothers s h2, if_neg h1]
  · rw [hself, if_pos (hopen.mpr hop), ho, hjobj]
    rfl
  · rw [hself, if_neg (hopen.not.mpr hop)]
  · -- a file that is still there has the data it had
    have hdata : o'.data = o0.data := by
      by_cases hse : s = e.inodeSector
      · subst hse
        cases hs0.symm.trans ho
        rw [hself] at hs3
        split at hs3
        · rw [← Option.some.inj hs3, hjobj]
        · cases hs3
      · rw [hothers s hse, if_neg h1] at hs3
        rw [Option.some.inj (hs0.symm.trans hs3)]
    have hsi : s ≠ i'.sector := by rwa [hs']
    have h3 := hkept3.files s o' hs3
    rw [hdata] at h3
    exact ⟨hdata, (((hkept1.files s o0 hs0).trans (hd'.others s o0 hsi hs0)).trans
      (hkept2.files s o0 ((put_ne _ _ hsi).trans hs0))).trans h3⟩
  · exact ((hkept1.cells.trans hd'.same).trans hkept2.cells).trans hkept3.cells

/-- A handle that stays refers to the file that it did. -/
theorem refersTo_iff (h : Store g w) (h' : Store g' v) (hc : SameCells w v) {f : Nat}
    (hh : ∀ a, (f, a) ∈ g'.handles ↔ (f, a) ∈ g.handles) (s : Nat) : g'.RefersTo v f s ↔ g.RefersTo w f s := by
  have haddr : ∀ {a : Nat}, (f, a) ∈ g.handles → a ∈ g.addrs ∧ a ∈ g'.addrs := by
    intro a hf
    exact ⟨mem_append_right _ (mem_map.mpr ⟨_, hf, rfl⟩), mem_append_right _ (mem_map.mpr ⟨_, (hh a).mpr hf, rfl⟩)⟩
  constructor
  · rintro ⟨a, j, hf, hj, hs⟩
    rw [hh] at hf
    obtain ⟨i, hi, -⟩ := h.mem.live a (haddr hf).1
    obtain ⟨i, hi, hij⟩ := hc.old a j hj (h.mem.cell a i hi).1
    exact ⟨a, i, hf, hi, hij.symm.trans hs⟩
  · rintro ⟨a, i, hf, hi, hs⟩
    obtain ⟨j, hj, hij⟩ := h'.held_cell (haddr hf).2 h hc hi
    exact ⟨a, j, (hh a).mpr hf, hj, hij.trans hs⟩

/-- What is open stays open as long as the handles are the same. -/
theorem isOpen_iff (h : Store g w) (h' : Store g' v) (hh : g'.handles = g.handles) (hc : SameCells w v) (s : Nat) :
    g'.IsOpen v s ↔ g.IsOpen w s :=
  exists_congr fun _ => refersTo_iff h h' hc (fun _ => by rw [hh]) s

theorem filesysRemove (h : Store g w) (hheld : g.held = []) (hroot : g.objs rootDirSector = some (.present d))
    (hwhole : d.length.toNat % dirEntrySize = 0)
    (hfiles : ∀ e ∈ w.slots d, e.inUse = true → e.inodeSector ≠ rootDirSector ∧ ∃ o, g.objs e.inodeSector = some o)
    (name : CString) :
    Runs true (filesysRemove name) (fun r v =>
      (r = false ∧ (w.slots d).any (·.isNamed name) = false ∧ Store g v ∧ Kept g w v) ∨
        ∃ k e g' d', r = true ∧ (w.slots d)[k]? = some e ∧ e.isNamed name = true ∧ NameRemoved g w v d k e g' d') w := by
  refine (h.dirOpenRoot hroot).bind ?_
  rintro _ v ⟨a, i, rfl, hst, hi, hs, rfl, hrem, hkept⟩
  have hslots : v.slots i.data = w.slots i.data := (hkept.files _ _ hroot).slots
  have hremove := hst.dirRemove (by rw [hheld]) hi hs hrem hwhole (by rw [hslots]; exact hfiles) name
  rw [hslots] at hremove
  refine hremove.bind ?_
  rintro _ u (⟨rfl, hnone, hu⟩ | ⟨k, e, g', d', rfl, hk, hnamed, hr⟩)
  · subst u
    refine (hst.dirClose rfl hi hs hrem).bind ?_
    rintro _ x ⟨hst', hkept'⟩
    exact Runs.pure_iff.mpr (.inl ⟨rfl, hnone, hst', hkept.trans hkept' fun _ _ ho => ho⟩)
  obtain ⟨hspare', hheld', hhandles'⟩ := hr.idle
  obtain ⟨i', hi', hs', -, hrem'⟩ := hr.store.held_root (by simp [addrs, hheld']) hr.root hst hr.cells hi hs
  refine (hr.store.dirClose hheld' hi' hs' hrem').bind ?_
  rintro _ x ⟨hst', hkept'⟩
  have hopen := isOpen_iff h hst rfl hkept.cells e.inodeSector
  exact Runs.pure_iff.mpr (.inr ⟨k, e, { g' with held := g.held }, d', rfl, hk, hnamed,
    { hr with
      store := hst'
      idle := ⟨hspare', rfl, hhandles'⟩
      slots := by rw [(hkept'.files _ _ hr.root).slots, hr.slots, hslots]
      marked := fun hop => hr.marked (hopen.mpr hop)
      gone := fun hop => hr.gone (hopen.not.mpr hop)
      files := fun s o o' hne hs hs' => by
        obtain ⟨hdata, hu⟩ := hr.files s o o' hne hs hs'
        exact ⟨hdata, ((hkept.files s o hs).trans hu).trans (hdata ▸ hkept'.files s o' hs')⟩
      cells := (hkept.cells.trans hr.cells).trans hkept'.cells }⟩)

end Store

/-! ## Creating -/

/-- What `filesys_create` leaves: with the name in the directory a new empty file at the sector `x`, and otherwise no new
file. Entries in free slots may have changed. -/
structure NameAdded (g : Ghost) (w v : World) (d : InodeDisk) (name : CString) (r : Bool) (x : Nat) (o : Obj)
    (d' : InodeDisk) : Prop where
  fresh : g.objs x = none
  empty : o.data.length = 0 ∧ o.removed = false
  exec : (r, v.slots d') = (DirCall.add name x .unread).exec (w.slots d) true
  whole : d'.length.toNat % dirEntrySize = 0
  store : Store ((if r then g.put x o else g).put rootDirSector { data := d', removed := false }) v
  files : ∀ s o, s ≠ rootDirSector → g.objs s = some o → Untouched w v s o.data
  cells : SameCells w v

theorem Ghost.spare_eq {g : Ghost} (h : g.spare = none) (held : List Nat) :
    ({ g with held := held, spare := none } : Ghost) = { g with held := held } := by rw [h]

theorem Ghost.put_comm (g : Ghost) {s t : Nat} (o p : Obj) (h : s ≠ t) : (g.put s o).put t p = (g.put t p).put s o := by
  unfold put
  congr 1
  funext x
  by_cases hx : x = t
  · subst hx
    simp [h.symm]
  · simp [hx]

namespace Store

/-- The sector in hand is that of no file. -/
theorem spare_new (h : Store g w) {x : Nat} (hx : g.spare = some x) : g.objs x = none ∧ x ≠ freeMapSector ∧ x < 2 ^ 32 := by
  obtain ⟨hlt, hnot⟩ := h.disk.spare x hx
  refine ⟨?_, fun he => hnot (.inl he), ?_⟩
  · cases ho : g.objs x with
    | none => rfl
    | some o => exact absurd (.inr (.inr ⟨x, o, ho, .inl rfl⟩)) hnot
  · have hnum : w.dev.size ≤ 4294967295 := h.disk.numbered
    omega

theorem filesysCreate (h : Store g w) (hspare : g.spare = none) (hroot : g.objs rootDirSector = some (.present d))
    (hwhole : d.length.toNat % dirEntrySize = 0) (name : CString)
    (hroom : ∀ x, (DirCall.add name x .unread).validName = true → (w.slots d).any (·.isNamed name) = false →
      dirEntrySize * ((w.slots d).findIdx (fun e => !e.inUse) + 1) ≤ mapBytes) :
    Runs true (filesysCreate name 0) (fun r v => ∃ x o d', NameAdded g w v d name r x o d') w := by
  refine (h.dirOpenRoot hroot).bind ?_
  rintro _ v ⟨a, i, rfl, hst, hi, hs, rfl, hrem, hkept⟩
  refine (hst.freeMapAllocate hspare).bind ?_
  rintro _ v1 ⟨x, rfl, hst1, hkept1⟩
  obtain ⟨hnew, hx0, hx⟩ := hst1.spare_new rfl
  have hxr : x ≠ rootDirSector := by
    rintro rfl
    cases hroot.symm.trans hnew
  simp only
  refine (hst1.inodeCreate rfl (Int.le_refl 0) (by decide)).bind ?_
  rintro _ v2 ⟨rfl, dx, hdx, hc, hst2, hkept2⟩
  -- the root directory is still open, with the same entries
  obtain ⟨i', hi', hs', hdata', hrem'⟩ := hst2.held_root (by simp [addrs, put]) ((put_ne _ _ hxr.symm).trans hroot) hst
    (hkept1.cells.trans hkept2.cells) hi hs
  have hslots : v2.slots i'.data = w.slots i.data := by
    rw [hdata', (hkept2.files _ _ hroot).slots, (hkept1.files _ _ hroot).slots, (hkept.files _ _ hroot).slots]
  refine (hst2.dirAdd hi' (by rw [hs']; decide) (hdata' ▸ hwhole) hx (by rw [hslots]; exact hroom x)).bind ?_
  rintro r v3 ⟨d', hd', hwhole', hexec⟩
  rw [hslots] at hexec
  have hfiles : ∀ s o, s ≠ rootDirSector → g.objs s = some o → Untouched w v3 s o.data := by
    intro s o hsr hso
    have hsx : s ≠ x := by
      rintro rfl
      cases hso.symm.trans hnew
    exact (((hkept.files s o hso).trans (hkept1.files s o hso)).trans (hkept2.files s o hso)).trans
      (hd'.others s o (by rwa [hs']) ((put_ne _ _ hsx).trans hso))
  have hcells : SameCells w v3 := ((hkept.cells.trans hkept1.cells).trans hkept2.cells).trans hd'.same
  have hst3 := hd'.store
  rw [hs', hrem', spare_eq hspare] at hst3
  cases r with
  | true =>
    refine (hst3.dirClose rfl hd'.cell (by exact hs') (by exact hrem')).bind ?_
    rintro _ v4 ⟨hst4, hkept4⟩
    refine Runs.pure_iff.mpr ⟨x, .present dx, d', hnew, ⟨hdx, rfl⟩, ?_, hwhole', hst4, fun s o hsr hso => ?_,
      hcells.trans hkept4.cells⟩
    · rw [(hkept4.files _ _ (put_self _ _ _)).slots]
      exact hexec
    refine (hfiles s o hsr hso).trans (hkept4.files s o ?_)
    rw [put_ne _ _ hsr, put_ne _ _ (fun he => ?_)]
    · exact hso
    · cases (he ▸ hso).symm.trans hnew
  | false =>
    rw [if_pos ⟨rfl, hx0⟩]
    -- nothing refers to the new file, which can be turned back into a sector in hand
    have hclosed : ∀ c k, v3.mem.inodes c = some k → k.sector ≠ x := by
      intro c k hk he
      rcases eq_or_ne c a with rfl | hca
      · cases hk.symm.trans hd'.cell
        exact hxr (he.symm.trans hs')
      · rw [hd'.cells c hca, hc.mem] at hk
        obtain ⟨hobj, -, -⟩ := hst1.mem.obj c k hk (he ▸ hx0)
        rw [he, hnew] at hobj
        cases hobj
    rw [put_comm _ _ _ hxr] at hst3
    have hst4 := hst3.unmake ((put_ne _ _ hxr).trans hnew) hspare hdx hclosed
    refine (hst4.freeMapRelease rfl).bind ?_
    rintro _ v4 ⟨hst5, hkept5⟩
    have hroot' := g.put_self rootDirSector (.present d')
    obtain ⟨i4, hi4, hs4, -, hrem4⟩ := hst5.held_root (by simp [addrs, put]) hroot' hst3 hkept5.cells hd'.cell hs'
    refine (hst5.dirClose rfl hi4 hs4 hrem4).bind ?_
    rintro _ v5 ⟨hst6, hkept6⟩
    have hkept7 := hkept5.trans hkept6 fun _ _ ho => ho
    refine Runs.pure_iff.mpr ⟨x, .present dx, d', hnew, ⟨hdx, rfl⟩, ?_, hwhole', ?_, fun s o hsr hso => ?_,
      hcells.trans hkept7.cells⟩
    · rw [(hkept7.files rootDirSector _ hroot').slots]
      exact hexec
    · have hg := spare_eq (g := g.put rootDirSector (.present d')) hspare g.held
      exact (congrArg (fun g => Store g v5) hg).mp hst6
    · exact (hfiles s o hsr hso).trans (hkept7.files s o ((put_ne _ _ hsr).trans hso))

end Store

end Pintos
