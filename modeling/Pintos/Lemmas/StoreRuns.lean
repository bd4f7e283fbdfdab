import Pintos.Lemmas.Store

/-!
# What each function does to the store

Each function of the lower layers keeps the store in order, as long as no allocation fails: opening and closing an inode,
taking and giving back a sector, making an inode, writing to a file. With the new store each rule says which files are
untouched.
-/

namespace Pintos

open Program Fs Runs Ghost List

variable {v : World} {a s x : Nat} {i : Inode} {fs : Fs} {n : Int} {o : Obj} {held : List Nat}
  {g : Ghost} {w : World}

namespace Store

/-- Only memory has changed, and not the part that the free map is kept in: the files are the same. -/
theorem withMem (h : Store g w) (g' : Ghost) (hE : g'.E = g.E) (hobjs : g'.objs = g.objs) (hspare : g'.spare = g.spare)
    (hdev : v.dev = w.dev) (hbits : v.mem.freeMap = w.mem.freeMap) (hcnt : v.mem.bitCnt = w.mem.bitCnt)
    (hmap : v.mem.freeMapFile = w.mem.freeMapFile) (hfile : ∀ f file, w.mem.freeMapFile = some f → w.mem.files f = some file →
      v.mem.files f = some file ∧ v.mem.inodes file.inode = w.mem.inodes file.inode)
    (hmem : MemOk g' v) (hopen : ∀ a i, w.mem.inodes a = some i → ∃ b j, v.mem.inodes b = some j ∧ j.sector = i.sector)
    (hcells : SameCells w v) : Store g' v ∧ Kept g w v := by
  have hu := h.untouched hdev hbits
  refine ⟨⟨?_, h.disk.same hE hobjs hspare hcnt hbits (by rw [hdev]) hu, hmem, ?_⟩, hu, hcells⟩
  · rw [hE]
    exact h.state.frame hmap hcnt hbits hfile (by rw [hdev]) (fun _ _ => by rw [hdev])
  intro s o hs
  rw [hobjs] at hs
  rcases h.onDisk s o hs with ⟨a, i, hi, rfl⟩ | hd
  · exact .inl (hopen a i hi)
  · rw [hdev]
    exact .inr hd

end Store

/-- What is open stays open where a cell changes and its sector does not. -/
theorem Fs.setInode_open {b : Nat} {j k : Inode} (hi : fs.inodes a = some i) (hj : j.sector = i.sector)
    (hk : fs.inodes b = some k) : ∃ b l, (fs.setInode a (some j)).inodes b = some l ∧ l.sector = k.sector := by
  rcases eq_or_ne b a with rfl | hne
  · cases hi.symm.trans hk
    exact ⟨b, j, setInode_self _ _ _, hj⟩
  · exact ⟨b, k, (setInode_ne _ _ hne).trans hk, rfl⟩

namespace Store

/-- A cell that changes its count only. -/
theorem recount (h : Store g w) (hi : w.mem.inodes a = some i) (hs : i.sector ≠ freeMapSector) (held : List Nat)
    (hcnt : n = (addrs { g with held := held }).count a) (hpos : 0 < n)
    (hothers : ∀ b, b ≠ a → held.count b = g.held.count b) :
    Store { g with held := held } { w with mem := w.mem.setInode a (some { i with openCnt := n }) } ∧
      Kept g w { w with mem := w.mem.setInode a (some { i with openCnt := n }) } := by
  obtain ⟨hobj, -, -⟩ := h.mem.obj a i hi hs
  obtain ⟨-, -, hset⟩ := h.mem.cell a i hi
  refine h.withMem _ rfl rfl rfl rfl rfl rfl rfl
    (fun f file hf hfile => ⟨hfile, setInode_ne _ _ (h.mem.notFreeMap hi hs f file hf hfile)⟩)
    ?_ (fun b k hk => setInode_open hi rfl hk) (.setInode (Nat.le_refl _) rfl hi rfl)
  refine h.mem.setCell { g with held := held } hi hs rfl hset (fun _ _ => rfl) hobj hcnt
    (count_pos_iff.mp (by omega)) (fun b hb => ?_) rfl
  simp [addrs, hothers b hb]

end Store

/-- The data of the inode at a sector: those in memory if it is open, and those on disk if it is not. -/
def World.inodeData (w : World) (s : Nat) : InodeDisk :=
  match (w.mem.findOpen s).bind w.mem.inodes with
  | some i => i.data
  | none => w.dev.disk s

theorem Fs.findOpen_some (h : fs.findOpen s = some a) : ∃ i, fs.inodes a = some i ∧ i.sector = s := by
  have hp := find?_some h
  simp only [Option.any_eq_true, beq_iff_eq] at hp
  exact hp

theorem Fs.findOpen_none (h : fs.findOpen s = none) (ha : a ∈ fs.openInodes) (hi : fs.inodes a = some i) : i.sector ≠ s := by
  intro he
  have := find?_eq_none.mp h a ha
  simp [hi, he] at this

namespace Store

theorem inodeOpen (h : Store g w) (hs : g.objs s = some o) :
    Runs true (inodeOpen s) (fun r v => ∃ a, r = some a ∧ Store { g with held := a :: g.held } v ∧
      (∃ i, v.mem.inodes a = some i ∧ i.sector = s) ∧ Kept g w v) w := by
  have hne := h.disk.sector_ne hs
  unfold Pintos.inodeOpen
  rw [get_bind]
  cases hfind : w.mem.findOpen s with
  | some a =>
    obtain ⟨i, hi, rfl⟩ := findOpen_some hfind
    unfold inodeReopen
    rw [modifyInode_bind hi]
    obtain ⟨hst, hkept⟩ := h.recount hi hne (a :: g.held) (n := i.openCnt + 1)
      (by rw [(h.mem.obj a i hi hne).2.1]; simp [addrs]) (by rw [(h.mem.obj a i hi hne).2.1]; omega)
      (fun b hb => count_cons_of_ne hb.symm)
    exact pure_iff.mpr ⟨a, rfl, hst, ⟨_, setInode_self _ _ _, rfl⟩, hkept⟩
  | none =>
    have hclosed : ∀ b k, w.mem.inodes b = some k → k.sector ≠ s := fun b k hk => findOpen_none hfind (h.mem.cell b k hk).2.1 hk
    obtain ⟨a, i, hi, he⟩ | ⟨hdata, hrem⟩ := h.onDisk s o hs
    · exact absurd he (hclosed a i hi)
    refine malloc_bind (.inl rfl) (fun heap _ => ?_)
    rw [modify_bind, readSector_bind (by exact (h.disk.file s o hs).own.1), setInode_bind]
    have hobj : g.objs s = some (.present (w.dev.disk s)) := by rw [hs, hdata, Obj.present, ← hrem]
    have hmem := h.mem.openNew hobj hne hclosed rfl
    have hfresh : ∀ f file, w.mem.freeMapFile = some f → w.mem.files f = some file → file.inode ≠ w.mem.nextAddr := by
      intro f file hf hfile
      obtain ⟨f0, a0, i0, pos, -, hf0, hfile0, hi0, -⟩ := h.mem.freeMap
      cases hf0.symm.trans hf
      cases hfile0.symm.trans hfile
      exact Nat.ne_of_lt (h.mem.cell _ _ hi0).1
    obtain ⟨hst, hkept⟩ := h.withMem { g with held := w.mem.nextAddr :: g.held } (v := World.opened { w with heap := heap } _)
      rfl rfl rfl rfl rfl rfl rfl (fun f file hf hfile => ⟨hfile, setInode_ne _ _ (hfresh f file hf hfile)⟩)
      (hmem.congr rfl rfl rfl (Nat.le_refl _) rfl)
      (fun b k hk => ⟨b, k, (setInode_ne _ _ (Nat.ne_of_lt (h.mem.cell b k hk).1)).trans hk, rfl⟩)
      ⟨Nat.le_succ _, fun b j hj hb => ⟨j, (setInode_ne _ _ (Nat.ne_of_lt hb)).symm.trans hj, rfl⟩⟩
    exact pure_iff.mpr ⟨w.mem.nextAddr, rfl, hst, ⟨_, setInode_self _ _ _, rfl⟩, hkept⟩

/-- The sectors of an open file can be given back. -/
theorem deallocatable (h : Store g w) (hi : w.mem.inodes a = some i) (hs : i.sector ≠ freeMapSector) : Deallocatable w g.E i := by
  obtain ⟨hobj, -, -⟩ := h.mem.obj a i hi hs
  obtain ⟨f, -, -, -, -, hf, -⟩ := h.mem.freeMap
  exact ⟨h.state, by rw [hf]; rfl, h.disk.whole, h.disk.file _ _ hobj, fun x hx => (h.disk.owned hobj hx).2.1⟩

/-- A change of sectors that are the free map's, or the inode sector of a file, touches no file. -/
theorem untouched_of (h : Store g w) {s0 : Nat} (hsize : v.dev.size = w.dev.size)
    (hdisk : ∀ x, ¬g.E x → x ≠ s0 → v.dev.disk x = w.dev.disk x) {o0 : Obj} (hs0 : g.objs s0 = some o0)
    (hs : g.objs s = some o) (hmark : ∀ x, w.owns s o.data x → v.mem.freeMap x = true) : Untouched w v s o.data := by
  refine (h.disk.file s o hs).untouched hsize hmark (fun p hp => hdisk _ (h.disk.owned hs (.inr ⟨p, hp, rfl⟩)).2.1 ?_)
  rcases eq_or_ne s s0 with rfl | hne
  · exact (h.disk.file s o hs).notMapped p hp
  · exact fun he => h.disk.disjoint hs0 hs hne.symm (.inl rfl) (he ▸ .inr ⟨p, hp, rfl⟩)

end Store

/-- The references after one of a function to the inode at `a`, of the file at `s`, is given up: a removed file that nobody
refers to any more is gone. -/
def Ghost.release (g : Ghost) (a s : Nat) (removed : Bool) (held : List Nat) : Ghost :=
  { g with
    held := held
    objs := fun t => if t = s ∧ removed = true ∧ a ∉ addrs { g with held := held } then none else g.objs t }

/-- Nothing is gone while there are other references, or where the file is not removed. -/
theorem Ghost.release_keep {g : Ghost} {removed : Bool} (hk : ¬(removed = true ∧ a ∉ addrs { g with held := held })) :
    g.release a s removed held = { g with held := held } := by
  unfold release
  congr 1
  funext t
  exact if_neg (fun hc => hk hc.2)

theorem World.closing_inodes (w : World) (a : Nat) (i : Inode) :
    ((w.closing a i).freeInode a).mem.inodes = (w.mem.setInode a none).inodes := by
  funext b
  by_cases hb : b = a
  · subst hb
    rw [World.freeInode, setInode_self, setInode_self]
  · rw [World.freeInode, setInode_ne _ _ hb, setInode_ne _ _ hb]
    exact setInode_ne _ _ hb

namespace Store

/-- The other files are on disk or open as before when an inode has gone from memory. -/
theorem onDisk_closed (h : Store g w) (hi : w.mem.inodes a = some i) (hinodes : v.mem.inodes = (w.mem.setInode a none).inodes)
    (ho : g.objs s = some o) (hne : s ≠ i.sector) (hdisk : v.dev.disk s = w.dev.disk s) :
    (∃ b k, v.mem.inodes b = some k ∧ k.sector = s) ∨ (v.dev.disk s = o.data ∧ o.removed = false) := by
  rcases h.onDisk s o ho with ⟨b, k, hk, rfl⟩ | ⟨hd, hr⟩
  · have hb : b ≠ a := by
      rintro rfl
      exact hne (congrArg Inode.sector (Option.some.inj (hk.symm.trans hi)))
    exact .inl ⟨b, k, (congrFun hinodes b).trans ((setInode_ne _ _ hb).trans hk), rfl⟩
  · exact .inr ⟨hdisk.trans hd, hr⟩

section

variable (h : Store g w) (hi : w.mem.inodes a = some i) (hs : i.sector ≠ freeMapSector) (hheld : g.held = a :: held)
include h hi hs hheld

/-- The last closer of a file that is not removed leaves it on disk. -/
theorem closeLast (hlast : a ∉ addrs { g with held := held }) (hrem : i.removed = false) :
    Store { g with held := held } ((w.closing a i).freeInode a) ∧ Kept g w ((w.closing a i).freeInode a) := by
  obtain ⟨hobj, -, -⟩ := h.mem.obj a i hi hs
  have hother : ∀ x, x ≠ i.sector → ((w.closing a i).freeInode a).dev.disk x = w.dev.disk x := fun x hx => if_neg hx
  have hu : ∀ s o, g.objs s = some o → Untouched w ((w.closing a i).freeInode a) s o.data := fun s o ho =>
    h.untouched_of (v := (w.closing a i).freeInode a) rfl (fun x _ hx => hother x hx)
      hobj ho (fun x hx => (h.disk.owned ho hx).2.2)
  refine ⟨⟨?_, h.disk.same rfl rfl rfl rfl rfl rfl hu, ?_, fun s o ho => ?_⟩, hu,
    .freeInode (Nat.le_refl _) (w.closing_inodes a i)⟩
  · refine h.state.frame rfl rfl rfl (fun f file hf hfile => ⟨hfile, ?_⟩) rfl (fun x hx => hother x ?_)
    · rw [w.closing_inodes]
      exact setInode_ne _ _ (h.mem.notFreeMap hi hs f file hf hfile)
    · rintro rfl
      exact (h.disk.owned hobj (.inl rfl)).2.1 hx
  · refine (h.mem.closed { g with held := held } hi hs (fun _ _ => rfl) hlast (fun b hb => ?_) rfl).congr ?_ rfl rfl
      (Nat.le_refl _) rfl
    · simp only [addrs, hheld, count_append, count_cons_of_ne hb.symm]
    · exact w.closing_inodes a i
  · rcases eq_or_ne s i.sector with rfl | hne
    · cases hobj.symm.trans ho
      exact .inr ⟨if_pos rfl, hrem⟩
    · exact h.onDisk_closed hi (w.closing_inodes a i) ho hne (hother s hne)

/-- The last closer of a removed file gives its sectors back. -/
theorem closeRemoved
    (hlast : a ∉ addrs { g with held := held }) {w1 : World} (hrel : Released g.E (w.owns i.sector i.data) (w.closing a i) w1) :
    Store (g.release a i.sector true held) (w1.freeInode a) ∧ Kept (g.release a i.sector true held) w (w1.freeInode a) := by
  obtain ⟨hobj, -, -⟩ := h.mem.obj a i hi hs
  have hgone : (g.release a i.sector true held).objs i.sector = none := if_pos ⟨rfl, rfl, hlast⟩
  have hobjs : ∀ t, t ≠ i.sector → (g.release a i.sector true held).objs t = g.objs t := fun t ht => if_neg (fun hc => ht hc.1)
  have hbits : ∀ x, (w1.freeInode a).mem.freeMap x = true ↔ w.mem.freeMap x = true ∧ ¬w.owns i.sector i.data x := hrel.bits
  have hother : ∀ x, ¬g.E x → x ≠ i.sector → (w1.freeInode a).dev.disk x = w.dev.disk x :=
    fun x hE hx => (hrel.dev.same x hE).trans (if_neg hx)
  have hu : ∀ s o, s ≠ i.sector → g.objs s = some o → Untouched w (w1.freeInode a) s o.data := fun s o hne ho =>
    h.untouched_of (v := w1.freeInode a) hrel.dev.size hother hobj ho
      (fun x hx => (hbits x).mpr ⟨(h.disk.owned ho hx).2.2, fun hy => h.disk.disjoint ho hobj hne hx hy⟩)
  have hinodes : (w1.freeInode a).mem.inodes = (w.mem.setInode a none).inodes := by
    rw [← w.closing_inodes a i, World.freeInode, World.freeInode, hrel.mem]
    rfl
  have hopen := congrArg openInodes hrel.mem
  have hfiles := congrArg files hrel.mem
  have hnext := congrArg nextAddr hrel.mem
  have hmap := congrArg freeMapFile hrel.mem
  have hkept : ∀ s o, (g.release a i.sector true held).objs s = some o → s ≠ i.sector ∧ g.objs s = some o := by
    intro s o ho
    have hne : s ≠ i.sector := by
      rintro rfl
      rw [hgone] at ho
      cases ho
    exact ⟨hne, hobjs s hne ▸ ho⟩
  refine ⟨⟨?_, ?_, ?_, fun s o ho => ?_⟩, fun s o ho => hu s o (hkept s o ho).1 (hkept s o ho).2, .freeInode hnext.ge hinodes⟩
  · refine hrel.state.setInode (fun f file hf hfile => ?_) _
    rw [hrel.mem] at hf hfile
    exact h.mem.notFreeMap hi hs f file hf hfile
  · refine h.disk.change i.sector rfl ?_ hrel.dev.size hobjs hu ?_ (fun x => ?_) (fun x hx => ?_)
    · show w1.mem.bitCnt = _
      rw [hrel.mem]
      rfl
    · rw [hgone]
      simp
    · rw [hbits, h.disk.used, g.files_iff w i.sector, hobj, hgone]
      have happart := h.disk.apart _ _ hobj x
      have hspare := h.disk.spare x
      rw [g.files_iff w i.sector, hobj] at hspare
      simp only [Option.some.injEq, exists_eq_left'] at hspare ⊢
      tauto
    · obtain ⟨h1, h2⟩ := h.disk.spare x hx
      rw [g.files_iff w i.sector] at h2
      exact ⟨h1, fun hr => h2 (.inl hr), by simp [hgone]⟩
  · refine (h.mem.closed (g.release a i.sector true held) hi hs hobjs hlast (fun b hb => ?_) rfl).congr hinodes
      hopen hfiles hnext.ge hmap
    show count b (held ++ g.handles.map (·.2)) = _
    simp only [addrs, hheld, cons_append, count_cons_of_ne hb.symm]
  · obtain ⟨hne, ho⟩ := hkept s o ho
    exact h.onDisk_closed hi hinodes ho hne (hother s (h.disk.owned ho (.inl rfl)).2.1 hne)

theorem inodeClose :
    Runs true (inodeClose (some a)) (fun _ v => Store (g.release a i.sector i.removed held) v ∧
      Kept (g.release a i.sector i.removed held) w v ∧ v.mem.freeMapFile = w.mem.freeMapFile) w := by
  obtain ⟨hobj, hcnt, -⟩ := h.mem.obj a i hi hs
  have hcnt' : i.openCnt = (addrs { g with held := held }).count a + 1 := by
    rw [hcnt]
    simp [addrs, hheld]
  by_cases hlast : a ∈ addrs { g with held := held }
  · have hpos := count_pos_iff.mpr hlast
    refine (inodeClose_shared hi (by omega)).mono ?_
    rintro _ _ rfl
    rw [release_keep (·.2 hlast)]
    obtain ⟨hst, hkept⟩ := h.recount hi hs held (n := i.openCnt - 1) (by omega) (by omega)
      (fun b hb => by rw [hheld, count_cons_of_ne hb.symm])
    exact ⟨hst, { hkept with }, rfl⟩
  · have hone : i.openCnt = 1 := by
      rw [count_eq_zero.mpr hlast] at hcnt'
      exact hcnt'
    cases hrem : i.removed with
    | false =>
      refine (inodeClose_last hi hone (h.disk.file _ _ hobj).own.1 hrem).mono ?_
      rintro _ _ rfl
      rw [release_keep (fun hc => Bool.false_ne_true hc.1)]
      obtain ⟨hst, hkept⟩ := h.closeLast hi hs hheld hlast hrem
      exact ⟨hst, { hkept with }, rfl⟩
    | true =>
      have hd := h.deallocatable hi hs
      refine (inodeClose_removed hi hone hrem hd.blocks_le_format hd.givable (h.mem.notFreeMap hi hs)).mono ?_
      rintro _ _ ⟨w1, hrel, rfl⟩
      obtain ⟨hst, hkept⟩ := h.closeRemoved hi hs hheld hlast (hrel.congr fun x => hd.mem_held)
      have hmap := congrArg freeMapFile hrel.mem
      exact ⟨hst, hkept, hmap⟩

end

end Store

/-! ## Writing -/

/-- The files with one put in its place. -/
def Ghost.put (g : Ghost) (s : Nat) (o : Obj) : Ghost := { g with objs := fun t => if t = s then some o else g.objs t }

@[simp] theorem Ghost.put_self (g : Ghost) (s : Nat) (o : Obj) : (g.put s o).objs s = some o := if_pos rfl

theorem Ghost.put_ne (g : Ghost) {t : Nat} (o : Obj) (h : t ≠ s) : (g.put s o).objs t = g.objs t := if_neg h

namespace Store

variable {d : InodeDisk} {ofs : Nat} {bs : List UInt8}

theorem freeMapWhole (h : Store g w) : FreeMapWhole w g.E :=
  ⟨h.state, fun _ hx => h.disk.mapMarked hx, h.disk.whole, h.disk.numbered⟩

theorem writable (h : Store g w) (hi : w.mem.inodes a = some i) (hs : i.sector ≠ freeMapSector) : Writable w g.E a i := by
  obtain ⟨hobj, -, -⟩ := h.mem.obj a i hi hs
  exact
    { h.freeMapWhole with
      cell := hi
      file := h.disk.file _ _ hobj
      apart := fun p hp => (h.disk.owned hobj (.inr ⟨p, hp, rfl⟩)).2.1
      notFreeMap := h.mem.notFreeMap hi hs }

section

variable (hw : Written w v g.E i.data d ofs bs)
include hw

/-- A sector of a file that has been written to was its own before, or free. -/
theorem owns_written (hx : v.owns i.sector d x) : w.owns i.sector i.data x ∨ w.mem.freeMap x = false := by
  rcases hx with rfl | ⟨p, hp, rfl⟩
  · exact .inl (.inl rfl)
  · by_cases hold : p.InUse (w.blocksOf i.data).blocks
    · exact .inl (.inr ⟨p, hold, (hw.old p hold).symm⟩)
    · exact .inr (hw.fresh p hp hold)

/-- What a file had it still has. -/
theorem owns_of_written (hx : w.owns i.sector i.data x) : v.owns i.sector d x := by
  rcases hx with rfl | ⟨p, hp, rfl⟩
  · exact .inl rfl
  · exact .inr ⟨p, hp.mono hw.more, hw.old p hp⟩

variable (h : Store g w) (hi : w.mem.inodes a = some i) (hs : i.sector ≠ freeMapSector)
include h hi hs

/-- The other files are untouched by a write. -/
theorem written_others (hne : s ≠ i.sector) (ho : g.objs s = some o) : Untouched w v s o.data := by
  obtain ⟨hobj, -, -⟩ := h.mem.obj a i hi hs
  refine (h.disk.file s o ho).untouched hw.size (fun x hx => (hw.used x).mpr (.inl (h.disk.owned ho hx).2.2)) (fun p hp => ?_)
  have hown : w.owns s o.data ((w.blocksOf o.data).sector p) := .inr ⟨p, hp, rfl⟩
  obtain ⟨-, hE, hmark⟩ := h.disk.owned ho hown
  exact hw.frame _ hmark hE (fun q hq he => h.disk.disjoint ho hobj hne hown (.inr ⟨q, hq, he⟩))

/-- The file that was written to is in order. -/
theorem written_file (hlen : 0 ≤ d.length ∧ d.length ≤ mapBytes) : FileOk v i.sector d := by
  obtain ⟨hobj, -, -⟩ := h.mem.obj a i hi hs
  have hfile := h.disk.file _ _ hobj
  refine ⟨hlen, hw.map, ⟨hw.size ▸ hfile.own.1, (hw.used _).mpr (.inl hfile.own.2)⟩, fun p hp he => ?_⟩
  have hold := hw.mapped_old hp (he ▸ hfile.own.2)
  exact hfile.notMapped p hold (hw.old p hold ▸ he)

/-- The store after a write to a file, or after the file is marked. -/
theorem written (removed : Bool) (hstate : FreeMapState v g.E) (hlen : 0 ≤ d.length ∧ d.length ≤ mapBytes)
    (hmem : v.mem = { w.mem.setInode a (some { i with data := d, removed := removed }) with freeMap := v.mem.freeMap }) :
    Store (g.put i.sector { data := d, removed := removed }) v := by
  obtain ⟨hobj, hcnt, ha⟩ := h.mem.obj a i hi hs
  have hobjs : ∀ t, t ≠ i.sector → (g.put i.sector { data := d, removed := removed }).objs t = g.objs t :=
    fun t ht => g.put_ne _ ht
  have hnot : ∀ x, v.owns i.sector d x → ¬g.Rest w i.sector x ∧ g.spare ≠ some x := by
    intro x hx
    rcases owns_written hw hx with hown | hfree
    · exact ⟨h.disk.apart _ _ hobj x hown, fun hsp => (h.disk.spare x hsp).2 (.inr (.inr ⟨_, _, hobj, hown⟩))⟩
    · have hunused := (h.disk.used x).not.mp (by rw [hfree]; decide)
      rw [g.files_iff w i.sector] at hunused
      exact ⟨fun hr => hunused (.inl (.inl hr)), fun hsp => hunused (.inr hsp)⟩
  have hbitCnt := congrArg bitCnt hmem
  refine ⟨hstate, ?_, ?_, fun s o ho => ?_⟩
  · refine h.disk.change i.sector rfl hbitCnt hw.size hobjs (fun s o hne ho => h.written_others hw hi hs hne ho) ?_ ?_ ?_
    · rintro o ho
      cases (g.put_self _ _).symm.trans ho
      exact ⟨h.written_file hw hi hs hlen, fun x hx => (hnot x hx).1⟩
    · intro x
      rw [hw.used, h.disk.used, g.files_iff w i.sector, hobj, g.put_self]
      simp only [Option.some.injEq, exists_eq_left']
      constructor
      · rintro (((hr | ho) | hsp) | hmap)
        · exact .inl hr
        · exact .inr (.inl (owns_of_written hw ho))
        · exact .inr (.inr hsp)
        · exact .inr (.inl (.inr hmap))
      · rintro (hr | (rfl | hmap) | hsp)
        · exact .inl (.inl (.inl hr))
        · exact .inl (.inl (.inr (.inl rfl)))
        · exact .inr hmap
        · exact .inl (.inr hsp)
    · intro x hx
      obtain ⟨h1, h2⟩ := h.disk.spare x hx
      rw [g.files_iff w i.sector] at h2
      refine ⟨h1, fun hr => h2 (.inl hr), fun o ho hx' => ?_⟩
      cases (g.put_self _ _).symm.trans ho
      exact (hnot x hx').2 hx
  · obtain ⟨-, -, hset⟩ := h.mem.cell a i hi
    have hinodes := congrArg inodes hmem
    have hopen := congrArg openInodes hmem
    have hfiles := congrArg files hmem
    have hnext := congrArg nextAddr hmem
    have hmap := congrArg freeMapFile hmem
    exact (h.mem.setCell (g.put i.sector _) (j := { i with data := d, removed := removed })
      hi hs rfl hset hobjs (g.put_self _ _) hcnt ha (fun _ _ => rfl) rfl).congr hinodes hopen hfiles hnext.ge hmap
  · have hopen : ∀ b k, w.mem.inodes b = some k → ∃ b j, v.mem.inodes b = some j ∧ j.sector = k.sector := by
      intro b k hk
      rw [hmem]
      exact setInode_open hi rfl hk
    rcases eq_or_ne s i.sector with rfl | hne
    · exact .inl (hopen a i hi)
    rw [hobjs s hne] at ho
    rcases h.onDisk s o ho with ⟨b, k, hk, rfl⟩ | ⟨hdisk, hr⟩
    · exact .inl (hopen b k hk)
    · have hown : w.owns s o.data s := .inl rfl
      obtain ⟨-, hE, hmark⟩ := h.disk.owned ho hown
      rw [hw.frame s hmark hE (fun q hq he => h.disk.disjoint ho hobj hne hown (.inr ⟨q, hq, he⟩))]
      exact .inr ⟨hdisk, hr⟩

omit hw in
/-- `inode_write_at` of a range that ends where a block map can still lead. -/
theorem inodeWriteAt {buffer : List UInt8} {size offset : Int}
    (hsize : 0 < size) (h0 : 0 ≤ offset) (hle : offset + size ≤ mapBytes) (hbuf : size.toNat ≤ buffer.length) :
    Runs true (inodeWriteAt freeMapAllocate a buffer size offset) (fun r v => r = size ∧
      ∃ d, WriteDone w v g.E a i d offset.toNat (buffer.take size.toNat) ∧
      Store (g.put i.sector { data := d, removed := i.removed }) v) w := by
  obtain ⟨hobj, -, -⟩ := h.mem.obj a i hi hs
  refine Runs.inodeWriteAt (h.writable hi hs) (h.mem.cell a i hi).2.2 hsize h0 hle hbuf (fun v d hd => ?_)
    (fun _ v d hend => absurd hend.blocks.1.1 (by decide))
  have hlen : 0 ≤ i.data.length ∧ i.data.length ≤ mapBytes := (h.disk.file _ _ hobj).length
  have hd' := hd.length
  rw [length_take_of_le hbuf] at hd'
  exact ⟨rfl, d, hd, h.written hd.written hi hs i.removed hd.state (by omega) hd.mem⟩

end

end Store

/-! ## Taking, using and giving back a sector -/

namespace Store

section

variable (h : Store g w)
include h

/-- A bit of the free map changes, and with it the sector in hand; only the bytes of the free map's file are written. -/
theorem setBit {bit : Bool} {dev : Block} (spare : Option Nat) (hdev : DevWithin g.E w.dev dev)
    (hv : v = { w with mem := w.mem.setBit x bit, dev := dev }) (hstate : FreeMapState v g.E)
    (hused : ∀ y, v.mem.freeMap y = true ↔ g.Files w y ∨ spare = some y)
    (hspare : ∀ y, spare = some y → y < w.dev.size ∧ ¬g.Files w y) : Store { g with spare := spare } v ∧ Kept g w v := by
  subst hv
  have hu : ∀ s o, g.objs s = some o → Untouched w { w with mem := w.mem.setBit x bit, dev := dev } s o.data := fun s o hs =>
    (h.disk.file s o hs).untouched hdev.size (fun y hy => (hused y).mpr (.inl (.inr (.inr ⟨s, o, hs, hy⟩))))
      (fun p hp => hdev.same _ (h.disk.owned hs (.inr ⟨p, hp, rfl⟩)).2.1)
  refine ⟨⟨hstate, h.disk.keep rfl rfl rfl hdev.size hu hused hspare, ?_, fun s o hs => ?_⟩, hu, .of_eq (Nat.le_refl _) rfl⟩
  · exact (h.mem.perm { g with spare := spare } (fun _ _ _ _ => rfl)
      (.refl _) h.mem.handle h.mem.handlesNodup).congr rfl rfl rfl (Nat.le_refl _) rfl
  · rw [hdev.same s (h.disk.owned hs (.inl rfl)).2.1]
    exact h.onDisk s o hs

theorem freeMapAllocate (hnone : g.spare = none) :
    Runs true Pintos.freeMapAllocate (fun r v => ∃ x, r = some x ∧ Store { g with spare := some x } v ∧ Kept g w v) w := by
  refine (Runs.freeMapAllocate h.state).mono ?_
  rintro r v (⟨x, dev, rfl, ⟨hlt, hfree, -⟩, rfl, hdev, hstate⟩ | ⟨-, hst, -⟩)
  swap
  · cases hst
  have hunused : ¬g.Files w x := by
    have hn := (h.disk.used x).not.mp (by rw [hfree]; decide)
    exact fun hf => hn (.inl hf)
  refine ⟨x, rfl, h.setBit (some x) hdev rfl hstate (fun y => ?_) ?_⟩
  · have hbit : (w.mem.setBit x true).freeMap y = true ↔ y = x ∨ w.mem.freeMap y = true := by
      by_cases hy : y = x <;> simp [Fs.setBit, hy]
    rw [hbit, h.disk.used, hnone]
    simp only [reduceCtorEq, or_false, Option.some.injEq]
    rw [or_comm, eq_comm]
  · rintro y hy
    cases hy
    exact ⟨h.disk.whole ▸ hlt, hunused⟩

theorem freeMapRelease (hx : g.spare = some x) :
    Runs true (Pintos.freeMapRelease x) (fun _ v => Store { g with spare := none } v ∧ Kept g w v) w := by
  obtain ⟨hlt, hunused⟩ := h.disk.spare x hx
  obtain ⟨f, -, -, -, -, hf, -⟩ := h.mem.freeMap
  refine (Runs.freeMapRelease h.state (by rw [hf]; rfl) (h.disk.whole ▸ hlt) ((h.disk.used x).mpr (.inr hx))).mono ?_
  rintro _ _ ⟨dev, rfl, hdev, hstate⟩
  refine h.setBit none hdev rfl hstate (fun y => ?_) nofun
  have hbit : (w.mem.setBit x false).freeMap y = true ↔ y ≠ x ∧ w.mem.freeMap y = true := by
    by_cases hy : y = x <;> simp [Fs.setBit, hy]
  rw [hbit, h.disk.used, hx]
  simp only [reduceCtorEq, or_false, Option.some.injEq]
  constructor
  · rintro ⟨hne, hy | rfl⟩
    · exact hy
    · exact absurd rfl hne
  · exact fun hy => ⟨fun he => hunused (he ▸ hy), .inl hy⟩

/-- The sector in hand becomes a new file. -/
theorem created (hs : g.spare = some s) {d : InodeDisk} (hlen : 0 ≤ d.length ∧ d.length ≤ mapBytes)
    (hc : Created w v g.E s d) : Store (put { g with spare := none } s (.present d)) v ∧ Kept g w v := by
  obtain ⟨hlt, hunused⟩ := h.disk.spare s hs
  have hmark : w.mem.freeMap s = true := (h.disk.used s).mpr (.inr hs)
  have hnone : g.objs s = none := by
    cases ho : g.objs s with
    | none => rfl
    | some o => exact absurd (.inr (.inr ⟨s, o, ho, .inl rfl⟩)) hunused
  have hobjs : ∀ t, t ≠ s → (put { g with spare := none } s (.present d)).objs t = g.objs t :=
    fun t ht => put_ne _ _ ht
  have hself : (put { g with spare := none } s (.present d)).objs s = some (.present d) :=
    put_self _ _ _
  -- a sector in use for something else has not been written to
  have hother : ∀ x, g.Files w x → ¬g.E x → v.dev.disk x = w.dev.disk x := by
    intro x hx hE
    exact hc.only x hE (fun he => hunused (he ▸ hx)) (fun p hp _ => hc.ne_marked hp ((h.disk.used x).mpr (.inl hx)))
  have hfiles : ∀ {t o x}, g.objs t = some o → w.owns t o.data x → g.Files w x := fun ht hx => .inr (.inr ⟨_, _, ht, hx⟩)
  have hu : ∀ t o, g.objs t = some o → Untouched w v t o.data := fun t o ht => (h.disk.file t o ht).untouched hc.size
    (fun x hx => (hc.used x).mpr (.inl (h.disk.owned ht hx).2.2))
    (fun p hp => hother _ (hfiles ht (.inr ⟨p, hp, rfl⟩)) (h.disk.owned ht (.inr ⟨p, hp, rfl⟩)).2.1)
  have hrest : ∀ x, g.Files w x ↔ g.Rest w s x := by
    intro x
    rw [g.files_iff w s, hnone]
    simp
  have hnot : ∀ x, v.owns s d x → ¬g.Rest w s x := by
    intro x hx hr
    rw [← hrest] at hr
    rcases hx with rfl | ⟨p, hp, rfl⟩
    · exact hunused hr
    · exact hc.ne_marked hp ((h.disk.used _).mpr (.inl hr)) rfl
  have hbitCnt := congrArg bitCnt hc.mem
  have hinodes := congrArg inodes hc.mem
  have hopen := congrArg openInodes hc.mem
  have hfile := congrArg files hc.mem
  have hnext := congrArg nextAddr hc.mem
  have hmap := congrArg freeMapFile hc.mem
  refine ⟨⟨hc.state, ?_, ?_, fun t o ht => ?_⟩, hu, .of_eq (by rw [hnext]; exact Nat.le_succ _) hinodes⟩
  · refine h.disk.change s rfl hbitCnt hc.size hobjs (fun t o _ ht => hu t o ht) ?_ (fun x => ?_) nofun
    · intro o ho
      cases hself.symm.trans ho
      exact ⟨hc.fileOk hlen hlt hmark, hnot⟩
    · rw [hc.used, h.disk.used, hrest, hs, hself]
      show _ ↔ _ ∨ _ ∨ none = some x
      simp only [Option.some.injEq, exists_eq_left', reduceCtorEq, or_false, World.owns, or_assoc, @eq_comm _ x s]
  · refine (h.mem.perm _ (fun a i hi hne => hobjs _ ?_) (.refl _) h.mem.handle h.mem.handlesNodup).congr hinodes
      hopen hfile (by rw [hnext]; exact Nat.le_succ _) hmap
    rintro rfl
    rw [(h.mem.obj a i hi hne).1] at hnone
    cases hnone
  · rcases eq_or_ne t s with rfl | hne
    · cases hself.symm.trans ht
      exact .inr ⟨hc.own, rfl⟩
    · rw [hobjs t hne] at ht
      rw [hother t (hfiles ht (.inl rfl)) (h.disk.owned ht (.inl rfl)).2.1]
      have hold := h.onDisk t o ht
      rwa [← show v.mem.inodes = w.mem.inodes from hinodes] at hold

theorem inodeCreate (hs : g.spare = some s) (h0 : 0 ≤ n) (hn : n ≤ mapBytes) :
    Runs true (Pintos.inodeCreate s n) (fun r v => r = true ∧ ∃ d, d.length = n ∧ Created w v g.E s d ∧
      Store (Ghost.put { g with spare := none } s (.present d)) v ∧ Kept g w v) w := by
  obtain ⟨hlt, hunused⟩ := h.disk.spare s hs
  refine (Runs.inodeCreate h.freeMapWhole ⟨hlt, (h.disk.used s).mpr (.inr hs), fun hE => hunused (.inr (.inl hE))⟩ h0 hn).mono ?_
  rintro r v ⟨rfl, d, rfl, hc⟩
  exact ⟨rfl, d, rfl, hc, h.created hs ⟨h0, hn⟩ hc⟩

end

end Store

/-! ## Removing, and `struct file`s -/

namespace Store

theorem inodeRemove (h : Store g w) (hi : w.mem.inodes a = some i) (hs : i.sector ≠ freeMapSector) :
    Runs true (inodeRemove a) (fun _ v => Store (g.put i.sector { data := i.data, removed := true }) v ∧ Kept g w v ∧
      v.mem.inodes a = some { i with removed := true }) w := by
  obtain ⟨hobj, -, -⟩ := h.mem.obj a i hi hs
  have hfile := h.disk.file _ _ hobj
  refine (modifyInode_iff hi).mpr ?_
  have hu := h.untouched (v := { w with mem := w.mem.setInode a (some { i with removed := true }) }) rfl rfl
  refine ⟨?_, ⟨hu, .setInode (Nat.le_refl _) rfl hi rfl⟩, setInode_self _ _ _⟩
  have hw := Written.refl hfile g.E 0
  refine h.written (?_ : Written _ _ _ _ _ 0 []) hi hs true (h.state.setInode (h.mem.notFreeMap hi hs) _) hfile.length rfl
  exact { hw with }

theorem fileOpen (h : Store g w) (hheld : g.held = a :: held) :
    Runs true (fileOpen (some a)) (fun r v => ∃ f, r = some f ∧ (∀ b, (f, b) ∉ g.handles) ∧
      Store { g with held := held, handles := (f, a) :: g.handles } v ∧ Kept g w v ∧ v.mem.inodes = w.mem.inodes) w := by
  refine malloc_bind (.inl rfl) (fun heap _ => ?_)
  rw [modify_bind]
  have hold : ∀ f file, w.mem.freeMapFile = some f → w.mem.files f = some file → f ≠ w.mem.nextAddr := by
    intro f file hf _
    obtain ⟨f0, -, -, -, hlt, hf0, -⟩ := h.mem.freeMap
    cases hf0.symm.trans hf
    exact Nat.ne_of_lt hlt
  obtain ⟨hst, hkept⟩ := h.withMem { g with held := held, handles := (w.mem.nextAddr, a) :: g.handles }
    (v := World.fileOpened { w with heap := heap } a) rfl rfl rfl rfl rfl rfl rfl
    (fun f file hf hfile => ⟨(setFile_ne _ _ (hold f file hf hfile)).trans hfile, rfl⟩)
    ((h.mem.newFile hheld).congr rfl rfl rfl (Nat.le_refl _) rfl) (fun b k hk => ⟨b, k, hk, rfl⟩) (.of_eq (Nat.le_succ _) rfl)
  exact pure_iff.mpr ⟨w.mem.nextAddr, rfl, fun b hb => absurd (h.mem.handle _ _ hb).1 (Nat.lt_irrefl _), hst, hkept, rfl⟩

theorem fileClose (h : Store g w) {f : Nat} (hf : (f, a) ∈ g.handles) (hi : w.mem.inodes a = some i)
    (hs : i.sector ≠ freeMapSector) :
    Runs true (fileClose (some f)) (fun _ v =>
      Store (release { g with handles := g.handles.erase (f, a) } a i.sector i.removed g.held) v ∧
      Kept (release { g with handles := g.handles.erase (f, a) } a i.sector i.removed g.held) w v) w := by
  obtain ⟨-, hmapFile, pos, hfile⟩ := h.mem.handle f a hf
  obtain ⟨hst, -⟩ := h.withMem { g with held := a :: g.held, handles := g.handles.erase (f, a) } rfl rfl rfl rfl rfl rfl rfl
    (fun _ _ _ hfile => ⟨hfile, rfl⟩) (h.mem.takeOver hf) (fun b k hk => ⟨b, k, hk, rfl⟩) (.of_eq (Nat.le_refl _) rfl)
  simp only [Pintos.fileClose, fileAllowWrite]
  rw [bind_assoc, file_bind hfile]
  simp only [Bool.false_eq_true, if_false]
  rw [pure_bind, file_bind hfile]
  refine (hst.inodeClose hi hs rfl).bind ?_
  rintro _ v ⟨hst', hkept, hmap⟩
  refine modify_iff.mpr ?_
  have hne : v.mem.freeMapFile ≠ some f := by rw [hmap]; exact hmapFile
  obtain ⟨hst2, hkept2⟩ := hst'.withMem _ (v := { v with mem := v.mem.setFile f none }) rfl rfl rfl rfl rfl rfl rfl
    (fun f' file hf' hfile' => ⟨(setFile_ne _ _ (by rintro rfl; exact hne hf')).trans hfile', rfl⟩)
    (hst'.mem.freeFile hne (h.mem.handle_gone hf)) (fun b k hk => ⟨b, k, hk, rfl⟩) (.of_eq (Nat.le_refl _) rfl)
  exact ⟨hst2, fun s o ho => (hkept.files s o ho).trans (hkept2.files s o ho), hkept.cells.trans hkept2.cells⟩

end Store

end Pintos
