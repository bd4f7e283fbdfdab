import Pintos.Lemmas.AnyRun
import Pintos.Lemmas.FilesysRuns

/-!
# The stages of `filesys_create`

The root directory is opened, a sector is taken for the inode, the inode is made, an entry is added, and the directory is
closed. Each stage may fail, and then the rest only gives the sector back. What a stage has marked besides stays marked:
`OnlyMarks` holds of all that comes between, whatever state it runs in.
-/

namespace Pintos

open Program Yields World Runs BlockWorld Fs

variable {u v w : World} {α β : Type} {st : Bool} {Q : α → World → Prop} {a s x : Nat} {i j : Inode} {d : InodeDisk}
  {E : Nat → Prop} {n : Int} {alloc : FsM (Option Nat)}

variable (dir : Nat) (name : CString) (initialSize : Int)

/-- `filesys_create` from where the inode has been made or not. -/
def createEnd (inodeSector : Nat) (made : Bool) : FsM Bool :=
  (if made then dirAdd dir name inodeSector else pure false) >>= fun success =>
    (if !success ∧ inodeSector ≠ 0 then freeMapRelease inodeSector else pure ()) >>= fun _ => dirClose (some dir) >>=
      fun _ => pure success

/-- `filesys_create` from where the root directory is open. -/
def createIn : FsM Bool :=
  freeMapAllocate >>= fun r =>
    match r with
    | none => dirClose (some dir) >>= fun _ => pure false
    | some inodeSector => inodeCreate inodeSector initialSize >>= createEnd dir name inodeSector

theorem filesysCreate_eq :
    filesysCreate name initialSize = dirOpenRoot >>= fun r =>
      match r with
      | none => pure false
      | some dir => createIn dir name initialSize := by
  unfold filesysCreate createIn createEnd
  congr 1
  funext r
  cases r with
  | none => rfl
  | some dir =>
    simp only
    congr 1
    funext r
    cases r with
    | none => rfl
    | some s =>
      simp only
      congr 1
      funext made
      cases made with
      | false =>
        simp only [Bool.false_eq_true, if_false, pure_bind]
        split
        · rfl
        · rfl
      | true =>
        refine congrArg (dirAdd dir name s >>= ·) (funext fun success => ?_)
        split
        · rfl
        · rfl

/-! ## Nothing is given up -/

/-- No sector is given up, and the inodes in memory have the openers they had. -/
structure OnlyMarks (w v : World) : Prop where
  bits : ∀ x, w.mem.freeMap x = true → v.mem.freeMap x = true
  cells : ∀ a i, w.mem.inodes a = some i → ∃ j, v.mem.inodes a = some j ∧ i.SameOpen j

namespace OnlyMarks

theorem of_eq (hbits : v.mem.freeMap = w.mem.freeMap) (hcells : v.mem.inodes = w.mem.inodes) : OnlyMarks w v where
  bits _ hx := hbits ▸ hx
  cells a i hi := ⟨i, (congrFun hcells a).trans hi, rfl, rfl, rfl⟩

theorem trans (h : OnlyMarks w v) (h' : OnlyMarks v u) : OnlyMarks w u where
  bits x hx := h'.bits x (h.bits x hx)
  cells a i hi := by
    obtain ⟨j, hj, h1, h2, h3⟩ := h.cells a i hi
    obtain ⟨k, hk, h4, h5, h6⟩ := h'.cells a j hj
    exact ⟨k, hk, h4.trans h1, h5.trans h2, h6.trans h3⟩

theorem coarse (a : Nat) : Coarse a OnlyMarks where
  refl _ := .of_eq rfl rfl
  trans _ _ _ h1 h2 := h1.trans h2
  disk _ _ := .of_eq rfl rfl
  inode w i j hi hsame := by
    refine ⟨fun _ h => h, fun b k hk => ?_⟩
    rcases eq_or_ne b a with rfl | hne
    · cases hi.symm.trans hk
      exact ⟨j, w.mem.setInode_self b _, hsame⟩
    · exact ⟨k, (w.mem.setInode_ne _ hne).trans hk, rfl, rfl, rfl⟩

theorem mark (w : World) (x : Nat) : OnlyMarks w { w with mem := w.mem.setBit x true } := by
  refine ⟨fun y hy => ?_, fun a i hi => ⟨i, hi, rfl, rfl, rfl⟩⟩
  by_cases hyx : y = x
  · exact if_pos hyx
  · exact (if_neg hyx).trans hy

/-- `free_map_allocate` clears a bit again only if it has set it. -/
theorem freeMapAllocate : KeepsRel st OnlyMarks freeMapAllocate := by
  refine (coarse 0).freeMapAllocate (fun w x _ => mark w x) (fun w v x hscan hv => ⟨fun y hy => ?_, hv.cells⟩)
    (KeepsRel.bitmapWrite coarse)
  have hyx : y ≠ x := by
    rintro rfl
    rw [(bitmapScan_some hscan).2.1] at hy
    cases hy
  exact (if_neg hyx).trans (hv.bits y hy)

/-- The map of a new inode grows. -/
theorem onFresh (p : BlockM α) : KeepsRel st OnlyMarks (onBlocks Pintos.freeMapAllocate .fresh p) :=
  (coarse 0).onBlocks (KeepsRel.get_bind' fun _ => (coarse 0).pure _)
    (fun _ => KeepsRel.modify fun _ => .of_eq rfl rfl) freeMapAllocate p

theorem readEntry (a ofs : Nat) : KeepsRel st OnlyMarks (readEntry a ofs) :=
  (coarse a).bind ((coarse a).inodeReadAt _ _) (fun _ => (coarse a).pure _)

theorem dirTurns (a : Nat) : KeepsRel st OnlyMarks (dirTurns a) :=
  (coarse a).bind ((coarse a).bind ((coarse a).inodeAt a) (fun _ => (coarse a).pure _)) (fun _ => (coarse a).pure _)

theorem lookupFrom (a : Nat) (name : CString) (turns ofs : Nat) : KeepsRel st OnlyMarks (lookupFrom a name turns ofs) := by
  induction turns generalizing ofs with
  | zero => exact KeepsRel.halt _
  | succ turns ih =>
    refine (coarse a).bind (readEntry a ofs) (fun e => ?_)
    cases e with
    | none => exact (coarse a).pure _
    | some e =>
      dsimp only
      split
      · exact (coarse a).pure _
      · exact ih _

theorem findSlot (a turns ofs : Nat) (e : DirEntry) : KeepsRel st OnlyMarks (findSlot a turns ofs e) := by
  induction turns generalizing ofs e with
  | zero => exact KeepsRel.halt _
  | succ turns ih =>
    refine (coarse a).bind (readEntry a ofs) (fun r => ?_)
    cases r with
    | none => exact (coarse a).pure _
    | some e =>
      dsimp only
      split
      · exact ih _ _
      · exact (coarse a).pure _

theorem dirAdd (a : Nat) (name : CString) (sector : Nat) : KeepsRel st OnlyMarks (dirAdd a name sector) := by
  have hR := coarse a
  unfold Pintos.dirAdd
  split
  · exact hR.pure _
  refine hR.bind (hR.bind (dirTurns a) (fun _ => lookupFrom a name _ 0)) (fun r => ?_)
  cases r with
  | some _ => exact hR.pure _
  | none =>
    refine hR.bind (dirTurns a) (fun _ => hR.bind (findSlot a _ 0 _) (fun _ => ?_))
    exact hR.bind (hR.inodeWriteAt freeMapAllocate _ _ _) (fun _ => hR.pure _)

end OnlyMarks

/-! ## Opening and closing the root directory -/

theorem Runs.yields {p : FsM α} (h : Runs st p Q w) : Yields st p Q w := h.ends (fun _ _ => trivial)

/-- The entries of the root directory. -/
def World.rootEntries (w : World) : List DirEntry := w.slots (w.inodeData rootDirSector)

/-- The root directory is open as the inode `i` at the address `a`, and nowhere else. -/
structure RootCell (w : World) (a : Nat) (i : Inode) : Prop where
  cell : w.mem.inodes a = some i
  sector : i.sector = rootDirSector
  kept : i.removed = false
  listed : w.mem.findOpen rootDirSector = some a
  alone : ∀ b ∈ w.mem.openInodes.erase a, ∀ j, w.mem.inodes b = some j → j.sector ≠ rootDirSector

/-- The scan of `inode_open` looks at nothing but the sectors of the inodes. -/
theorem Fs.findOpen_setInode {fs : Fs} (hi : fs.inodes a = some i) (hs : j.sector = i.sector) (s : Nat) :
    (fs.setInode a (some j)).findOpen s = fs.findOpen s := by
  unfold findOpen
  congr 1
  funext b
  rcases eq_or_ne b a with rfl | hne
  · rw [setInode_self, hi, Option.any_some, Option.any_some, hs]
  · rw [setInode_ne _ _ hne]

/-- Blocks in the same sectors, with the same bytes, hold the same entries. -/
theorem World.slots_congr {d' : InodeDisk} (hlen : d'.length = d.length)
    (h : ∀ b, MapSlot.InUse (w.blocksOf d).blocks (.block b) →
      (v.blocksOf d').sector (.block b) = (w.blocksOf d).sector (.block b) ∧
      v.dev.disk ((w.blocksOf d).sector (.block b)) = w.dev.disk ((w.blocksOf d).sector (.block b))) : v.slots d' =
        w.slots d := by
  unfold slots
  rw [hlen]
  refine List.map_congr_left (fun k hk => slot_congr (fun j _ hj => ?_))
  obtain ⟨hsec, hdisk⟩ := h _ (block_inUse w (slot_byte_lt (List.mem_range.mp hk) hj))
  rw [fileByte, hsec]
  exact congrArg (fun c : Contents => c.byte (j % 512)) hdisk

/-- A sector that the map does not lead to does not matter to the entries of a directory. -/
theorem World.slots_put {c : InodeDisk} (h : ∀ p, MapSlot.InUse (w.blocksOf d).blocks p → (w.blocksOf d).sector p ≠ s) :
    (w.put s c).slots d = w.slots d := by
  have hst : Stable (w.blocksOf d).blocks (w.blocksOf d) ((w.put s c).blocksOf d) :=
    stable_of_index rfl (fun p hp _ => if_neg (h p hp))
  exact slots_congr rfl (fun b hb => ⟨hst _ hb, if_neg (h _ hb)⟩)

namespace RootCell

section

variable (h : RootCell w a i)
include h

theorem rootEntries_eq : w.rootEntries = w.slots i.data := by
  unfold rootEntries inodeData
  rw [h.listed, Option.bind_some, h.cell]

theorem congr (hinodes : v.mem.inodes = w.mem.inodes) (hopen : v.mem.openInodes = w.mem.openInodes) : RootCell v a i := by
  refine ⟨hinodes ▸ h.cell, h.sector, h.kept, ?_, ?_⟩
  · have := h.listed
    unfold findOpen at this ⊢
    rw [hinodes, hopen]
    exact this
  · rw [hinodes, hopen]
    exact h.alone

/-- The inode is changed, but it stays that of the root directory. -/
theorem recell (hs : j.sector = i.sector) (hr : j.removed = i.removed) :
    RootCell { w with mem := w.mem.setInode a (some j) } a j where
  cell := setInode_self _ _ _
  sector := hs.trans h.sector
  kept := hr.trans h.kept
  listed := (findOpen_setInode h.cell hs _).trans h.listed
  alone b hb k hk := by
    rcases setInode_cases hk with ⟨rfl, -⟩ | ⟨-, hk⟩
    · exact absurd h.sector (h.alone b hb i h.cell)
    · exact h.alone b hb k hk

/-- `dir_close` leaves the entries that the inode leads to. -/
theorem dirClose (hin : rootDirSector < w.dev.size)
    (hmap : ∀ p, MapSlot.InUse (w.blocksOf i.data).blocks p → (w.blocksOf i.data).sector p ≠ rootDirSector) :
    Runs st (dirClose (some a)) (fun _ v => v.mem.freeMap = w.mem.freeMap ∧ v.rootEntries = w.slots i.data) w := by
  by_cases hone : i.openCnt = 1
  · refine (inodeClose_last h.cell hone (h.sector ▸ hin) h.kept).mono ?_
    rintro _ _ rfl
    refine ⟨rfl, ?_⟩
    have hgone : ((w.closing a i).freeInode a).mem.findOpen rootDirSector = none := by
      refine List.find?_eq_none.mpr (fun b hb => ?_)
      rw [closing_inodes]
      rcases eq_or_ne b a with rfl | hne
      · simp
      · rw [setInode_ne _ _ hne]
        cases hj : w.mem.inodes b with
        | none => simp
        | some j => simpa using h.alone b hb j hj
    unfold rootEntries inodeData
    rw [hgone]
    have hdisk : ((w.closing a i).freeInode a).dev.disk rootDirSector = i.data := if_pos h.sector.symm
    rw [hdisk]
    exact (slots_put (c := i.data) (s := i.sector) (h.sector ▸ hmap) : _)
  · refine (inodeClose_shared h.cell hone).mono ?_
    rintro _ _ rfl
    exact ⟨rfl, (h.recell (j := { i with openCnt := i.openCnt - 1 }) rfl rfl).rootEntries_eq⟩

end

end RootCell

/-- The file system as `filesys_create` finds it: the free map, in the sectors `E`, and the root directory are in order.
Where the directory is open it is so once and no one writes to it. -/
structure RootReady (w : World) (E : Nat → Prop) : Prop where
  growable : Growable w E rootDirSector (w.inodeData rootDirSector)
  entries : (w.inodeData rootDirSector).length.toNat % dirEntrySize = 0
  own : ¬E rootDirSector
  /-- The sector of the free map's inode is in use. -/
  first : w.mem.freeMap freeMapSector = true
  settled : ∀ a i, w.mem.findOpen rootDirSector = some a → w.mem.inodes a = some i →
    i.removed = false ∧ i.extending = false ∧ i.denyWriteCnt = 0 ∧ w.NotFreeMap a
  alone : ∀ a, w.mem.findOpen rootDirSector = some a → ∀ b ∈ w.mem.openInodes.erase a, ∀ j, w.mem.inodes b = some j →
    j.sector ≠ rootDirSector
  fresh : (∀ b ∈ w.mem.openInodes, b < w.mem.nextAddr) ∧ w.NotFreeMap w.mem.nextAddr

/-- The root directory is open for `filesys_create`. -/
structure RootOpen (w : World) (E : Nat → Prop) (a : Nat) (i : Inode) : Prop extends Writable w E a i, RootCell w a i where
  settled : i.extending = false ∧ i.denyWriteCnt = 0
  entries : i.data.length.toNat % dirEntrySize = 0
  rootApart : ¬E rootDirSector
  first : w.mem.freeMap freeMapSector = true

/-- The calls of `malloc` that `filesys_create` makes: for the root's inode if it is not open, for the `struct dir`, and for
the new inode. -/
def World.createMallocs (w : World) : Nat := if (w.mem.findOpen rootDirSector).isSome then 2 else 3

/-- One of these calls will fail. -/
def World.MallocFails (w : World) : Prop := ∃ n < w.createMallocs, w.heap n = false

theorem Yields.readSector_bind {k : Contents → FsM β} {Q : β → World → Prop}
    (h : Yields st (k (w.dev.disk x)) Q w) : Yields st (FsM.readSector x >>= k) Q w := by
  refine Prog.ends_call.mpr ?_
  by_cases hc : w.dev.checkSector x
  · simp only [FsOp.exec, if_pos hc]
    exact h
  · simp only [FsOp.exec, if_neg hc]

theorem Yields.writeSector (x : Nat) (c : Contents) : Yields st (FsM.writeSector x c) (fun _ v => v = w.put x c) w := by
  by_cases hx : w.dev.checkSector x = true
  · exact ((writeSector_iff (of_decide_eq_true hx)).mpr rfl).yields
  · refine Prog.ends_call.mpr ?_
    simp only [FsOp.exec, if_neg hx]

theorem Yields.malloc_bind {k : Option Nat → FsM β} {Q : β → World → Prop}
    (hsome : w.heap 0 = true → Yields st (k (some w.mem.nextAddr)) Q
      { mem := { w.mem with nextAddr := w.mem.nextAddr + 1 }, dev := w.dev, heap := fun n => w.heap (n + 1) })
    (hnone : w.heap 0 = false → Yields st (k none) Q { w with heap := fun n => w.heap (n + 1) }) :
    Yields st (FsM.malloc >>= k) Q w := by
  unfold FsM.malloc
  refine Prog.ends_call.mpr ?_
  cases h0 : w.heap 0 with
  | false =>
    cases st with
    | true => simp [FsOp.exec, h0]
    | false =>
      simp only [FsOp.exec, h0, Bool.false_eq_true, and_false, if_false]
      exact hnone h0
  | true =>
    simp only [FsOp.exec, h0, Bool.true_eq_false, false_and, if_false]
    exact hsome h0

/-- What the open directory is in a world with the same sectors. -/
theorem RootReady.rootOpen (h : RootReady w E) (hdev : v.dev = w.dev) (hbits : v.mem.freeMap = w.mem.freeMap)
    (hcnt : v.mem.bitCnt = w.mem.bitCnt) (hstate : FreeMapState v E) (hcell : RootCell v a i)
    (hdata : i.data = w.inodeData rootDirSector)
    (hsettled : i.extending = false ∧ i.denyWriteCnt = 0) (hnot : v.NotFreeMap a) :
    RootOpen v E a i ∧ v.slots i.data = w.rootEntries := by
  have hg := h.growable
  have hb : v.blocksOf i.data = w.blocksOf (w.inodeData rootDirSector) := by rw [blocksOf, blocksOf, hdev, hbits, hdata]
  have hfile : FileOk v i.sector i.data := by
    rw [hcell.sector]
    exact ⟨hdata ▸ hg.file.length, hb ▸ hg.file.map, by rw [hdev, hbits]; exact hg.file.own, hb ▸ hg.file.notMapped⟩
  refine ⟨?_, ?_⟩
  · exact
      { hcell with
        file := hfile
        state := hstate
        marked := by rw [hbits]; exact hg.marked
        apart := hb ▸ hg.apart
        whole := by rw [hcnt, hdev]; exact hg.whole
        numbered := by rw [hdev]; exact hg.numbered
        notFreeMap := hnot
        settled := hsettled
        entries := hdata ▸ h.entries
        rootApart := h.own
        first := by rw [hbits]; exact h.first }
  · unfold rootEntries slots slot
    rw [hb, hdata]

/-- What `dir_open_root` comes to: a call of `malloc` has failed and nothing is different, or the directory is open. -/
def RootOpened (w : World) (E : Nat → Prop) (r : Option Nat) (v : World) : Prop :=
  v.mem.freeMap = w.mem.freeMap ∧
    match r with
    | none => w.MallocFails ∧ v.rootEntries = w.rootEntries
    | some a => v.mem.bitCnt = w.mem.bitCnt ∧ (w.MallocFails ↔ v.heap 0 = false) ∧ ∃ i, RootOpen v E a i ∧
      v.slots i.data = w.rootEntries

namespace RootOpen

/-- Sectors that are not in use are written, and some are marked. -/
theorem frame (h : RootOpen w E a i) (hstate : FreeMapState v E) (hinodes : v.mem.inodes = w.mem.inodes)
    (hopen : v.mem.openInodes = w.mem.openInodes) (hfiles : v.mem.freeMapFile = w.mem.freeMapFile ∧ v.mem.files = w.mem.files)
    (hbits : ∀ x, w.mem.freeMap x = true → v.mem.freeMap x = true) (hcnt : v.mem.bitCnt = w.mem.bitCnt)
    (hsize : v.dev.size = w.dev.size)
    (hdisk : ∀ x, w.mem.freeMap x = true → ¬E x → v.dev.disk x = w.dev.disk x) : RootOpen v E a i ∧
    v.slots i.data = w.slots i.data := by
  have hu : Untouched w v i.sector i.data := h.file.untouched hsize (fun x hx => hbits x (h.file.marked hx))
    (fun p hp => hdisk _ (h.file.map.marked p hp) (h.apart p hp))
  have hcell := h.toRootCell.congr hinodes hopen
  refine ⟨?_, hu.slots⟩
  exact
    { hcell with
      file := hu.file
      state := hstate
      marked := fun x hx => hbits x (h.marked x hx)
      apart := fun p hp hE => by
        rcases (hu.owns _).mp (.inr ⟨p, hp, rfl⟩) with hs | ⟨q, hq, he⟩
        · exact h.rootApart (h.sector ▸ hs ▸ hE)
        · exact h.apart q hq (he ▸ hE)
      whole := by rw [hcnt, hsize]; exact h.whole
      numbered := by rw [hsize]; exact h.numbered
      notFreeMap := fun f file hf hfile => h.notFreeMap f file (hfiles.1 ▸ hf) (hfiles.2 ▸ hfile)
      settled := h.settled
      entries := h.entries
      rootApart := h.rootApart
      first := hbits _ h.first }

theorem dirOpen (h : RootOpen u E a i ∧ u.slots i.data = w.rootEntries) (hbits : u.mem.freeMap = w.mem.freeMap)
    (hcnt : u.mem.bitCnt = w.mem.bitCnt) (hfail : u.heap 0 = false → w.MallocFails)
    (hlast : u.heap 0 = true → (w.MallocFails ↔ u.heap 1 = false)) : Yields false (dirOpen (some a)) (RootOpened w E) u := by
  obtain ⟨h, hslots⟩ := h
  refine malloc_bind (fun h0 => pure_iff.mpr ?_) (fun h0 => ?_)
  · have hstate : FreeMapState { mem := { u.mem with nextAddr := u.mem.nextAddr + 1 }, dev := u.dev,
                                 heap := fun n => u.heap (n + 1) } E :=
      h.state.frame rfl rfl rfl (fun _ _ _ hf => ⟨hf, rfl⟩) rfl (fun _ _ => rfl)
    obtain ⟨hopen, hsame⟩ := h.frame hstate rfl rfl ⟨rfl, rfl⟩ (fun _ hx => hx) rfl rfl (fun _ _ _ => rfl)
    exact ⟨hbits, hcnt, hlast h0, i, hopen, hsame.trans hslots⟩
  · have hcell : RootCell { u with heap := fun n => u.heap (n + 1) } a i := h.toRootCell.congr rfl rfl
    refine (hcell.dirClose (h.sector ▸ h.file.own.1) (h.sector ▸ h.file.notMapped)).yields.bind (fun _ v hv => ?_)
    exact pure_iff.mpr ⟨hv.1.trans hbits, hfail h0, hv.2.trans hslots⟩

end RootOpen

namespace RootReady

theorem dirOpenRoot (h : RootReady w E) : Yields false Pintos.dirOpenRoot (RootOpened w E) w := by
  unfold Pintos.dirOpenRoot inodeOpen
  rw [bind_assoc, Yields.get_bind]
  cases hfind : w.mem.findOpen rootDirSector with
  | some a =>
    -- It is open: it gets one more opener.
    obtain ⟨i, hi, hs⟩ := findOpen_some hfind
    obtain ⟨hkept, hext, hdeny, hnot⟩ := h.settled a i hfind hi
    have hdata : i.data = w.inodeData rootDirSector := by
      unfold inodeData
      rw [hfind, Option.bind_some, hi]
    have hcell : RootCell w a i := ⟨hi, hs, hkept, hfind, h.alone a hfind⟩
    have htwo : w.createMallocs = 2 := by
      unfold createMallocs
      rw [hfind]
      rfl
    rw [bind_assoc]
    refine modifyInode_bind (fun j hj => ?_)
    cases hi.symm.trans hj
    refine RootOpen.dirOpen (h.rootOpen rfl rfl rfl ?_ (hcell.recell rfl rfl) hdata ⟨hext, hdeny⟩ hnot) rfl rfl
      (fun h0 => ⟨0, by omega, h0⟩) (fun h0 => ?_)
    · exact h.growable.state.setInode hnot _
    · refine ⟨fun ⟨n, hn, hf⟩ => ?_, fun hf => ⟨1, by omega, hf⟩⟩
      obtain rfl | rfl : n = 0 ∨ n = 1 := by omega
      · cases h0.symm.trans hf
      · exact hf
  | none =>
    have hthree : w.createMallocs = 3 := by
      unfold createMallocs
      rw [hfind]
      rfl
    rw [bind_assoc]
    refine malloc_bind (fun h0 => ?_) (fun h0 => ?_)
    · -- Its inode is read into memory.
      rw [bind_assoc]
      refine modify_bind ?_
      rw [bind_assoc]
      refine readSector_bind ?_
      rw [bind_assoc]
      refine modify_bind ?_
      have hdata : w.dev.disk rootDirSector = w.inodeData rootDirSector := by
        unfold inodeData
        rw [hfind]
        rfl
      have hne : ∀ b ∈ w.mem.openInodes, b ≠ w.mem.nextAddr := fun b hb => Nat.ne_of_lt (h.fresh.1 b hb)
      refine RootOpen.dirOpen (h.rootOpen rfl rfl rfl ?_ ⟨setInode_self _ _ _, rfl, rfl, ?_, ?_⟩ hdata ⟨rfl, rfl⟩
        h.fresh.2) rfl rfl (fun h1 => ⟨1, by omega, h1⟩) (fun h1 => ?_)
      · exact h.growable.state.frame rfl rfl rfl (fun f file hf hfile => ⟨hfile, setInode_ne _ _ (h.fresh.2 f file hf hfile)⟩) rfl
          (fun _ _ => rfl)
      · refine List.find?_cons_of_pos ?_
        rw [setInode_self]
        exact beq_self_eq_true _
      · intro b hb j hj
        have hold : b ∈ (w.mem.nextAddr :: w.mem.openInodes).erase w.mem.nextAddr := hb
        rw [List.erase_cons_head] at hold
        exact findOpen_none hfind hold ((setInode_ne _ _ (hne b hold)).symm.trans hj)
      refine ⟨fun ⟨n, hn, hf⟩ => ?_, fun hf => ⟨2, by omega, hf⟩⟩
      obtain rfl | rfl | rfl : n = 0 ∨ n = 1 ∨ n = 2 := by omega
      · cases h0.symm.trans hf
      · cases h1.symm.trans hf
      · exact hf
    · -- There is no memory for its inode.
      have hnone : RootOpened w E none { w with heap := fun n => w.heap (n + 1 + 1) } := ⟨rfl, ⟨0, by omega, h0⟩, rfl⟩
      exact malloc_bind (fun _ => pure_iff.mpr hnone) (fun _ => pure_iff.mpr hnone)

end RootReady

/-! ## The stages while the directory is open -/

theorem RootOpen.readable (h : RootOpen w E a i) : Readable w a i := { h with }

/-- The sector `s` has been taken since the world `w`, and nothing else is different about the free map and the root
directory. -/
structure Taken (w v : World) (E : Nat → Prop) (a : Nat) (i : Inode) (s : Nat) : Prop where
  state : FreeMapState v E
  root : RootCell v a i
  inside : rootDirSector < v.dev.size
  notMapped : ∀ p, MapSlot.InUse (v.blocksOf i.data).blocks p → (v.blocksOf i.data).sector p ≠ rootDirSector
  apart : ∀ p, MapSlot.InUse (v.blocksOf i.data).blocks p → ¬E ((v.blocksOf i.data).sector p)
  inMap : s < v.mem.bitCnt
  free : w.mem.freeMap s = false
  bits : v.mem.freeMap = (w.mem.setBit s true).freeMap
  entries : v.slots i.data = w.rootEntries

theorem RootOpen.taken (h : RootOpen v E a i) (hs : s < v.mem.bitCnt)
    (hfree : w.mem.freeMap s = false) (hbits : v.mem.freeMap = (w.mem.setBit s true).freeMap)
    (hentries : v.slots i.data = w.rootEntries) : Taken w v E a i s :=
  ⟨h.state, h.toRootCell, h.sector ▸ h.file.own.1, h.sector ▸ h.file.notMapped, h.apart, hs, hfree, hbits, hentries⟩

/-- `free_map_release`, where it returns: without a file of the free map it does not. -/
theorem Yields.freeMapRelease (h : FreeMapState w E) (hx : x < w.mem.bitCnt) (hused : w.mem.freeMap x = true) :
    Yields st (Pintos.freeMapRelease x) (fun _ v => ∃ dev, v = { w with mem := w.mem.setBit x false, dev := dev } ∧
      DevWithin E w.dev dev) w := by
  cases hf : w.mem.freeMapFile with
  | some f =>
    refine (Runs.freeMapRelease h (by rw [hf]; rfl) hx hused).yields.mono ?_
    rintro _ v ⟨dev, hv, hdev, -⟩
    exact ⟨dev, hv, hdev⟩
  | none =>
    unfold Pintos.freeMapRelease
    rw [get_bind]
    have hassert : FsM.assert (decide (x < w.mem.bitCnt) && w.mem.freeMap x) = pure () := by rw [decide_eq_true hx, hused]; rfl
    rw [hassert, pure_bind]
    refine Prog.ends_call.mpr ?_
    show Yields st (bitmapWrite >>= fun _ => pure ()) _ { w with mem := w.mem.setBit x false }
    unfold bitmapWrite
    rw [bind_assoc, get_bind, show (mem { w with mem := w.mem.setBit x false }).freeMapFile = none from hf]
    exact trivial

/-- The sector is given back, and the directory is closed. -/
theorem Taken.undone (h : Taken w v E a i s) {r : β} :
    Yields st (Pintos.freeMapRelease s >>= fun _ => Pintos.dirClose (some a) >>= fun _ => pure r)
      (fun _ u => u.mem.freeMap = w.mem.freeMap ∧ u.rootEntries = w.rootEntries) v := by
  have hused : v.mem.freeMap s = true := by
    rw [h.bits]
    exact if_pos rfl
  refine (Yields.freeMapRelease h.state h.inMap hused).bind ?_
  rintro _ _ ⟨dev, rfl, hdev⟩
  have hst : BlockWorld.Stable (v.blocksOf i.data).blocks (v.blocksOf i.data)
      (blocksOf { v with mem := v.mem.setBit s false, dev := dev } i.data) :=
    BlockWorld.stable_of_index rfl (fun p hp _ => hdev.same _ (h.apart p hp))
  have hcell : RootCell { v with mem := v.mem.setBit s false, dev := dev } a i := h.root.congr rfl rfl
  have hin : rootDirSector < dev.size := Nat.lt_of_lt_of_eq h.inside hdev.size.symm
  refine (hcell.dirClose hin (fun p hp => hst p hp ▸ h.notMapped p hp)).yields.bind (fun _ u hu => Yields.pure_iff.mpr ?_)
  refine ⟨?_, hu.2.trans (Eq.trans ?_ h.entries)⟩
  · rw [hu.1]
    funext x
    by_cases hx : x = s
    · rw [hx, h.free]
      exact if_pos rfl
    · refine (if_neg hx).trans ?_
      rw [h.bits]
      exact if_neg hx
  · exact slots_congr rfl (fun b hb => ⟨hst _ hb, hdev.same _ (h.apart _ hb)⟩)

/-! ## What stays marked -/

namespace OnlyMarks

theorem freeMapRelease (s : Nat) : Yields st (Pintos.freeMapRelease s)
    (fun _ v => OnlyMarks { w with mem := w.mem.setBit s false } v) w := by
  unfold Pintos.freeMapRelease
  rw [Yields.get_bind]
  cases decide (s < w.mem.bitCnt) && w.mem.freeMap s with
  | false => exact trivial
  | true =>
    have hwrite : KeepsRel st OnlyMarks (bitmapWrite >>= fun _ => pure ()) :=
      (coarse 0).bind (KeepsRel.bitmapWrite coarse) (fun _ => (coarse 0).pure ())
    exact Prog.ends_call.mpr (hwrite { w with mem := w.mem.setBit s false })

/-- `dir_close` of an inode that is not removed gives nothing up. -/
theorem dirClose (hi : w.mem.inodes a = some i) (hr : i.removed = false) :
    Yields st (dirClose (some a)) (fun _ v => v.mem.freeMap = w.mem.freeMap) w := by
  refine inode_bind (fun j hj => ?_)
  cases hi.symm.trans hj
  refine modify_bind ?_
  split
  · refine modify_bind ((Yields.writeSector _ _).bind ?_)
    rintro _ _ rfl
    rw [if_neg (by rw [hr]; decide)]
    exact rfl
  · exact pure_iff.mpr rfl

/-- The end of `filesys_create`, after the inode has been made or not: a sector that is marked stays so, but for the one it
may give back. -/
theorem rest (hi : w.mem.inodes a = some i) (hr : i.removed = false) (hx : w.mem.freeMap x = true) (hne : x ≠ s)
    (made : Bool) (name : CString) : Yields st (createEnd a name s made) (fun _ v => v.mem.freeMap x = true) w := by
  have hadd : KeepsRel st OnlyMarks (if made then Pintos.dirAdd a name s else pure false) := by
    cases made
    · exact (coarse a).pure _
    · exact dirAdd a name s
  refine (hadd.yields w).bind (fun success u hu => ?_)
  obtain ⟨j, hj, -, -, hjr⟩ := hu.cells a i hi
  have hclose : ∀ v : World, (∃ k, v.mem.inodes a = some k ∧ k.removed = false) → v.mem.freeMap x = true →
      Yields st (Pintos.dirClose (some a) >>= fun _ => pure success) (fun _ v => v.mem.freeMap x = true) v := by
    rintro v ⟨k, hk, hkr⟩ hv
    refine (dirClose hk hkr).bind (fun _ v' hv' => pure_iff.mpr ?_)
    rw [hv']
    exact hv
  by_cases hfail : (!success) = true ∧ s ≠ 0
  · rw [if_pos hfail]
    refine (freeMapRelease s).bind (fun _ v hv => hclose v ?_ (hv.bits x ((if_neg hne).trans (hu.bits x hx))))
    obtain ⟨k, hk, -, -, hkr⟩ := hv.cells a j hj
    exact ⟨k, hk, hkr.trans (hjr.trans hr)⟩
  · rw [if_neg hfail]
    exact hclose u ⟨j, hj, hjr.trans hr⟩ (hu.bits x hx)

end OnlyMarks

/-! ## Making the inode -/

theorem bytesToSectors_pos (h0 : 0 < n) (h1 : n ≤ 2147483647) : 0 < bytesToSectors n := by
  by_cases hn : n ≤ 2147483136
  · rw [bytesToSectors_eq (by omega) hn]
    omega
  -- the sum overflows, and the quotient is negative
  have hwrap : toInt32 (n + ((blockSectorSize : Nat) - 1)) = -(4294967296 - (n + 511)) := by
    unfold toInt32 blockSectorSize
    rw [Int.bmod_def]
    omega
  have hdiv : (-(4294967296 - (n + 511))).tdiv (blockSectorSize : Nat) = -((4294967296 - (n + 511)) / 512) := by
    rw [Int.neg_tdiv, Int.tdiv_eq_ediv_of_nonneg (by omega)]
    rfl
  unfold bytesToSectors
  rw [hwrap, hdiv]
  unfold toUInt32
  omega

namespace Yields

theorem fresh_bind {k : InodeDisk → BlockM α} (h : Yields st (onBlocks alloc .fresh (k w.mem.diskInode)) Q w) :
    Yields st (onBlocks alloc .fresh (BlockM.data >>= k)) Q w := by
  exact get_bind.mpr h

/-- A new inode of no length has a hole everywhere. -/
theorem isHole_fresh (hlen : w.mem.diskInode.length = 0) :
    Yields st (onBlocks alloc .fresh (isHole 0)) (fun r v => r = true ∧ v = w) w := by
  unfold isHole Pintos.byteToSector
  rw [bind_assoc]
  refine fresh_bind ?_
  rw [if_neg (by rw [hlen]; decide +kernel)]
  exact ⟨rfl, rfl⟩

/-- The map of a new inode that is not to be empty: there is no sector free, or one that was is marked now. -/
theorem allocateBlocks_fresh (hstate : FreeMapState w E) (hlen : w.mem.diskInode.length = 0) (hn : 0 < bytesToSectors n) :
    Yields st (onBlocks Pintos.freeMapAllocate .fresh (allocateBlocks n)) (fun ok v =>
      (ok = false ∧ v = w ∧ ∀ x < w.mem.bitCnt, w.mem.freeMap x = true) ∨
        (OnlyMarks w v ∧ ∃ x < w.mem.bitCnt, w.mem.freeMap x = false ∧ v.mem.freeMap x = true)) w := by
  obtain ⟨m, hm⟩ : ∃ m, min numDirect (bytesToSectors n) = m + 1 :=
    ⟨min numDirect (bytesToSectors n) - 1, by unfold numDirect; omega⟩
  unfold allocateBlocks
  simp only [hm]
  rw [allocateDirect, bind_assoc, Runs.onBlocks_bind]
  refine (isHole_fresh hlen).bind ?_
  rintro _ v ⟨rfl, hv⟩
  subst v
  refine (Runs.freeMapAllocate hstate).yields.bind ?_
  rintro _ v (⟨x, dev, rfl, ⟨hx, hfree, -⟩, rfl, -, -⟩ | ⟨rfl, -, hv, hfull⟩)
  · have hmark : OnlyMarks w { w with mem := w.mem.setBit x true, dev := dev } := { OnlyMarks.mark w x with }
    refine ((OnlyMarks.onFresh _).yields _).mono (fun ok v hv => .inr ⟨hmark.trans hv, x, hx, hfree, hv.bits x (if_pos rfl)⟩)
  · subst v
    exact pure_iff.mpr (.inl ⟨rfl, rfl, hfull⟩)

end Yields

/-- What `inode_create` at the sector `s` comes to, with a length of `n` and starting from the world `w`. -/
inductive Made (w : World) (s : Nat) (n : Int) : Bool → World → Prop
  /-- There is no memory for the `struct inode_disk`. -/
  | noMemory (hheap : w.heap 0 = false) : Made w s n false { w with heap := fun k => w.heap (k + 1) }
  /-- There is no sector free. -/
  | noSector (hn : 0 < n) (hfull : ∀ x < w.mem.bitCnt, w.mem.freeMap x = true) :
    Made w s n false
      { w with mem := { w.mem with nextAddr := w.mem.nextAddr + 1, diskInode := blankInode }, heap := fun k => w.heap (k + 1) }
  /-- An empty file has been made. -/
  | empty (hheap : w.heap 0 = true) (hn : n = 0) (c : InodeDisk) :
    Made w s n true
      (put { w with mem := { w.mem with nextAddr := w.mem.nextAddr + 1, diskInode := c }, heap := fun k => w.heap (k + 1) } s c)
  /-- A sector that was free is marked, whether or not there were enough. -/
  | marked (hheap : w.heap 0 = true) (hn : 0 < n) {made : Bool} {v : World} (hv : OnlyMarks w v) {x : Nat} (hx : x < w.mem.bitCnt)
    (hfree : w.mem.freeMap x = false) (hmark : v.mem.freeMap x = true) : Made w s n made v

theorem Yields.inodeCreate (hstate : FreeMapState w E) (s : Nat) (h0 : 0 ≤ n)
    (h1 : n ≤ 2147483647) : Yields st (inodeCreate s n) (Made w s n) w := by
  unfold Pintos.inodeCreate
  have hassert : FsM.assert (decide (0 ≤ n)) = pure () := by rw [decide_eq_true h0]; rfl
  rw [hassert, pure_bind]
  refine malloc_bind (fun hheap => ?_) (fun hheap => pure_iff.mpr (.noMemory hheap))
  refine modify_bind ?_
  by_cases hn : n = 0
  · have hnone : allocateBlocks 0 = pure true := by
      unfold allocateBlocks
      rw [show bytesToSectors 0 = 0 from by decide +kernel]
      rfl
    subst hn
    rw [hnone]
    refine (writeSector s _).bind ?_
    rintro _ _ rfl
    exact pure_iff.mpr (.empty hheap rfl _)
  · have hstate' : FreeMapState { w with
        mem := { w.mem with nextAddr := w.mem.nextAddr + 1, diskInode := blankInode }, heap := fun k => w.heap (k + 1) } E :=
      hstate.frame rfl rfl rfl (fun _ _ _ hf => ⟨hf, rfl⟩) rfl (fun _ _ => rfl)
    refine (allocateBlocks_fresh hstate' blankInode_length (bytesToSectors_pos (by omega) h1)).bind ?_
    rintro ok v (⟨rfl, rfl, hfull⟩ | ⟨hv, x, hx, hfree, hmark⟩)
    · exact pure_iff.mpr (.noSector (by omega) hfull)
    have hv : OnlyMarks w v := { hv with }
    cases ok with
    | false => exact pure_iff.mpr (.marked hheap (by omega) hv hx hfree hmark)
    | true =>
      refine modify_bind (get_bind.mpr ((writeSector s _).bind ?_))
      rintro _ _ rfl
      exact pure_iff.mpr (.marked hheap (by omega) { hv with } hx hfree hmark)

/-! ## Adding the entry -/

/-- The directory could not grow: every sector is in use, and the inode has the data `d` and stays marked as being
extended. -/
structure EntryFailed (w v : World) (E : Nat → Prop) (a : Nat) (i : Inode) (d : InodeDisk) : Prop where
  mem : v.mem = { w.mem.setInode a (some { i with data := d, extending := true }) with freeMap := v.mem.freeMap }
  state : FreeMapState v E
  full : ∀ x < w.mem.bitCnt, v.mem.freeMap x = true
  grow : ∃ U f, Grow (w.blocksOf i.data) (w.blocksOf i.data).blocks E U f (v.blocksOf d)

/-- At the end of the file nothing is copied. -/
theorem Runs.writeChunks_end (hj : w.mem.inodes a = some j)
    (buffer : List UInt8) {turns : Nat} (ht : 0 < turns) {size : Int} (hs : 0 < size) :
    Runs st (Pintos.writeChunks a buffer turns size j.data.length 0) (fun r v => r = 0 ∧ v = w) w := by
  obtain ⟨turns, rfl⟩ := Nat.exists_eq_succ_of_ne_zero (Nat.ne_of_gt ht)
  unfold Pintos.writeChunks
  rw [if_pos hs]
  refine bind_eq (byteToSector_end hj (Int.le_refl _)) ?_
  have hchunk : chunkSize j.data.length size j.data.length ≤ 0 := by
    unfold chunkSize
    rw [Int.sub_self, toInt32_of_fits (by decide) (by decide)]
    dsimp only
    split <;> split <;> omega
  rw [inode_bind hj, if_pos hchunk]
  exact pure_iff.mpr ⟨rfl, rfl⟩

namespace EntryFailed

/-- `inode_write_at` at the end of the directory, after `allocate_file` has failed. -/
theorem of_growth (h : RootOpen w E a i)
    (hend : GrowthEnd false { w with mem := w.mem.setInode a (some i.entered) } u E a i.entered n false d) (buffer : List UInt8) :
    Runs false (do
        let written ← Pintos.writeChunks a buffer (dirEntrySize : Int).toNat dirEntrySize i.data.length 0
        FsM.modifyInode a Inode.leaveWrite
        pure (written : Int)) (fun n v => n = dirEntrySize ∨ ∃ d, EntryFailed w v E a i d) u := by
  obtain ⟨⟨-, hfull⟩, U, f, hg⟩ := hend.blocks
  have hcell : u.mem.inodes a = some { i.entered.beginGrowth with data := d } := by
    rw [hend.mem]
    exact setInode_self _ _ _
  have hlen : d.length = i.data.length := hg.length
  rw [← hlen]
  refine bind_eq (writeChunks_end hcell buffer (by decide) (by decide)) ?_
  rw [modifyInode_bind hcell]
  refine pure_iff.mpr (.inr ⟨d, ?_, ?_, hfull, U, f, hg⟩)
  · -- the writer has counted itself in and out again
    have hout : Inode.leaveWrite { i.entered.beginGrowth with data := d } = { i with data := d, extending := true } := by
      simp [Inode.leaveWrite, Inode.beginGrowth, Inode.entered]
    rw [hout, hend.mem]
    refine (setInode_setInode { w.mem.setInode a (some i.entered) with freeMap := u.mem.freeMap } a _ _).trans ?_
    exact setInode_setInode { w.mem with freeMap := u.mem.freeMap } a _ _
  · refine hend.state.setInode (fun f file hf hfile => ?_) _
    rw [hend.mem] at hf hfile
    exact h.notFreeMap f file hf hfile

end EntryFailed

/-- With 379 blocks there is nothing to allocate for one more. -/
theorem allocateBlocks_past : allocateBlocks 194060 = allocateBlocks 194048 := by
  unfold allocateBlocks
  rw [show bytesToSectors 194060 = 380 from by decide +kernel, show bytesToSectors 194048 = 379 from by decide +kernel]
  rfl

namespace Yields

/-- An entry that goes past block 379 is not written to its end. -/
theorem writeChunks_past (hj : w.mem.inodes a = some j) (hlen : j.data.length = 194060) (buffer : List UInt8) :
    Yields st (Pintos.writeChunks a buffer (dirEntrySize : Int).toNat dirEntrySize 194040 0) (fun _ _ => False) w := by
  have hchunk : chunkSize 194060 (dirEntrySize : Int) 194040 = 8 := by decide +kernel
  have hturns : (dirEntrySize : Int).toNat = 18 + 1 + 1 := by decide
  refine (byteToSector 194040).bind ?_
  rintro x _ ⟨rfl, -⟩
  refine inode_bind (fun j' hj' => ?_)
  cases hj.symm.trans hj'
  rw [hlen, hchunk, if_neg (by decide)]
  refine (bufcacheWrite x _ _ _).bind ?_
  rintro _ u ⟨hmem, -, -⟩
  refine byteToSector_379.bind (fun _ _ hle => absurd (hle j (hmem ▸ hj)) ?_)
  rw [hlen]
  decide

end Yields

namespace RootOpen

/-- The last slot that the block map can lead to is in use: the entry after it cannot be written to its end. -/
theorem writeEntry_past (h : RootOpen w E a i) (hlen : i.data.length = 194040) (buffer : List UInt8) :
    Yields false (Pintos.inodeWriteAt Pintos.freeMapAllocate a buffer dirEntrySize 194040)
      (fun n v => n = dirEntrySize ∨ ∃ d, EntryFailed w v E a i d) w := by
  have henter : i.enterWrite = some i.entered := if_neg (by have := h.settled.2; omega)
  have hgrow : i.entered.needsGrowth dirEntrySize 194040 = true := by
    unfold Inode.needsGrowth
    rw [show i.entered.data.length = 194040 from hlen]
    decide +kernel
  refine inode_bind (fun j hj => ?_)
  cases h.cell.symm.trans hj
  rw [henter]
  refine modify_bind ?_
  rw [if_neg (by rw [show i.entered.extending = false from h.settled.1]; decide), if_pos hgrow,
    show toInt32 ((dirEntrySize : Int) + 194040) = 194060 by decide +kernel]
  have hsplit : allocateFile Pintos.freeMapAllocate a 194060 =
      (FsM.modifyInode a Inode.beginGrowth >>= fun _ => onBlocks freeMapAllocate (.inode a) (allocateBlocks 194048)) >>= fun ok =>
        if ok then FsM.modifyInode a (·.endGrowth 194060) else pure () := by
    unfold allocateFile
    rw [allocateBlocks_past, bind_assoc]
  rw [hsplit, bind_assoc]
  have hmore : i.entered.data.length ≤ 194048 := by rw [show i.entered.data.length = 194040 from hlen]; decide
  refine (growBlocks (h.toWritable.recell i.entered rfl rfl) hmore (by decide)).yields.bind ?_
  rintro ok u ⟨d, hend⟩
  cases ok with
  | false =>
    have := EntryFailed.of_growth h hend buffer
    rw [hlen] at this
    exact this.yields
  | true =>
    refine modifyInode_bind (fun j hj => ?_)
    refine bind (writeChunks_past (setInode_self _ _ _) ?_ buffer) nofun
    exact InodeDisk.length_setLength _ (by decide) (by decide)

/-- `inode_write_at` of an entry, at a place of the directory or right after its end. -/
theorem writeEntry (h : RootOpen w E a i) {k : Nat} (hk : k ≤ (w.slots i.data).length) {e : DirEntry} (he : e.Fits) :
    Yields false (Pintos.writeEntry a (dirEntrySize * k) e) (fun r v => r = false → ∃ d, EntryFailed w v E a i d) w := by
  have hmap : mapBytes = 194048 := rfl
  have hlen := h.file.length
  have hwhole := h.entries
  rw [slots_length] at hk
  have hfit : toInt32 ((dirEntrySize * k : Nat) : Int) = (dirEntrySize * k : Nat) := by
    unfold dirEntrySize at hk ⊢
    exact toInt32_of_fits (by omega) (by omega)
  have hend : Yields false (inodeWriteAt Pintos.freeMapAllocate a e.encode dirEntrySize (dirEntrySize * k : Nat))
      (fun n v => n = dirEntrySize ∨ ∃ d, EntryFailed w v E a i d) w := by
    by_cases hroom : dirEntrySize * (k + 1) ≤ mapBytes
    · have hpos : (0 : Int) < (dirEntrySize : Nat) := by decide
      have hbuf : ((dirEntrySize : Nat) : Int).toNat ≤ e.encode.length := by rw [DirEntry.encode_length he, Int.toNat_natCast]
      refine (Runs.inodeWriteAt h.toWritable h.settled hpos (Int.natCast_nonneg _)
        (slot_end_fits hroom).2 hbuf (fun _ _ _ => .inl rfl) (fun hout u d hend => ?_)).yields
      have hofs : ((dirEntrySize * k : Nat) : Int) = i.data.length := by
        unfold dirEntrySize at hk hout hwhole ⊢
        omega
      rw [hofs] at hend ⊢
      exact EntryFailed.of_growth h hend e.encode
    · have hofs : ((dirEntrySize * k : Nat) : Int) = 194040 ∧ i.data.length = 194040 := by
        unfold dirEntrySize at hk hroom hwhole ⊢
        omega
      rw [hofs.1]
      exact h.writeEntry_past hofs.2 e.encode
  unfold Pintos.writeEntry
  rw [hfit]
  refine hend.bind ?_
  rintro n v (rfl | hfail)
  · exact Yields.pure_iff.mpr nofun
  · exact Yields.pure_iff.mpr (fun _ => hfail)

end RootOpen

/-- Where every sector was in use, a directory that could not grow has the entries it had. -/
theorem EntryFailed.taken {w0 : World} (hf : EntryFailed w v E a i d)
    (h : RootOpen w E a i) (hfull : ∀ x < w.mem.bitCnt, w.mem.freeMap x = true) (ht : Taken w0 w E a i s) :
    Taken w0 v E a { i with data := d, extending := true } s := by
  obtain ⟨U, f, hg⟩ := hf.grow
  -- No place of the map has got a sector.
  have hold : ∀ p, U p → MapSlot.InUse (w.blocksOf i.data).blocks p := by
    intro p hp
    by_contra hnew
    have hfree := hg.fresh p hp hnew
    have hlt : f p < w.mem.bitCnt := by
      rw [h.whole]
      exact Nat.lt_of_lt_of_eq (hg.inside p hp) hg.size
    cases (hfull _ hlt).symm.trans hfree
  have hlen : d.length = i.data.length := hg.length
  have hblocks : (v.blocksOf d).blocks = (w.blocksOf i.data).blocks := by
    show (d.length.toNat + 511) / 512 = (i.data.length.toNat + 511) / 512
    rw [hlen]
  have hsec : ∀ p, MapSlot.InUse (w.blocksOf i.data).blocks p →
    (v.blocksOf d).sector p = (w.blocksOf i.data).sector p := hg.stable
  have hbits : v.mem.freeMap = w.mem.freeMap := by
    funext x
    have hiff : v.mem.freeMap x = true ↔ w.mem.freeMap x = true := by
      refine (hg.used x).trans ⟨?_, .inl⟩
      rintro (hx | ⟨p, hp, rfl⟩)
      · exact hx
      · rw [(hg.old p (hold p hp)).2]
        exact h.file.map.marked p (hold p hp)
    exact Bool.eq_iff_iff.mpr hiff
  have hcell : RootCell v a { i with data := d, extending := true } := by
    refine (ht.root.recell (j := { i with data := d, extending := true }) rfl rfl).congr ?_ ?_
    · rw [hf.mem]
    · rw [hf.mem]
  have hcnt : v.mem.bitCnt = w.mem.bitCnt := by
    rw [hf.mem]
    rfl
  refine ⟨hf.state, hcell, Nat.lt_of_lt_of_eq ht.inside hg.size.symm, fun p hp => ?_, fun p hp => ?_, hcnt ▸ ht.inMap, ht.free,
    hbits.trans ht.bits, Eq.trans ?_ ht.entries⟩
  · have hp : MapSlot.InUse (w.blocksOf i.data).blocks p := hblocks ▸ hp
    rw [hsec p hp]
    exact ht.notMapped p hp
  · have hp : MapSlot.InUse (w.blocksOf i.data).blocks p := hblocks ▸ hp
    rw [hsec p hp]
    exact ht.apart p hp
  · refine slots_congr hlen (fun b hb => ⟨hsec _ hb, hg.only _ (h.apart _ hb) (fun p hp hi he => ?_)⟩)
    rw [(hg.old p (hold p hp)).2] at he
    rw [h.file.map.inj p _ (hold p hp) hb he] at hi
    cases hi

end Pintos
