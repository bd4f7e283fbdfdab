import Pintos.Lemmas.FilesysRuns

/-!
# Formatting

`filesys_init (true)` on a device of any contents. The free map is created first: its file is made while there is no file to
keep the map in yet. Then comes the root directory, and the free map's file is closed and opened again. What is left is a
store with one file, the root directory, whose data sector holds what it held before.
-/

namespace Pintos

open Program World List

variable {n : Nat} {bits : Nat → Bool} {w : World} {E : Nat → Prop} {d : InodeDisk}

/-! ## The bits of the free map -/

/-- The sum of the powers of two for the bits that are set. -/
theorem bitSum (bits : Nat → Bool) (n : Nat) : (range n).foldl (fun v k => v + if bits k then 2 ^ k else 0) 0 < 2 ^ n ∧
    ∀ k < n, ((range n).foldl (fun v k => v + if bits k then 2 ^ k else 0) 0).testBit k = bits k := by
  induction n with
  | zero => exact ⟨Nat.one_pos, fun k hk => absurd hk (Nat.not_lt_zero k)⟩
  | succ n ih =>
    obtain ⟨hlt, hbits⟩ := ih
    rw [range_succ, foldl_append]
    generalize (range n).foldl (fun v k => v + if bits k then 2 ^ k else 0) 0 = v at hlt hbits
    simp only [foldl_cons, foldl_nil]
    cases hn : bits n with
    | false =>
      refine ⟨by simp only [Bool.false_eq_true, if_false]; omega, fun k hk => ?_⟩
      rcases Nat.lt_succ_iff_lt_or_eq.mp hk with hk | rfl
      · simpa using hbits k hk
      · simpa [hn] using Nat.testBit_lt_two_pow hlt
    | true =>
      refine ⟨by simp only [if_true]; omega, fun k hk => ?_⟩
      simp only [if_true]
      rw [Nat.add_comm]
      rcases Nat.lt_succ_iff_lt_or_eq.mp hk with hk | rfl
      · rw [Nat.testBit_two_pow_add_gt hk]
        exact hbits k hk
      · rw [Nat.testBit_two_pow_add_eq, Nat.testBit_lt_two_pow hlt, hn]
        rfl

theorem testBit_bitmapByte (bits : Nat → Bool) (j : Nat) {k : Nat} (hk : k < 8) :
    (bitmapByte bits j).toNat.testBit k = bits (8 * j + k) := by
  obtain ⟨hlt, hbits⟩ := bitSum (fun k => bits (8 * j + k)) 8
  rw [bitmapByte, UInt8.toNat_ofNat', Nat.mod_eq_of_lt hlt]
  exact hbits k hk

/-- `byte_cnt` of a device that is not too large. -/
theorem lt_byteCnt {x : Nat} (hn : n ≤ 1552384) (hx : x < n) : x / 8 < byteCnt n := by
  unfold byteCnt
  omega

theorem byteCnt_le (hn : n ≤ 1552384) : byteCnt n ≤ 194048 := by
  unfold byteCnt
  omega

/-- The bits are read as they were written, those past the end excepted. -/
theorem bitsOfBytes_eq (hn : n ≤ 1552384) (hend : ∀ x, n ≤ x → bits x = false) {bytes : List UInt8}
    (hbytes : ∀ j < byteCnt n, bytes.getD j 0 = bitmapByte bits j) : bitsOfBytes n bytes = bits := by
  funext x
  unfold bitsOfBytes
  by_cases hx : x < n
  · rw [hbytes _ (lt_byteCnt hn hx), testBit_bitmapByte _ _ (Nat.mod_lt _ (by decide)), Nat.div_add_mod]
    simp [hx]
  · simp [hx, hend x (by omega)]

/-! ## The file of the free map -/

/-- The inode of the free map as it is opened. -/
def mapInode (d : InodeDisk) : Inode :=
  { sector := freeMapSector, openCnt := 1, removed := false, extending := false, denyWriteCnt := 0, data := d }

/-- The world in which the file of the free map has been opened at new addresses. -/
def World.mapOpened (w : World) (heap : Nat → Bool) : World :=
  { w with
    mem := { w.mem with
      inodes := fun b => if b = w.mem.nextAddr then some (mapInode (w.dev.disk freeMapSector)) else w.mem.inodes b
      openInodes := w.mem.nextAddr :: w.mem.openInodes
      files := fun g => if g = w.mem.nextAddr + 1 then some { inode := w.mem.nextAddr, pos := 0, denyWrite := false }
        else w.mem.files g
      nextAddr := w.mem.nextAddr + 2
      freeMapFile := some (w.mem.nextAddr + 1) }
    heap := heap }

/-- The free map's inode is opened from disk. -/
theorem Runs.openFreeMapFile (hnone : w.mem.findOpen freeMapSector = none) (hsize : freeMapSector < w.dev.size) :
    Runs true openFreeMapFile (fun r v => r = w.mem.nextAddr + 1 ∧ ∃ heap, v = w.mapOpened heap) w := by
  unfold Pintos.openFreeMapFile inodeOpen
  rw [bind_assoc, get_bind, hnone]
  rw [bind_assoc]
  refine malloc_bind (.inl rfl) (fun heap _ => ?_)
  rw [bind_assoc, modify_bind, bind_assoc, readSector_bind (by exact hsize), bind_assoc, setInode_bind, pure_bind]
  unfold fileOpen
  rw [bind_assoc]
  refine malloc_bind (.inl rfl) (fun heap' _ => ?_)
  rw [bind_assoc, modify_bind, pure_bind, modify_bind]
  exact pure_iff.mpr ⟨rfl, heap', rfl⟩

/-- The free map's file is the only one that is open. -/
structure OnlyMapOpen (w : World) (a f : Nat) (d : InodeDisk) : Prop where
  mapFile : w.mem.freeMapFile = some f
  file : w.mem.files f = some { inode := a, pos := 0, denyWrite := false }
  cell : w.mem.inodes a = some (mapInode d)
  others : ∀ b, b ≠ a → w.mem.inodes b = none
  list : w.mem.openInodes = [a]
  next : a < w.mem.nextAddr ∧ f < w.mem.nextAddr

/-- Where nothing was open, it is. -/
theorem World.mapOpened_only (hinodes : ∀ b, w.mem.inodes b = none) (hlist : w.mem.openInodes = []) (heap : Nat → Bool) :
    OnlyMapOpen (w.mapOpened heap) w.mem.nextAddr (w.mem.nextAddr + 1) (w.dev.disk freeMapSector) where
  mapFile := rfl
  file := if_pos rfl
  cell := if_pos rfl
  others b hb := (if_neg hb).trans (hinodes b)
  list := congrArg (w.mem.nextAddr :: ·) hlist
  next := ⟨Nat.lt_succ_of_lt (Nat.lt_succ_self _), Nat.lt_succ_self _⟩

/-- What `free_map_create` leaves: the free map is in the sectors `E`, and nothing else was written but its inode. -/
structure MapMade (w v : World) (a f : Nat) (E : Nat → Prop) (d : InodeDisk) : Prop where
  only : OnlyMapOpen v a f d
  size : v.dev.size = w.dev.size
  bitCnt : v.mem.bitCnt = w.mem.bitCnt
  state : FreeMapState v E
  used : ∀ x, v.mem.freeMap x = true ↔ w.mem.freeMap x = true ∨ E x
  fresh : ∀ x, E x → w.mem.freeMap x = false
  own : v.dev.disk freeMapSector = d
  disk : ∀ x, ¬E x → x ≠ freeMapSector → v.dev.disk x = w.dev.disk x

/-- A world in which nothing is open, and the free map has no file yet. -/
structure Blank (w : World) : Prop where
  inodes : ∀ b, w.mem.inodes b = none
  list : w.mem.openInodes = []
  mapFile : w.mem.freeMapFile = none
  whole : w.mem.bitCnt = w.dev.size
  sectors : 2 ≤ w.dev.size ∧ w.dev.size ≤ 1552384
  bits : ∀ x, w.mem.freeMap x = true ↔ x = freeMapSector ∨ x = rootDirSector

theorem Runs.freeMapCreate (h : Blank w) :
    Runs true freeMapCreate (fun _ v => ∃ a f E, ∃ d : InodeDisk, d.length = byteCnt w.mem.bitCnt ∧ MapMade w v a f E d) w := by
  obtain ⟨hlow, hhigh⟩ := h.sectors
  have hcnt : byteCnt w.mem.bitCnt ≤ 194048 := byteCnt_le (by rw [h.whole]; exact hhigh)
  have hfit : toInt32 (byteCnt w.mem.bitCnt) = byteCnt w.mem.bitCnt := toInt32_of_fits (by omega) (by omega)
  have hmark : w.mem.freeMap freeMapSector = true := (h.bits _).mpr (.inl rfl)
  have hfm : FreeMapWhole w (fun _ => False) := ⟨.absent h.mapFile fun _ => id, nofun, h.whole, by unfold invalidSector; omega⟩
  have hpos : freeMapSector < w.dev.size := Nat.lt_of_lt_of_le (by decide) hlow
  unfold Pintos.freeMapCreate
  rw [get_bind, hfit]
  refine (Runs.inodeCreate hfm ⟨hpos, hmark, id⟩ (Int.natCast_nonneg _) (by unfold mapBytes; omega)).bind ?_
  rintro _ v ⟨rfl, d, hlen, hc⟩
  have hopen : v.mem.openInodes = [] := by rw [hc.mem]; exact h.list
  have hcnt' : v.mem.bitCnt = w.mem.bitCnt := by rw [hc.mem]
  refine (openFreeMapFile (by rw [Fs.findOpen, hopen]; rfl) (by rw [hc.size]; exact hpos)).bind ?_
  rintro _ _ ⟨-, heap, rfl⟩
  have honly := mapOpened_only (by rw [hc.mem]; exact h.inodes) hopen heap
  rw [hc.own] at honly
  have hready : FreeMapReady (v.mapOpened heap) v.mem.nextAddr (mapInode d) :=
    { hc.map with
      file := ⟨_, _, honly.mapFile, honly.file, rfl⟩
      cell := honly.cell
      settled := ⟨rfl, rfl⟩
      length := hlen.trans (congrArg (fun n : Nat => (byteCnt n : Int)) hcnt'.symm)
      bounded := by rw [show (mapInode d).data.length = _ from hlen]; unfold mapBytes; omega }
  have hfresh : ∀ x, v.mapSectors d x → w.mem.freeMap x = false := by
    rintro x ⟨p, hp, rfl⟩
    exact hc.fresh p hp
  refine (bitmapWrite_state hready (fun x => Iff.rfl)).bind ?_
  rintro _ _ ⟨rfl, dev, rfl, hdev, hstate⟩
  refine pure_iff.mpr ⟨_, _, v.mapSectors d, d, hlen, { honly with },
    hdev.size.trans hc.size, hcnt', hstate, hc.used, hfresh, ?_, fun x hE hx => ?_⟩
  · refine (hdev.same _ (fun hE => ?_)).trans hc.own
    rw [hfresh _ hE] at hmark
    cases hmark
  · exact (hdev.same x hE).trans (hc.only x id hx (fun p hp _ he => hE ⟨p, hp, he⟩))

namespace OnlyMapOpen

variable {v : World} {a f b g : Nat}

section

variable (h : OnlyMapOpen w a f d)
include h

theorem congr (hinodes : v.mem.inodes = w.mem.inodes) (hlist : v.mem.openInodes = w.mem.openInodes)
    (hfiles : v.mem.files = w.mem.files) (hmap : v.mem.freeMapFile = w.mem.freeMapFile)
    (hnext : w.mem.nextAddr ≤ v.mem.nextAddr) :
    OnlyMapOpen v a f d where
  mapFile := hmap.trans h.mapFile
  file := (congrFun hfiles f).trans h.file
  cell := (congrFun hinodes a).trans h.cell
  others c hc := (congrFun hinodes c).trans (h.others c hc)
  list := hlist.trans h.list
  next := ⟨Nat.lt_of_lt_of_le h.next.1 hnext, Nat.lt_of_lt_of_le h.next.2 hnext⟩

theorem freeMapOk (hs : FreeMapState w E) : FreeMapOk w a (mapInode d) ∧ ∀ x, E x ↔ w.mapSectors d x := by
  cases hs with
  | absent hnone _ =>
    rw [h.mapFile] at hnone
    cases hnone
  | present a' i' hok hE =>
    obtain ⟨f', file, hf, hfile, rfl⟩ := hok.file
    cases h.mapFile.symm.trans hf
    cases h.file.symm.trans hfile
    obtain rfl : mapInode d = i' := Option.some.inj (h.cell.symm.trans hok.cell)
    exact ⟨hok, hE⟩

/-- The free map is in order in a world in which its file has been opened anew. -/
theorem reopened (h' : OnlyMapOpen v b g d) (hs : FreeMapState w E) (hdev : v.dev = w.dev)
    (hcnt : v.mem.bitCnt = w.mem.bitCnt) (hbits : v.mem.freeMap = w.mem.freeMap) : FreeMapState v E := by
  obtain ⟨hok, hE⟩ := h.freeMapOk hs
  have hblocks : v.blocksOf (mapInode d).data = w.blocksOf d := by rw [blocksOf, blocksOf, hdev, hbits]; rfl
  refine .present b (mapInode d) ⟨⟨⟨_, _, h'.mapFile, h'.file, rfl⟩, h'.cell, ⟨rfl, rfl⟩, ?_, hok.bounded, ?_, ?_⟩, ?_⟩ ?_
  · rw [hcnt]
    exact hok.length
  · rw [hblocks, hdev]
    exact hok.inside
  · rw [hblocks]
    exact hok.inj
  · rw [hblocks, hcnt, hbits]
    exact hok.kept
  · simp only [mapSectors, hblocks]
    exact hE

theorem memOk {objs : Nat → Option Obj} : MemOk { E := E, objs := objs, spare := none, held := [], handles := [] } w := by
  have hcell : ∀ b i, w.mem.inodes b = some i → b = a ∧ i = mapInode d := by
    intro b i hi
    by_cases hb : b = a
    · subst hb
      exact ⟨rfl, Option.some.inj (hi.symm.trans h.cell)⟩
    · rw [h.others b hb] at hi
      cases hi
  constructor
  · exact ⟨f, a, mapInode d, 0, h.next.2, h.mapFile, h.file, h.cell, rfl⟩
  · intro b i hi
    obtain ⟨rfl, rfl⟩ := hcell b i hi
    exact ⟨h.next.1, by rw [h.list]; exact mem_singleton_self _, rfl, rfl⟩
  · intro b i hi hs
    obtain ⟨rfl, rfl⟩ := hcell b i hi
    exact absurd rfl hs
  · intro b c i j hi hj _
    rw [(hcell b i hi).1, (hcell c j hj).1]
  · intro b hb
    rw [h.list] at hb
    obtain rfl := mem_singleton.mp hb
    exact ⟨_, h.cell⟩
  · rw [h.list]
    exact nodup_singleton _
  · exact fun _ hb => absurd hb not_mem_nil
  · exact fun _ _ hb => absurd hb not_mem_nil
  · exact nodup_nil

end

end OnlyMapOpen

/-- `free_map_close`, with the inode of the free map on disk: memory is as if nothing had been open, but for the pointer. -/
theorem Runs.freeMapClose {a f : Nat} (h : OnlyMapOpen w a f d) (hdisk : w.dev.disk freeMapSector = d)
    (hsize : freeMapSector < w.dev.size) :
    Runs true freeMapClose (fun _ v => v.dev = w.dev ∧ v.mem.bitCnt = w.mem.bitCnt ∧ v.mem.freeMap = w.mem.freeMap ∧
      (∀ b, v.mem.inodes b = none) ∧ v.mem.openInodes = []) w := by
  unfold Pintos.freeMapClose
  rw [get_bind, h.mapFile]
  simp only [Pintos.fileClose, fileAllowWrite]
  rw [bind_assoc, file_bind h.file]
  simp only [Bool.false_eq_true, if_false]
  rw [pure_bind, file_bind h.file]
  refine (inodeClose_last h.cell rfl hsize rfl).bind ?_
  rintro _ _ rfl
  refine modify_iff.mpr ⟨?_, rfl, rfl, fun b => ?_, ?_⟩
  · -- the inode that is put on disk is there already
    have hsame : (fun y => if y = freeMapSector then d else w.dev.disk y) = w.dev.disk := by
      funext y
      by_cases hy : y = freeMapSector
      · rw [if_pos hy, hy, hdisk]
      · rw [if_neg hy]
    show ({ w.dev with disk := fun y => if y = freeMapSector then d else w.dev.disk y } : Block) = w.dev
    rw [hsame]
  · rcases eq_or_ne b a with rfl | hb
    · exact Fs.setInode_self _ _ _
    · exact ((Fs.setInode_ne _ _ hb).trans (Fs.setInode_ne _ _ hb)).trans (h.others b hb)
  · show w.mem.openInodes.erase a = []
    rw [h.list]
    simp

/-- `free_map_open`, of a file that holds the map. -/
theorem Runs.freeMapOpen (hinodes : ∀ b, w.mem.inodes b = none) (hlist : w.mem.openInodes = [])
    (hdisk : w.dev.disk freeMapSector = d) (hsize : freeMapSector < w.dev.size) (hn : w.mem.bitCnt ≤ 1552384)
    (hlen : d.length = byteCnt w.mem.bitCnt)
    (hinside : ∀ p, MapSlot.InUse (w.blocksOf d).blocks p → (w.blocksOf d).sector p < w.dev.size)
    (hend : ∀ x, w.mem.bitCnt ≤ x → bits x = false)
    (hkept : ∀ j < byteCnt w.mem.bitCnt, (w.blocksOf d).fileByte j = bitmapByte bits j) :
    Runs true freeMapOpen (fun _ v => v.dev = w.dev ∧ v.mem.bitCnt = w.mem.bitCnt ∧ v.mem.freeMap = bits ∧
      ∃ a f, OnlyMapOpen v a f d) w := by
  refine (openFreeMapFile (by rw [Fs.findOpen, hlist]; rfl) hsize).bind ?_
  rintro _ _ ⟨rfl, heap, rfl⟩
  have honly := mapOpened_only hinodes hlist heap
  rw [hdisk] at honly
  have hcnt := byteCnt_le hn
  have hfit : toInt32 (byteCnt w.mem.bitCnt) = byteCnt w.mem.bitCnt := toInt32_of_fits (by omega) (by omega)
  have hmap : mapBytes = 194048 := rfl
  unfold bitmapRead
  rw [bind_assoc, get_bind]
  simp only [show (w.mapOpened heap).mem.bitCnt = w.mem.bitCnt from rfl, hfit]
  unfold fileReadAt
  rw [bind_assoc, bind_assoc, file_bind honly.file]
  refine (inodeReadAt honly.cell rfl (Int.le_refl 0) (Nat.le_refl _)
    (by rw [hmap]; exact hlen ▸ (by omega)) hinside (Int.natCast_nonneg _) (Int.le_refl 0) (by omega)).bind ?_
  rintro _ _ ⟨rfl, rfl⟩
  rw [if_pos (by show _ ≤ d.length; omega)]
  rw [bind_assoc, modify_bind, pure_bind, if_pos (beq_self_eq_true _)]
  refine pure_iff.mpr ⟨rfl, rfl, bitsOfBytes_eq hn hend (fun j hj => ?_), _, _, honly.congr rfl rfl rfl rfl (Nat.le_refl _)⟩
  rw [← hkept j hj]
  simp only [BlockWorld.fileBytes, getD_eq_getElem?_getD, getElem?_map, Int.toNat_natCast, Int.toNat_zero, Nat.zero_add,
    getElem?_range hj]
  rfl

/-! ## The whole of it -/

theorem Runs.freeMapInit_bind (hn : n ≠ 0) {β : Type} {k : Unit → FsM β} {Q : β → World → Prop}
    (hk : ∀ heap, Runs true (k ()) Q { w with
      mem := { w.mem with nextAddr := w.mem.nextAddr + 2, bitCnt := n,
                          freeMap := fun x => x == freeMapSector || x == rootDirSector }, heap := heap }) :
    Runs true (freeMapInit n >>= k) Q w := by
  unfold freeMapInit
  rw [bind_assoc]
  refine malloc_bind (.inl rfl) (fun heap _ => ?_)
  simp only [Option.isNone_some, Bool.false_eq_true, if_false]
  rw [bind_assoc, assert_bind (decide_eq_true hn), bind_assoc]
  refine malloc_bind (.inl rfl) (fun heap' _ => ?_)
  simp only [Option.isNone_some, Bool.false_eq_true, if_false]
  rw [modify_bind]
  exact hk heap'

/-- The files of a device that has just been formatted. -/
def Ghost.rootOnly (E : Nat → Prop) (d : InodeDisk) : Ghost where
  E := E
  objs s := if s = rootDirSector then some { data := d, removed := false } else none
  spare := none
  held := []
  handles := []

theorem Ghost.rootOnly_root (E : Nat → Prop) (d : InodeDisk) : (rootOnly E d).objs rootDirSector = some (.present d) := by
  simp [rootOnly]

theorem Ghost.rootOnly_objs {s : Nat} {o : Obj} (h : (rootOnly E d).objs s = some o) :
    s = rootDirSector ∧ o = .present d := by
  unfold rootOnly at h
  simp only at h
  split at h
  · next hs => exact ⟨hs, (Option.some.inj h).symm⟩
  · cases h

/-- What formatting leaves: a store with the root directory as its only file, whose data sector holds what it held before. -/
structure Formatted (w v : World) (E : Nat → Prop) (d : InodeDisk) : Prop where
  store : Store (.rootOnly E d) v
  length : d.length = 320
  bytes : ∀ k < 320, (v.blocksOf d).fileByte k = (w.dev.disk ((v.blocksOf d).sector (.block 0))).byte k

namespace MapMade

section

variable {v u : World} {a f : Nat} {e : InodeDisk} (h : Blank w) (hm : MapMade w v a f E d)
include h hm

theorem marked {y : Nat} (hy : y = freeMapSector ∨ y = rootDirSector) : v.mem.freeMap y = true ∧ ¬E y := by
  have hmark := (h.bits y).mpr hy
  refine ⟨(hm.used y).mpr (.inl hmark), fun hE => ?_⟩
  rw [hm.fresh y hE] at hmark
  cases hmark

/-- The free map has been made and the root directory too. -/
theorem dirCreate :
    Runs true (dirCreate rootDirSector 16) (fun r u => r = true ∧ ∃ e : InodeDisk, e.length = 320 ∧
      Created v u E rootDirSector e) v := by
  obtain ⟨hlow, hhigh⟩ := h.sectors
  obtain ⟨hmark, hE⟩ := hm.marked h (.inr rfl)
  have hfm : FreeMapWhole v E :=
    ⟨hm.state, fun x hx => (hm.used x).mpr (.inr hx), by rw [hm.bitCnt, hm.size, h.whole],
      by rw [hm.size]; unfold invalidSector; omega⟩
  have hsize : toInt32 (((16 : Nat) : Int) * (dirEntrySize : Nat)) = 320 := toInt32_of_fits (by decide) (by decide)
  unfold Pintos.dirCreate
  rw [hsize]
  exact Runs.inodeCreate hfm ⟨by rw [hm.size]; exact hlow, hmark, hE⟩ (by decide) (by decide)

variable (hc : Created v u E rootDirSector e)
include hc

/-- The sectors that are marked when the root directory has been made: the two inodes, the free map's and the directory's. -/
theorem used_root (x : Nat) : u.mem.freeMap x = true ↔ x = freeMapSector ∨ E x ∨ u.owns rootDirSector e x := by
  rw [hc.used, hm.used, h.bits]
  unfold owns
  tauto

/-- The sectors of the root directory's data were free. -/
theorem root_mapped {p : MapSlot} (hp : p.InUse (u.blocksOf e).blocks) :
    (u.blocksOf e).sector p ≠ rootDirSector ∧ (u.blocksOf e).sector p ≠ freeMapSector ∧ ¬E ((u.blocksOf e).sector p) := by
  exact ⟨hc.ne_marked hp (hm.marked h (.inr rfl)).1, hc.ne_marked hp (hm.marked h (.inl rfl)).1,
    fun hE => hc.ne_marked hp ((hm.used _).mpr (.inr hE)) rfl⟩

/-- The sectors of the root directory are its own. -/
theorem root_apart {x : Nat} (hx : u.owns rootDirSector e x) : x ≠ freeMapSector ∧ ¬E x := by
  rcases hx with rfl | ⟨p, hp, rfl⟩
  · exact ⟨by decide, (hm.marked h (.inr rfl)).2⟩
  · exact (hm.root_mapped h hc hp).2

theorem store {y : World} {b g : Nat} (helen : 0 ≤ e.length ∧ e.length ≤ mapBytes) (honly : OnlyMapOpen y b g d)
    (hstate : FreeMapState y E)
    (hdev : y.dev = u.dev) (hcnt : y.mem.bitCnt = u.mem.bitCnt) (hbits : y.mem.freeMap = u.mem.freeMap) :
    Store (.rootOnly E e) y := by
  obtain ⟨hlow, hhigh⟩ := h.sectors
  have hsize : y.dev.size = w.dev.size := by rw [hdev, hc.size, hm.size]
  have hblocks : y.blocksOf e = u.blocksOf e := by rw [blocksOf, blocksOf, hdev, hbits]
  have howns : ∀ x, y.owns rootDirSector e x ↔ u.owns rootDirSector e x := by
    intro x
    unfold owns mapSectors
    rw [hblocks]
  have hmark : ∀ x, y.owns rootDirSector e x → y.mem.freeMap x = true := by
    intro x hx
    rw [hbits]
    exact (hm.used_root h hc x).mpr (.inr (.inr ((howns x).mp hx)))
  have hfile : FileOk y rootDirSector e := by
    refine ⟨helen, hblocks ▸ hc.map, ⟨by rw [hsize]; unfold rootDirSector; omega, hmark _ (.inl rfl)⟩, fun p hp => ?_⟩
    rw [hblocks] at hp ⊢
    exact (hm.root_mapped h hc hp).1
  refine ⟨hstate, ⟨?_, ?_, ?_, fun x => ?_, fun s o ho => ?_, fun s o ho x hx => ?_, fun x hx => ?_⟩, honly.memOk,
    fun s o ho => ?_⟩
  · have hcnt' : u.mem.bitCnt = v.mem.bitCnt := by rw [hc.mem]
    rw [hcnt, hcnt', hm.bitCnt, h.whole, hsize]
  · unfold invalidSector
    omega
  · exact (hm.marked h (.inl rfl)).2
  · rw [hbits, hm.used_root h hc x]
    constructor
    · rintro (hx | hx | hx)
      · exact .inl (.inl hx)
      · exact .inl (.inr (.inl hx))
      · exact .inl (.inr (.inr ⟨rootDirSector, _, Ghost.rootOnly_root E e, (howns x).mpr hx⟩))
    rintro ((hx | hx | ⟨s, o, ho, hx⟩) | hx)
    · exact .inl hx
    · exact .inr (.inl hx)
    · obtain ⟨rfl, rfl⟩ := Ghost.rootOnly_objs ho
      exact .inr (.inr ((howns x).mp hx))
    · cases hx
  · obtain ⟨rfl, rfl⟩ := Ghost.rootOnly_objs ho
    exact hfile
  · obtain ⟨rfl, rfl⟩ := Ghost.rootOnly_objs ho
    obtain ⟨h0, hE⟩ := hm.root_apart h hc ((howns x).mp hx)
    rintro (hx | hx | ⟨t, p, ht, hp, -⟩)
    · exact h0 hx
    · exact hE hx
    · exact ht (Ghost.rootOnly_objs hp).1
  · cases hx
  · obtain ⟨rfl, rfl⟩ := Ghost.rootOnly_objs ho
    exact .inr ⟨by rw [hdev]; exact hc.own, rfl⟩

end

end MapMade

theorem Runs.filesysInit_format (hboot : w.mem = Fs.boot) (hsectors : 2 ≤ w.dev.size ∧ w.dev.size ≤ 1552384) :
    Runs true (filesysInit w.dev.size true) (fun _ v => ∃ E d, Formatted w v E d) w := by
  unfold filesysInit
  rw [modify_bind]
  refine freeMapInit_bind (by omega) (fun heap => ?_)
  simp only [if_true]
  generalize hw1 : (mk _ _ heap) = w1
  have hdev1 : w1.dev = w.dev := by rw [← hw1]
  have hblank : Blank w1 := by
    rw [← hw1, hboot]
    exact ⟨fun _ => rfl, rfl, rfl, rfl, hsectors, fun x => by simp⟩
  unfold doFormat
  rw [bind_assoc]
  refine (freeMapCreate hblank).bind ?_
  rintro _ v ⟨a, f, E, d, hlen, hm⟩
  rw [bind_assoc]
  refine (hm.dirCreate hblank).bind ?_
  rintro _ u ⟨rfl, e, helen, hc⟩
  have hmem := hc.mem
  have honly : OnlyMapOpen u a f d := hm.only.congr (by rw [hmem]) (by rw [hmem]) (by rw [hmem]) (by rw [hmem])
    (by rw [hmem]; exact Nat.le_succ _)
  have hblocks : (u.blocksOf e).blocks = 1 := by
    show (e.length.toNat + 511) / 512 = 1
    rw [helen]
    rfl
  have hindex : ∀ p, MapSlot.InUse (u.blocksOf e).blocks p → p.isIndex = true → False := by
    intro p hp hi
    cases p <;> simp_all [MapSlot.InUse, MapSlot.isIndex, numDirect]
  have hdisk : ∀ x, ¬E x → x ≠ rootDirSector → u.dev.disk x = v.dev.disk x :=
    fun x hE hx => hc.only x hE hx (fun p hp hi => (hindex p hp hi).elim)
  have hown : u.dev.disk freeMapSector = d := (hdisk _ (hm.marked hblank (.inl rfl)).2 (by decide)).trans hm.own
  have hsize : u.dev.size = w1.dev.size := hc.size.trans hm.size
  have hcnt : u.mem.bitCnt = w1.mem.bitCnt := by rw [hmem]; exact hm.bitCnt
  have hpos : freeMapSector < u.dev.size := by
    rw [hsize]
    exact Nat.lt_of_lt_of_le (by decide) hblank.sectors.1
  obtain ⟨hok, hmapE⟩ := honly.freeMapOk hc.state
  refine (freeMapClose honly hown hpos).bind ?_
  rintro _ x ⟨hxdev, hxcnt, hxbits, hxinodes, hxlist⟩
  have hxblocks : x.blocksOf d = u.blocksOf d := by rw [blocksOf, blocksOf, hxdev, hxbits]
  have hend : ∀ y, x.mem.bitCnt ≤ y → u.mem.freeMap y = false := by
    intro y hy
    rw [hxcnt, hcnt, hblank.whole, ← hsize] at hy
    by_contra hmark
    refine absurd hy (Nat.not_le.mpr ?_)
    rcases (hm.used_root hblank hc y).mp (Bool.eq_true_of_not_eq_false hmark) with rfl | hE | rfl | ⟨p, hp, rfl⟩
    · exact hpos
    · obtain ⟨p, hp, rfl⟩ := (hmapE y).mp hE
      exact hok.inside p hp
    · rw [hsize]
      exact Nat.lt_of_lt_of_le (by decide) hblank.sectors.1
    · exact hc.map.inside p hp
  refine (freeMapOpen hxinodes hxlist (hxdev ▸ hown) (hxdev ▸ hpos) (by rw [hxcnt, hcnt, hblank.whole]; exact hblank.sectors.2)
    (by rw [hlen, hxcnt, hcnt]) (by rw [hxblocks, hxdev]; exact hok.inside)
    hend (by rw [hxblocks, hxcnt]; exact hok.kept)).mono ?_
  rintro _ y ⟨hydev, hycnt, hybits, a', f', honly'⟩
  have hydev' : y.dev = u.dev := hydev.trans hxdev
  have hycnt' : y.mem.bitCnt = u.mem.bitCnt := hycnt.trans hxcnt
  refine ⟨E, e, hm.store hblank hc (by rw [helen]; decide) honly' (honly.reopened honly' hc.state hydev' hycnt' hybits)
    hydev' hycnt' hybits, helen, fun k hk => ?_⟩
  have hyblocks : y.blocksOf e = u.blocksOf e := by rw [blocksOf, blocksOf, hydev', hybits]
  have hblock : MapSlot.InUse (u.blocksOf e).blocks (.block 0) := by rw [hblocks]; exact Nat.one_pos
  obtain ⟨hroot, hne, hE⟩ := hm.root_mapped hblank hc hblock
  rw [hyblocks, BlockWorld.fileByte, Nat.div_eq_of_lt (by omega),
    Nat.mod_eq_of_lt (by omega), ← hdev1, ← hm.disk _ hE hne, ← hdisk _ hE hroot]
  rfl

end Pintos
