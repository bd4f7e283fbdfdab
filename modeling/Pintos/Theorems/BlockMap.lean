import Mathlib.Data.List.Nodup
import Pintos.Lemmas.AnyRun
import Pintos.Lemmas.WriteRuns

/-!
# The block map of a file that is created and extended (`filesys/inode.c`)

The on-disk format has room for 123 + 128 + 128 * 128 blocks. `allocate_file`, which fills the map, and `byte_to_sector`,
which walks it, agree for the first 379 of them. From there on they do not: both reckon with 512 entries in an index block
where there are 128, so that `allocate_file` makes one index block where four are needed, and `byte_to_sector` looks past the
end of the block that it has read.
-/

namespace Pintos

open Program Runs Prog FsOp List

variable {w : World} {E : Nat → Prop} {s : Nat} {p : FsM α}

/-- The index blocks of a map of `n` blocks, in the on-disk format. -/
def indexSectors (dev : Block) (d : InodeDisk) (n : Nat) : List Nat :=
  (if numDirect < n then [d.singlyIndirectPtr] else []) ++
    if numDirect + numBlocksInIndirect < n then
      d.doublyIndirectPtr :: (range ((n - (numDirect + numBlocksInIndirect) + 127) / numBlocksInIndirect)).map
        (dev.disk d.doublyIndirectPtr).word
    else []

/-- What the block map ought to be after the two calls. -/
structure MapExtended (w v : World) (s : Nat) (len0 len1 : Int) (a : Nat) (before after : List Nat) : Prop where
  counts : before.length = blocksIn len0 ∧ after.length = blocksIn len1
  /-- The sectors are those that the two calls have taken from the free map. -/
  allocated : ∀ x ∈ after, w.mem.freeMap x = false ∧ v.mem.freeMap x = true
  distinct : after.Nodup
  own : s ∉ after
  index : ∃ i, v.mem.inodes a = some i ∧ i.data.length = len1 ∧ ∀ x ∈ after, x ∉ indexSectors v.dev i.data (blocksIn len1)
  kept : ∀ k, k < before.length → after[k]? = before[k]?

/-- A file can be made at the sector: it is marked as used and not open, and the free map, in the sectors `E`, is in
order. -/
structure MapReady (w : World) (E : Nat → Prop) (s : Nat) : Prop extends FreeMapWhole w E where
  own : s < w.dev.size ∧ w.mem.freeMap s = true ∧ ¬E s
  closed : w.mem.findOpen s = none
  old : ∀ f file, w.mem.freeMapFile = some f → w.mem.files f = some file → file.inode < w.mem.nextAddr

/-! ## Up to block 379 -/

theorem Runs.blockSectors {st : Bool} {a : Nat} {i : Inode} (hi : w.mem.inodes a = some i) (hlim : i.data.length ≤ mapBytes)
    (hin : ∀ p, MapSlot.InUse (w.blocksOf i.data).blocks p → (w.blocksOf i.data).sector p < w.dev.size) (n : Nat)
    (hn : n ≤ (w.blocksOf i.data).blocks) :
    Runs st (blockSectors a n) (fun xs v => xs = (range n).map (fun b => (w.blocksOf i.data).sector (.block b)) ∧ v = w) w := by
  induction n with
  | zero => exact pure_iff.mpr ⟨rfl, rfl⟩
  | succ n ih =>
    refine bind_eq (ih (by omega)) ?_
    have hlt : ((n * blockSectorSize : Nat) : Int) < i.data.length := by
      have hb : n + 1 ≤ (i.data.length.toNat + 511) / 512 := hn
      unfold blockSectorSize
      omega
    have hdiv : ((n * blockSectorSize : Nat) : Int).toNat / 512 = n := by
      exact Nat.mul_div_cancel n (by decide)
    have hblock : ((n * blockSectorSize : Nat) : Int).toNat / 512 < (w.blocksOf i.data).blocks := by
      omega
    refine bind_eq (byteToSector hi (Int.natCast_nonneg _) hlt hblock (block_lt_mapLimit hlt hlim) hin) ?_
    refine pure_iff.mpr ⟨?_, rfl⟩
    rw [hdiv, range_succ, map_append]
    rfl

/-- Within the first 379 blocks every index block is a place of the map. -/
theorem mem_indexSectors {b : BlockWorld} {n x : Nat} (hn : n ≤ mapLimit) (h : x ∈ indexSectors b.dev b.data n) :
    ∃ p, MapSlot.InUse n p ∧ p.isIndex = true ∧ b.sector p = x := by
  rcases mem_append.mp h with h | h
  · split at h
    · exact ⟨.singly, ‹_›, rfl, (mem_singleton.mp h).symm⟩
    · exact absurd h not_mem_nil
  split at h
  · rename_i hmore
    rcases mem_cons.mp h with rfl | h
    · exact ⟨.doubly, hmore, rfl, rfl⟩
    obtain ⟨j, hj, rfl⟩ := mem_map.mp h
    have hj := mem_range.mp hj
    unfold mapLimit numDirect numBlocksInIndirect at hn
    unfold numDirect numBlocksInIndirect at hmore hj
    obtain rfl : j = 0 := by omega
    exact ⟨.leaf, hmore, rfl, rfl⟩
  · exact absurd h not_mem_nil

/-- The inode that has been made is opened, and can be extended. -/
theorem MapReady.inodeOpen {v : World} {d : InodeDisk} (h : MapReady w E s) (hc : Created w v E s d)
    (hlen : 0 ≤ d.length ∧ d.length ≤ mapBytes) :
    Runs true (inodeOpen s) (fun r u => ∃ a i, r = some a ∧ u.dev = v.dev ∧ u.mem.freeMap = v.mem.freeMap ∧ i.data = d ∧
      Writable u E a i ∧ i.sector = s) v := by
  have hmem := hc.mem
  have hfind : v.mem.findOpen s = none := by
    rw [hmem]
    exact h.closed
  unfold Pintos.inodeOpen
  rw [get_bind, hfind]
  refine malloc_bind (.inl rfl) (fun heap _ => ?_)
  have hsize : s < v.dev.size := hc.size ▸ h.own.1
  rw [modify_bind, readSector_bind (by exact hsize), setInode_bind]
  refine pure_iff.mpr ⟨v.mem.nextAddr,
    { sector := s, openCnt := 1, removed := false, extending := false, denyWriteCnt := 0, data := v.dev.disk s }, rfl, rfl,
    rfl, hc.own, ?_, rfl⟩
  have hfree : ∀ f file, v.mem.freeMapFile = some f → v.mem.files f = some file → file.inode ≠ v.mem.nextAddr := by
    intro f file hf hfile
    rw [hmem] at hf hfile ⊢
    have := h.old f file hf hfile
    exact Nat.ne_of_lt (Nat.lt_succ_of_lt this)
  have hown : (v.dev.disk s) = d := hc.own
  refine
    { state := hc.state.frame rfl rfl rfl (fun f file hf hfile =>
      ⟨hfile, Fs.setInode_ne _ _ (hfree f file hf hfile)⟩) rfl (fun _ _ => rfl)
      marked := fun x hx => (hc.used x).mpr (.inl (h.marked x hx))
      whole := ?_
      numbered := hc.size ▸ h.numbered
      file := ?_
      apart := ?_
      cell := Fs.setInode_self _ _ _
      notFreeMap := hfree }
  · rw [hmem, hc.size]
    exact h.whole
  · rw [hown]
    exact { hc.fileOk hlen h.own.1 h.own.2.1 with }
  · rw [hown]
    exact fun p hp hE => hc.ne_marked hp (h.marked _ hE) rfl

/-- Up to `mapBytes` the map is what it ought to be. -/
theorem MapReady.extends (h : MapReady w E s) {len0 len1 : Int} (h0 : 0 ≤ len0) (h01 : len0 ≤ len1) (hmax : len1 ≤ mapBytes) :
    Runs true (createAndExtend s len0 len1)
      (fun r v => ∃ a before after, r = some (a, before, after) ∧ MapExtended w v s len0 len1 a before after) w := by
  refine (Runs.inodeCreate h.toFreeMapWhole h.own h0 (by omega)).bind ?_
  rintro _ v ⟨rfl, d, hd, hc⟩
  refine (h.inodeOpen hc (by omega)).bind ?_
  rintro _ u ⟨a, i, rfl, hdev, hbits, hdata, hw, hsector⟩
  have hlen : i.data.length = len0 := by rw [hdata, hd]
  have hblocks : (u.blocksOf i.data).blocks = blocksIn len0 := by
    rw [← hlen]
    rfl
  refine Runs.bind_eq (Runs.blockSectors hw.cell hw.file.length.2 hw.file.map.inside (blocksIn len0) (by omega)) ?_
  refine (Runs.allocateFile hw (by omega) hmax).bind ?_
  rintro _ x (⟨d', hd', hx, hmem, -⟩ | ⟨d', hend⟩)
  case inr => cases hend.blocks.1.1
  have hcell : x.mem.inodes a = some { i with data := d', extending := false } := by
    rw [hmem]
    exact Fs.setInode_self _ _ _
  have hblocks' : (x.blocksOf d').blocks = blocksIn len1 := by
    rw [← hd']
    rfl
  refine Runs.bind_eq (Runs.blockSectors hcell (show d'.length ≤ mapBytes by omega) hx.map.inside (blocksIn len1)
    (by show blocksIn len1 ≤ (x.blocksOf d').blocks; omega)) ?_
  refine Runs.pure_iff.mpr ⟨a, _, _, rfl, ?_⟩
  -- The sectors of the blocks, as places of the new map.
  have hmem_after : ∀ y ∈ (range (blocksIn len1)).map (fun b => (x.blocksOf d').sector (.block b)),
      ∃ b, MapSlot.InUse (x.blocksOf d').blocks (.block b) ∧ (x.blocksOf d').sector (.block b) = y := by
    intro y hy
    obtain ⟨b, hb, rfl⟩ := mem_map.mp hy
    exact ⟨b, hblocks' ▸ mem_range.mp hb, rfl⟩
  have hsame : u.blocksOf i.data = v.blocksOf d := by rw [World.blocksOf, World.blocksOf, hdev, hbits, hdata]
  have hfresh : ∀ b, MapSlot.InUse (x.blocksOf d').blocks (.block b) →
      w.mem.freeMap ((x.blocksOf d').sector (.block b)) = false := by
    intro b hb
    by_cases hold : MapSlot.InUse (u.blocksOf i.data).blocks (.block b)
    · rw [hx.old _ hold, hsame]
      exact hc.fresh _ (hsame ▸ hold)
    · have hfree := hx.fresh _ hb hold
      by_contra hused
      rw [hbits, (hc.used _).mpr (.inl (Bool.eq_true_of_not_eq_false hused))] at hfree
      cases hfree
  refine
    { counts := ⟨by simp, by simp⟩
      allocated := ?_
      distinct := ?_
      own := ?_
      index := ⟨_, hcell, hd', ?_⟩
      kept := ?_ }
  · intro y hy
    obtain ⟨b, hb, rfl⟩ := hmem_after y hy
    exact ⟨hfresh b hb, (hx.used _).mpr (.inr ⟨_, hb, rfl⟩)⟩
  · refine List.Nodup.map_on (fun b hb c hc he => ?_) nodup_range
    exact MapSlot.block.inj (hx.map.inj _ _ (hblocks' ▸ mem_range.mp hb) (hblocks' ▸ mem_range.mp hc) he)
  · intro hs
    obtain ⟨b, hb, he⟩ := hmem_after s hs
    have := hfresh b hb
    rw [he, h.own.2.1] at this
    cases this
  · intro y hy hidx
    obtain ⟨b, hb, rfl⟩ := hmem_after y hy
    obtain ⟨p, hp, hindex, he⟩ := mem_indexSectors (b := x.blocksOf d')
      (by have hmap : mapBytes = 194048 := rfl; show _ ≤ 379; unfold blocksIn; omega) hidx
    rw [hx.map.inj _ _ (hblocks' ▸ hp) hb he] at hindex
    cases hindex
  · intro k hk
    rw [length_map, length_range] at hk
    have hk' : k < blocksIn len1 := by unfold blocksIn at hk ⊢; omega
    rw [getElem?_map, getElem?_map, getElem?_range hk, getElem?_range hk']
    exact congrArg some (hx.old (.block k) (hblocks ▸ hk))

/-! ## From block 379 on -/

namespace Yields

variable {st : Bool} {a : Nat}

/-- The walk that has come past block 379 has met a file that does not. -/
theorem blockSectors (n : Nat) :
    Yields st (blockSectors a n)
      (fun _ v => v = w ∧ (379 < n → ∀ i, w.mem.inodes a = some i → i.data.length ≤ mapBytes)) w := by
  induction n with
  | zero => exact pure_iff.mpr ⟨rfl, fun h => absurd h (by decide)⟩
  | succ n ih =>
    refine ih.bind ?_
    rintro xs v ⟨hv, hold⟩
    subst v
    by_cases hn : n = 379
    · rw [hn]
      refine ((byteToSector _).both byteToSector_379).bind ?_
      rintro x v ⟨⟨hv, -⟩, hx⟩
      exact pure_iff.mpr ⟨hv, fun _ => hx⟩
    · refine (byteToSector _).bind ?_
      rintro x v ⟨hv, -⟩
      exact pure_iff.mpr ⟨hv, fun h => hold (by omega)⟩

/-- Where the two calls and the walks return, the file that has got its length is no longer than `mapBytes`. -/
theorem createAndExtend (s : Nat) (len0 len1 : Int) :
    Yields st (createAndExtend s len0 len1)
      (fun r v => ∀ b before after i, r = some (b, before, after) → v.mem.inodes b = some i → i.data.length = len1 →
        len1 ≤ mapBytes) w := by
  have hnone : ∀ u, Yields st (pure none : FsM (Option (Nat × List Nat × List Nat)))
      (fun r v => ∀ b before after i, r = some (b, before, after) → v.mem.inodes b = some i → i.data.length = len1 →
        len1 ≤ mapBytes) u :=
    fun _ => pure_iff.mpr (fun _ _ _ _ h => by cases h)
  refine (of_all (fun _ _ => trivial)).bind (fun ok u _ => ?_)
  cases ok with
  | false => exact hnone u
  | true =>
    refine (of_all (fun _ _ => trivial)).bind (fun r u _ => ?_)
    cases r with
    | none => exact hnone u
    | some a =>
      refine (of_all (fun _ _ => trivial)).bind (fun before u _ => ?_)
      refine (of_all (fun _ _ => trivial)).bind (fun _ u _ => ?_)
      refine (blockSectors (blocksIn len1)).bind ?_
      rintro after v ⟨hv, hwalk⟩
      subst v
      refine pure_iff.mpr (fun b _ _ i hr hi hlen => ?_)
      cases hr
      by_contra hlong
      have hmap : mapBytes = 194048 := rfl
      have := hwalk (by unfold blocksIn; omega) i hi
      omega

end Yields

/-- After `inode_create` and an extension that have both succeeded, the block map is what it ought to be exactly for the
lengths up to `mapBytes`. -/
theorem block_map_extends {w : World} {E : Nat → Prop} {s : Nat} (h : MapReady w E s) {len0 len1 : Int} (h0 : 0 ≤ len0)
    (h01 : len0 ≤ len1) (hrun : (createAndExtend s len0 len1).run (exec true) w ≠ .error .exhausted) :
    Runs true (createAndExtend s len0 len1)
      (fun r v => ∃ a before after, r = some (a, before, after) ∧ MapExtended w v s len0 len1 a before after) w ↔
      len1 ≤ mapBytes := by
  refine ⟨fun hgood => ?_, h.extends h0 h01⟩
  obtain ⟨r, v, hok, a, before, after, hr, hmap⟩ := hgood.returns_of_ne hrun
  obtain ⟨i, hi, hlen, -⟩ := hmap.index
  exact (Yields.createAndExtend s len0 len1).ok hok a before after i hr hi hlen

/-! ## With sectors to spare -/

variable (n : Nat)

/-- The world with a free map of `n` sectors that is not kept in a file. The first of them are used, as many as its own map
has bits. -/
def World.filled (w : World) : World :=
  { w with mem := { w.mem with bitCnt := n, freeMap := fun x => decide (x < w.mem.bitCnt), freeMapFile := none } }

/-- `free_map_allocate`, as it is there: the next sector. -/
def nextSector : FsM (Option Nat) := do
  let fs ← FsM.get
  if fs.bitCnt < n then
    FsM.set { fs with bitCnt := fs.bitCnt + 1 }
    pure (some fs.bitCnt)
  else
    FsM.noSector
    pure none

/-- What `q` does, `p` does with that free map. -/
def Follows {α : Type} (p q : FsM α) : Prop :=
  ∀ w : World, p.run (exec true) (w.filled n) = (q.run (exec true) w).map (fun r => (r.1, r.2.filled n))

namespace Follows

variable {n : Nat} {α β : Type}

theorem bind {p q : FsM α} {k l : α → FsM β} (hp : Follows n p q) (hk : ∀ r, Follows n (k r) (l r)) :
    Follows n (p >>= k) (q >>= l) := by
  intro w
  rw [run_bind, run_bind, hp w]
  cases q.run (exec true) w with
  | ok r => exact hk r.1 r.2
  | error e => rfl

theorem run_get (k : Fs → FsM β) (w : World) : (FsM.get >>= k).run (exec true) w = (k w.mem).run (exec true) w := rfl

variable (a : Nat)

theorem inode : Follows n (FsM.inode a) (FsM.inode a) := by
  intro w
  have hsame : (w.filled n).mem.inodes = w.mem.inodes := rfl
  rw [FsM.inode, run_get, run_get, hsame]
  cases w.mem.inodes a with
  | some i | none => rfl

theorem modifyInode (u : Inode → Inode) : Follows n (FsM.modifyInode a u) (FsM.modifyInode a u) := (inode a).bind (fun _ _ => rfl)

theorem op {o : FsOp} (ho : ∀ w : World, exec true o (w.filled n) = (exec true o w).map (fun r => (r.1, r.2.filled n))) :
    Follows n (.op (S := fsSig) o) (.op (S := fsSig) o) := by
  intro w
  rw [Prog.op, Prog.run, Prog.run, ho w]
  cases exec true o w with
  | ok r => rfl
  | error e => rfl

/-- The first clear bit is the next sector. -/
theorem freeMapAllocate : Follows n freeMapAllocate (nextSector n) := by
  intro w
  rw [Pintos.freeMapAllocate, nextSector, run_get, run_get]
  by_cases hn : w.mem.bitCnt < n
  · have hscan : bitmapScan n (w.filled n).mem.freeMap = some w.mem.bitCnt :=
      find?_range_eq_some.mpr ⟨by simp [World.filled], mem_range.mpr hn, fun y hy => by simp [World.filled, hy]⟩
    have hnext : (w.filled n).mem.setBit w.mem.bitCnt true =
        (World.filled n { w with mem := { w.mem with bitCnt := w.mem.bitCnt + 1 } }).mem := by
      refine congrArg (fun m => { (w.filled n).mem with freeMap := m }) (funext fun y => ?_)
      simp only [World.filled]
      grind
    rw [show (w.filled n).mem.bitCnt = n from rfl, hscan, if_pos hn]
    dsimp only
    rw [hnext]
    rfl
  · have hscan : bitmapScan n (w.filled n).mem.freeMap = none := by
      refine find?_eq_none.mpr (fun y hy => ?_)
      simp only [World.filled]
      grind
    rw [show (w.filled n).mem.bitCnt = n from rfl, hscan, if_neg hn]
    rfl

theorem blockRequest (o : BlockOp) :
    Follows n (Pintos.blockRequest Pintos.freeMapAllocate (.inode a) o) (Pintos.blockRequest (nextSector n) (.inode a) o) := by
  cases o with
  | data => exact (inode a).bind (fun _ _ => rfl)
  | setDirect k x | setSingly x | setDoubly x => exact modifyInode a _
  | allocate => exact freeMapAllocate
  | read x | write x c => exact op (fun w => by simp only [exec, apply_ite (Except.map _)]; rfl)
  | wild => exact fun _ => rfl

theorem allocateFile (len : Int) :
    Follows n (Pintos.allocateFile Pintos.freeMapAllocate a len) (Pintos.allocateFile (nextSector n) a len) := by
  have hmap : ∀ p : BlockM Bool, Follows n (onBlocks Pintos.freeMapAllocate (.inode a) p)
      (onBlocks (nextSector n) (.inode a) p) := by
    intro p
    induction p with
    | ret r => exact fun _ => rfl
    | call o k ih => exact (blockRequest a o).bind ih
  refine (modifyInode a _).bind (fun _ => (hmap _).bind (fun ok => ?_))
  cases ok with
  | false => exact fun _ => rfl
  | true => exact modifyInode a _

end Follows

/-- Nowhere does an allocation fail in the program. -/
def Supplied {α : Type} (p : FsM α) : Prop := ∀ w, p.Ends (exec true) (fun e => e ≠ .exhausted) (fun _ _ => True) w

namespace Supplied

variable {α β : Type}

theorem bind {p : FsM α} {k : α → FsM β} (hp : Supplied p) (hk : ∀ r, Supplied (k r)) : Supplied (p >>= k) :=
  fun w => (hp w).bind (fun r v _ => hk r v)

theorem pure (r : α) : Supplied (Pure.pure r : FsM α) := fun _ => trivial

theorem run_ne (hp : Supplied p) (w : World) : p.run (exec true) w ≠ .error .exhausted := by
  intro he
  have h := hp w
  unfold Ends at h
  rw [he] at h
  exact h rfl

variable (a : Nat)

theorem inode : Supplied (FsM.inode a) := by
  refine bind (fun _ => trivial) (fun fs => ?_)
  cases fs.inodes a with
  | some i => exact pure i
  | none =>
    intro w h
    cases h

theorem readSector (x : Nat) : Supplied (FsM.readSector x) := by
  intro w
  refine ends_call.mpr ?_
  by_cases hx : w.dev.checkSector x = true
  · simp only [exec, if_pos hx]
    exact trivial
  · simp [exec, if_neg hx]

theorem looks {p : BlockM α} (hp : p.Only BlockOp.Looks) : Supplied (onBlocks noAlloc (.inode a) p) := by
  induction p with
  | ret r => exact pure r
  | call o k ih =>
    obtain ⟨ho, hk⟩ := only_call.mp hp
    have hrest : ∀ r, Supplied (onBlocks noAlloc (.inode a) (k r)) := fun r => ih r (hk r)
    cases o with
    | data => exact ((inode a).bind (fun i => pure i.data)).bind hrest
    | read x => exact (readSector x).bind hrest
    | wild => exact fun _ => nofun
    | _ => exact ho.elim

/-- Nothing is allocated on a walk. -/
theorem blockSectors (k : Nat) : Supplied (blockSectors a k) := by
  induction k with
  | zero => exact pure []
  | succ k ih => exact ih.bind (fun _ => (looks a (byteToSector_looks _)).bind (fun _ => pure _))

end Supplied

/-- A device of 700 sectors of which one is used, with memory for everything. -/
def wideDisk : World where
  mem := { Fs.boot with bitCnt := 700, freeMap := fun x => x == 0 }
  dev := { size := 700, disk := fun _ => Contents.fill 0 }
  heap _ := true

theorem wideDisk_ready : MapReady wideDisk (fun _ => False) 0 where
  state := .absent rfl (fun _ h => h)
  marked _ h := h.elim
  whole := rfl
  numbered := by decide
  own := ⟨by decide, rfl, fun h => h⟩
  closed := rfl
  old f file hf _ := by cases hf

/-- The same device before its free map is filled. -/
def wideStart : World := { wideDisk with mem := { Fs.boot with bitCnt := 1 } }

theorem wideStart_filled : wideStart.filled 700 = wideDisk := by
  refine congrArg (fun m => { wideDisk with mem := { wideDisk.mem with freeMap := m } }) (funext fun x => ?_)
  simp only [wideStart]
  grind

/-- The same device with an empty file that is open. -/
def wideOpened : World :=
  match (inodeCreate 0 0 >>= fun _ => inodeOpen 0).run (exec true) wideStart with
  | .ok (_, w) => w
  | .error _ => wideStart

/-- The disk has sectors enough for an empty file that is extended, where the sectors are given one by one. -/
theorem wideDisk_supplied {len : Int} (h : ((allocateFile (nextSector 700) 1 len).run (exec true) wideOpened).isOk = true) :
    (createAndExtend 0 0 len).run (exec true) wideDisk ≠ .error .exhausted := by
  have hopen : (createAndExtend 0 0 len).run (exec true) (wideStart.filled 700) =
      (allocateFile freeMapAllocate 1 len >>= fun _ => blockSectors 1 (blocksIn len) >>= fun after =>
        pure (some (1, [], after))).run (exec true) (wideOpened.filled 700) := by
    with_unfolding_all rfl
  rw [← wideStart_filled, hopen, run_bind, Follows.allocateFile 1 len wideOpened]
  cases hr : (allocateFile (nextSector 700) 1 len).run (exec true) wideOpened with
  | error e =>
    rw [hr] at h
    cases h
  | ok r =>
    exact ((Supplied.blockSectors 1 _).bind (fun _ => .pure _)).run_ne (r.2.filled 700)

/-- An extension by two blocks. -/
theorem wideDisk_two_blocks : Runs true (createAndExtend 0 0 513)
    (fun r v => ∃ a before after, r = some (a, before, after) ∧ MapExtended wideDisk v 0 0 513 a before after) wideDisk :=
  (block_map_extends wideDisk_ready (Int.le_refl 0) (by decide) (wideDisk_supplied (by decide +kernel))).mpr (by decide)

/-- An extension by 380 blocks: there are sectors enough, and the map is not what it ought to be. -/
theorem wideDisk_380_blocks : (createAndExtend 0 0 194049).run (exec true) wideDisk ≠ .error .exhausted ∧
    ¬Runs true (createAndExtend 0 0 194049)
      (fun r v => ∃ a before after, r = some (a, before, after) ∧ MapExtended wideDisk v 0 0 194049 a before after) wideDisk := by
  have hrun : (createAndExtend 0 0 194049).run (exec true) wideDisk ≠ .error .exhausted := wideDisk_supplied (by decide +kernel)
  refine ⟨hrun, fun hgood => ?_⟩
  obtain ⟨r, v, hok, a, before, after, hr, hmap⟩ := hgood.returns_of_ne hrun
  obtain ⟨i, hi, hlen, -⟩ := hmap.index
  exact absurd ((Yields.createAndExtend 0 0 194049).ok hok a before after i hr hi hlen) (by decide)

end Pintos
