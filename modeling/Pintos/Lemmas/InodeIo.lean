import Pintos.Lemmas.Allocate
import Pintos.Lemmas.FsM

/-!
# Reading and overwriting the bytes of a file

The bytes of a file are those of its blocks, one after the other. `inode_read_at` returns them, and `inode_write_at` within
the length of the file replaces them: `Overwritten` says what a device looks like after that.
-/

namespace Pintos

open Program BlockWorld Prog World BlockM List

variable {offset pos : Int} {α : Type} {p : BlockM Nat} {a x : Nat} {i : Inode} {w : World} {b : BlockWorld}

/-- What block map programs see of a world, for an inode with this data. -/
def World.blocksOf (w : World) (d : InodeDisk) : BlockWorld := { data := d, used := w.mem.freeMap, dev := w.dev }

/-- The sectors of the map of a file with these data. -/
def World.mapSectors (w : World) (d : InodeDisk) (x : Nat) : Prop :=
  ∃ p, MapSlot.InUse (w.blocksOf d).blocks p ∧ (w.blocksOf d).sector p = x

theorem World.mapSectors_congr {w w' : World} {d : InodeDisk}
    (h : Stable (w.blocksOf d).blocks (w.blocksOf d) (w'.blocksOf d)) (x : Nat) : w'.mapSectors d x ↔ w.mapSectors d x :=
  exists_congr fun p => and_congr_right fun hp => by rw [h p hp]

/-- The sectors of the file with this inode sector and these data. -/
def World.owns (w : World) (s : Nat) (d : InodeDisk) (x : Nat) : Prop := x = s ∨ w.mapSectors d x

/-- A file that a block map can hold: its map is right, and its inode has a sector of its own. -/
structure FileOk (w : World) (s : Nat) (d : InodeDisk) : Prop where
  length : 0 ≤ d.length ∧ d.length ≤ mapBytes
  map : (w.blocksOf d).MapOk (w.blocksOf d).blocks
  own : s < w.dev.size ∧ w.mem.freeMap s = true
  notMapped : ∀ p, MapSlot.InUse (w.blocksOf d).blocks p → (w.blocksOf d).sector p ≠ s

/-- Byte number `k` of a file. -/
def BlockWorld.fileByte (b : BlockWorld) (k : Nat) : UInt8 := (b.dev.disk (b.sector (.block (k / 512)))).byte (k % 512)

/-- Bytes `ofs` to `ofs + n` of a file. -/
def BlockWorld.fileBytes (b : BlockWorld) (ofs n : Nat) : List UInt8 := (range n).map (fun j => b.fileByte (ofs + j))

theorem sectorOfs_eq (h0 : 0 ≤ offset) : sectorOfs offset = offset % 512 := by
  unfold sectorOfs
  rw [Int.tmod_eq_emod_of_nonneg h0]
  rfl

theorem sectorOfs_nonneg (h0 : 0 ≤ offset) : 0 ≤ sectorOfs offset := by
  rw [sectorOfs_eq h0]
  omega

theorem range_split (F : Nat → α) {c size : Int} (hc : 0 ≤ c) (hs : c ≤ size) (h0 : 0 ≤ offset) :
    (range size.toNat).map (fun j => F (offset.toNat + j)) =
      (range c.toNat).map (fun j => F (offset.toNat + j)) ++
        (range (size - c).toNat).map (fun j => F ((offset + c).toNat + j)) := by
  rw [show size.toNat = c.toNat + (size - c).toNat by omega, range_add, map_append, map_map,
    show (offset + c).toNat = offset.toNat + c.toNat by omega]
  congr 1
  refine map_congr_left fun j _ => ?_
  rw [Function.comp_apply, Nat.add_assoc]

/-- A byte that the map reaches lies in a block that it reaches. -/
theorem block_lt_mapLimit {len : Int} (h : pos < len) (hl : len ≤ mapBytes) : pos.toNat / 512 < mapLimit := by
  unfold mapBytes at hl
  unfold mapLimit numDirect numBlocksInIndirect
  omega

theorem block_inUse (w : World) {d : InodeDisk} {k : Nat} (hk : (k : Int) < d.length) :
    MapSlot.InUse (w.blocksOf d).blocks (.block (k / 512)) := by
  have hb := blocks_of_lt (Int.natCast_nonneg k) hk
  rwa [Int.toNat_natCast] at hb

namespace Runs

variable {st : Bool} {Q : α → World → Prop} {alloc : FsM (Option Nat)} {ref : DataRef}

theorem onBlocks_bind {β : Type} {p : BlockM β} {k : β → BlockM α} :
    onBlocks alloc ref (p >>= k) = onBlocks alloc ref p >>= fun r => onBlocks alloc ref (k r) := handle_bind _ _ _

end Runs

/-! ## Where the bytes are -/

/-- The requests that only look. -/
def BlockOp.Looks : BlockOp → Prop
  | .data | .read _ | .wild => True
  | _ => False

theorem BlockM.wild_looks : (wild : BlockM α).Only BlockOp.Looks := only_call.mpr ⟨trivial, fun r => nomatch r⟩

theorem BlockM.data_looks : data.Only BlockOp.Looks := only_call.mpr ⟨trivial, fun _ => only_ret _⟩

theorem BlockM.read_looks (x : Nat) : (read x).Only BlockOp.Looks := only_call.mpr ⟨trivial, fun _ => only_ret _⟩

theorem BlockM.entry_looks (block : Contents) (k : Nat) : (entry block k).Only BlockOp.Looks := by
  unfold entry
  split
  · exact only_ret _
  · exact wild_looks

theorem byteToSector_looks (pos : Int) : (byteToSector pos).Only BlockOp.Looks := by
  refine data_looks.bind (fun d => ?_)
  split
  · dsimp only
    split
    · exact wild_looks
    split
    · exact only_ret _
    · split
      · exact (read_looks _).bind (fun _ => entry_looks _ _)
      · exact (read_looks _).bind (fun _ => (entry_looks _ _).bind (fun _ => (read_looks _).bind (fun _ => entry_looks _ _)))
  · exact only_ret _

/-- A program that only looks, over the block map of an open inode: it does what it does on the block map, and the world
stays. -/
theorem run_onBlocks {st : Bool} {alloc : FsM (Option Nat)} (hi : w.mem.inodes a = some i)
    {p : BlockM α} (hp : p.Only BlockOp.Looks) :
    (onBlocks alloc (.inode a) p).run (FsOp.exec st) w =
      (p.run (BlockOp.exec none) (w.blocksOf i.data)).map (fun r => (r.1, w)) := by
  induction p with
  | ret r => rfl
  | call o k ih =>
    cases o with
    | data =>
      have hget : (blockRequest alloc (.inode a) .data).run (FsOp.exec st) w = .ok (i.data, w) := by
        unfold blockRequest DataRef.get
        rw [run_bind, run_inode hi]
        rfl
      show (blockRequest alloc (.inode a) .data >>= fun r => onBlocks alloc (.inode a) (k r)).run (FsOp.exec st) w = _
      rw [run_bind, hget]
      exact ih i.data ((only_call.mp hp).2 i.data)
    | read x =>
      by_cases hx : w.dev.checkSector x = true
      · have hlook : BlockOp.exec none (.read x) (w.blocksOf i.data) = .ok (w.dev.disk x, w.blocksOf i.data) := if_pos hx
        have hread : FsOp.exec st (.read x) w = .ok (w.dev.disk x, w) := if_pos hx
        exact (run_call_ok hread).trans ((ih _ ((only_call.mp hp).2 _)).trans (congrArg _ (run_call_ok hlook).symm))
      have hlook : BlockOp.exec none (.read x) (w.blocksOf i.data) = .error .panic := if_neg hx
      have hread : FsOp.exec st (.read x) w = .error .panic := if_neg hx
      have hfail : (call (S := blockSig) (.read x) k).run (BlockOp.exec none) (w.blocksOf i.data) = .error .panic :=
        run_call_error hlook
      rw [hfail]
      exact run_call_error hread
    | wild => rfl
    | setDirect _ _ | setSingly _ | setDoubly _ | allocate | write _ _ => exact (only_call.mp hp).1.elim

/-- A program that is safe where nothing else happens returns. -/
theorem BlockM.run_of_safe {G : BlockWorld → BlockWorld → Prop} {Q : α → BlockWorld → Prop} {p : BlockM α}
    (h : p.Safe (blockSem fun _ => True) Eq G Q b) : ∃ r b', p.run (BlockOp.exec none) b = .ok (r, b') ∧ Q r b' := by
  induction p generalizing b with
  | ret r => exact ⟨r, b, rfl, safe_ret.mp h b rfl⟩
  | call o k ih =>
    obtain ⟨hallowed, hstep⟩ := safe_call.mp h b rfl
    cases ho : BlockOp.exec none o b with
    | error e => exact absurd ho (hallowed none e)
    | ok v =>
      obtain ⟨r, b', hrun, hq⟩ := ih v.1 (hstep v.1 v.2 ⟨none, fun _ => ⟨rfl, fun _ => trivial⟩, ho⟩).2
      exact ⟨r, b', (run_call_ok ho).trans hrun, hq⟩

namespace Runs

variable {st : Bool} {alloc : FsM (Option Nat)} (hi : w.mem.inodes a = some i)
include hi

/-- A search that returns on the block map, run on an open inode. -/
theorem onBlocks_run (hp : p.Only BlockOp.Looks) (hb : p.run (BlockOp.exec none) (w.blocksOf i.data) = .ok (x, b)) :
    Runs st (onBlocks alloc (.inode a) p) (fun y w' => y = x ∧ w' = w) w := by
  have hrun : (onBlocks alloc (.inode a) p).run (FsOp.exec st) w = .ok (x, w) := by
    rw [run_onBlocks hi hp, hb]
    rfl
  exact (of_run hrun).mpr ⟨rfl, rfl⟩

theorem byteToSector_end (hle : i.data.length ≤ pos) :
    Runs st (onBlocks alloc (.inode a) (byteToSector pos)) (fun x w' => x = invalidSector ∧ w' = w) w := by
  have hsafe : (Pintos.byteToSector pos >>= pure).Safe (blockSem fun _ => True) Eq Eq (fun x _ => x = invalidSector)
    (w.blocksOf i.data) :=
    safe_byteToSector_hole (fun _ => rfl) (by rintro _ rfl; exact hle) (fun _ _ => safe_pure (fun _ _ => rfl))
  rw [bind_pure] at hsafe
  obtain ⟨x, b, hrun, rfl⟩ := run_of_safe hsafe
  exact onBlocks_run hi (byteToSector_looks pos) hrun

theorem byteToSector {n : Nat} (h0 : 0 ≤ pos) (hlt : pos < i.data.length)
    (hn : pos.toNat / 512 < n) (hlim : pos.toNat / 512 < mapLimit)
    (hin : ∀ p, MapSlot.InUse n p → (w.blocksOf i.data).sector p < w.dev.size) :
    Runs st (onBlocks alloc (.inode a) (byteToSector pos))
      (fun x w' => x = (w.blocksOf i.data).sector (.block (pos.toNat / 512)) ∧ w' = w) w := by
  have hsafe : (Pintos.byteToSector pos >>= pure).Safe (blockSem fun _ => True) Eq Eq
      (fun x _ => x = (w.blocksOf i.data).sector (.block (pos.toNat / 512))) (w.blocksOf i.data) := by
    refine safe_byteToSector (fun _ => rfl) (fun _ _ _ h1 h2 => h1.trans h2)
      h0 hn hlim ?_ hin (fun _ _ => safe_pure (fun _ _ => rfl))
    rintro _ rfl
    exact ⟨.refl _ _, rfl, hlt⟩
  rw [bind_pure] at hsafe
  obtain ⟨x, b, hrun, rfl⟩ := run_of_safe hsafe
  exact onBlocks_run hi (byteToSector_looks pos) hrun

end Runs

/-- The sector of the device that a search has led to, if it has led to one. -/
def World.found (w : World) : Except Halt (Nat × BlockWorld) → Option Nat
  | .ok (x, _) => if w.dev.checkSector x then some x else none
  | .error _ => none

theorem World.found_eq_some {r : Except Halt (Nat × BlockWorld)} :
    w.found r = some x ↔ (∃ b, r = .ok (x, b)) ∧ x < w.dev.size := by
  cases r with
  | error e => simp [found]
  | ok r =>
    obtain ⟨y, b⟩ := r
    have hfound : w.found (.ok (y, b)) = if y < w.dev.size then some y else none := by simp [found, Block.checkSector]
    rw [hfound]
    by_cases hy : y < w.dev.size
    · rw [if_pos hy]
      constructor
      · intro h
        cases h
        exact ⟨⟨b, rfl⟩, hy⟩
      · rintro ⟨⟨b', h⟩, -⟩
        cases h
        rfl
    · rw [if_neg hy]
      constructor
      · intro h
        cases h
      · rintro ⟨⟨b', h⟩, hx⟩
        cases h
        exact absurd hx hy

/-- The sector that `byte_to_sector` finds for a byte of an inode, if it finds one of the device. -/
def World.sectorAt (w : World) (d : InodeDisk) (k : Nat) : Option Nat :=
  w.found ((byteToSector k).run (BlockOp.exec none) (w.blocksOf d))

/-- Byte number `k` of an inode, where the block map leads to one. -/
def World.byteAt (w : World) (d : InodeDisk) (k : Nat) : Option UInt8 :=
  (w.sectorAt d k).map (fun x => (w.dev.disk x).byte (k % 512))

theorem byteToSector_congr (b : BlockWorld) {pos' : Int} (h : pos < b.data.length) (h' : pos' < b.data.length)
    (hb : pos.tdiv blockSectorSize = pos'.tdiv blockSectorSize) :
    (byteToSector pos).run (BlockOp.exec none) b = (byteToSector pos').run (BlockOp.exec none) b := by
  have hdata : ∀ f : InodeDisk → BlockM Nat, (data >>= f).run (BlockOp.exec none) b = (f b.data).run (BlockOp.exec none) b :=
    fun _ => rfl
  unfold byteToSector
  rw [hdata, hdata, if_pos h, if_pos h', hb]

/-- The bytes of one block are in one sector. -/
theorem World.sectorAt_congr (w : World) {d : InodeDisk} {j k : Nat} (hj : (j : Int) < d.length) (hk : (k : Int) < d.length)
    (h : j / 512 = k / 512) : w.sectorAt d j = w.sectorAt d k := by
  have hb : (j : Int).tdiv blockSectorSize = (k : Int).tdiv blockSectorSize := by
    exact congrArg Int.ofNat h
  exact congrArg w.found (byteToSector_congr (w.blocksOf d) hj hk hb)

namespace Runs

variable {st : Bool} {alloc : FsM (Option Nat)}

section

variable (hi : w.mem.inodes a = some i)
include hi

/-- A search that leads to a sector of the device, run on an open inode. -/
theorem onBlocks_found (hp : p.Only BlockOp.Looks) (hx : w.found (p.run (BlockOp.exec none) (w.blocksOf i.data)) = some x) :
    Runs st (onBlocks alloc (.inode a) p) (fun y w' => y = x ∧ w' = w) w := by
  obtain ⟨⟨b, hb⟩, -⟩ := found_eq_some.mp hx
  exact onBlocks_run hi hp hb

/-- A search that, run on an open inode, returns a sector of the device. -/
theorem found_of_runs (hp : p.Only BlockOp.Looks)
    (hr : Runs false (onBlocks noAlloc (.inode a) p) (fun y w' => y = x ∧ w' = w) w) (hx : x < w.dev.size) :
    w.found (p.run (BlockOp.exec none) (w.blocksOf i.data)) = some x := by
  obtain ⟨y, v, hrun, rfl, rfl⟩ := hr.returns
  rw [run_onBlocks hi hp] at hrun
  refine found_eq_some.mpr ⟨?_, hx⟩
  cases hb : p.run (BlockOp.exec none) (v.blocksOf i.data) with
  | error e => rw [hb] at hrun; cases hrun
  | ok r =>
    rw [hb] at hrun
    cases hrun
    exact ⟨r.2, rfl⟩

/-- Where the block map is in order, byte number `k` is the one in its block. -/
theorem byteAt_eq {n k : Nat} (hlt : (k : Int) < i.data.length) (hn : k / 512 < n)
    (hlim : k / 512 < mapLimit) (hin : ∀ p, MapSlot.InUse n p → (w.blocksOf i.data).sector p < w.dev.size) :
    w.byteAt i.data k = some ((w.blocksOf i.data).fileByte k) := by
  have hsector : w.sectorAt i.data k = some ((w.blocksOf i.data).sector (.block (k / 512))) :=
    found_of_runs hi (byteToSector_looks k) (byteToSector hi (Int.natCast_nonneg k) hlt hn hlim hin) (hin (.block (k / 512)) hn)
  unfold byteAt
  rw [hsector]
  rfl

/-- The loop of `inode_read_at`, over bytes that all have a sector. -/
theorem readChunks (turns : Nat) :
    ∀ (size offset : Int) (bytes : List UInt8), 0 ≤ offset → offset + size ≤ i.data.length → size ≤ turns →
      (∀ k : Nat, offset ≤ k → k < offset + size → (w.byteAt i.data k).isSome) →
      Runs st (readChunks a turns size offset bytes)
        (fun r w' => (∃ bs, r = bytes ++ bs ∧ bs.map some =
          (range size.toNat).map (fun j => w.byteAt i.data (offset.toNat + j))) ∧ w' = w) w := by
  have hdone : ∀ (size offset : Int) (bytes : List UInt8), size ≤ 0 →
      ∃ bs, bytes = bytes ++ bs ∧ bs.map some = (range size.toNat).map (fun j => w.byteAt i.data (offset.toNat + j)) := by
    intro size offset bytes hs
    refine ⟨[], (append_nil bytes).symm, ?_⟩
    rw [show size.toNat = 0 by omega]
    rfl
  induction turns with
  | zero => exact fun size offset bytes _ _ ht _ => pure_iff.mpr ⟨hdone size offset bytes (by omega), rfl⟩
  | succ turns ih =>
    intro size offset bytes h0 hle ht hmap
    unfold Pintos.readChunks
    by_cases hs : 0 < size
    · have hlt : offset < i.data.length := by omega
      obtain ⟨hpos, hcs, hcl, hsec⟩ := chunkSize_bounds i.data.length size offset hs h0 hlt i.data.length_le
      obtain ⟨x, hx⟩ : ∃ x, w.sectorAt i.data offset.toNat = some x := by
        have := hmap offset.toNat (by omega) (by omega)
        rwa [byteAt, Option.isSome_map, Option.isSome_iff_exists] at this
      have hin := (found_eq_some.mp hx).2
      have hrun : Runs st (onBlocks noAlloc (.inode a) (Pintos.byteToSector offset)) (fun y w' => y = x ∧ w' = w) w := by
        rw [← Int.toNat_of_nonneg h0]
        exact onBlocks_found hi (byteToSector_looks _) hx
      rw [if_pos hs]
      refine bind_eq hrun ?_
      rw [inode_bind hi, if_neg (by omega), bufcacheRead_bind hin (sectorOfs_nonneg h0) hsec]
      refine (ih _ _ _ (by omega) (by omega) (by omega) (fun k h1 h2 => hmap k (by omega) (by omega))).mono ?_
      rintro r w' ⟨⟨bs, rfl, hbs⟩, rfl⟩
      refine ⟨⟨_, append_assoc _ _ _, ?_⟩, rfl⟩
      rw [map_append, hbs, range_split _ (Int.le_of_lt hpos) hcs h0]
      congr 1
      -- The bytes that lie in one sector.
      unfold Contents.slice Bytes.slice
      rw [map_map]
      refine map_congr_left fun j hj => ?_
      have hj := mem_range.mp hj
      have hofs := sectorOfs_eq h0
      rw [Function.comp_apply, byteAt, w'.sectorAt_congr (k := offset.toNat) (by omega) (by omega) (by omega), hx]
      rw [Option.map_some, hofs, show (offset.toNat + j) % 512 = (offset % 512).toNat + j by omega]
    · rw [if_neg hs]
      exact pure_iff.mpr ⟨hdone size offset bytes (by omega), rfl⟩

end

end Runs

/-! ## Overwriting -/

/-- The device after the bytes `bs` have been written at offset `ofs` of the file `b`, within its blocks. -/
structure Overwritten (b : BlockWorld) (ofs : Nat) (bs : List UInt8) (dev : Block) : Prop where
  size : dev.size = b.dev.size
  frame : ∀ x, ¬dataSectors b x → dev.disk x = b.dev.disk x
  bytes : ∀ k, k / 512 < b.blocks → (dev.disk (b.sector (.block (k / 512)))).byte (k % 512) =
    if ofs ≤ k ∧ k < ofs + bs.length then bs.getD (k - ofs) 0 else b.fileByte k

/-- The inode with a writer that has counted itself in. -/
def Inode.entered (i : Inode) : Inode := { i with denyWriteCnt := i.denyWriteCnt - 1 }

theorem Inode.leaveWrite_entered (i : Inode) : i.entered.leaveWrite = i := by simp [leaveWrite, entered]

namespace Overwritten

variable {ofs : Nat} {bs : List UInt8} {dev : Block}

theorem nil (b : BlockWorld) (ofs : Nat) : Overwritten b ofs [] b.dev where
  size := rfl
  frame _ _ := rfl
  bytes k _ := by
    rw [if_neg (by simp)]
    rfl

variable (h : Overwritten b ofs bs dev) (hinj : ∀ p q, p.InUse b.blocks → q.InUse b.blocks → b.sector p = b.sector q → p = q)
include h hinj

/-- The index blocks of the file are not among the sectors written, so the map stays. -/
theorem sector_eq {p : MapSlot} (hp : p.InUse b.blocks) : sector { b with dev := dev } p = b.sector p := by
  suffices hst : Stable b.blocks b { b with dev := dev } from hst p hp
  refine stable_of_index rfl (fun q hq hi => h.frame _ ?_)
  rintro ⟨k, hk, he⟩
  rw [← hinj (.block k) q hk hq he] at hi
  cases hi

/-- One more stretch is written, inside one sector, right after what has been written. -/
theorem chunk {cs : List UInt8} {q : Nat} (hq : (ofs + bs.length) / 512 = q) (hqb : q < b.blocks)
    (hcs : (ofs + bs.length) % 512 + cs.length ≤ 512) :
    Overwritten b ofs (bs ++ cs) { dev with
      disk := fun y =>
        if y = b.sector (.block q) then (dev.disk (b.sector (.block q))).splice ((ofs + bs.length) % 512) cs
        else dev.disk y } where
  size := h.size
  frame x hx := by
    have hne : x ≠ b.sector (.block q) := fun he => hx ⟨q, hqb, he.symm⟩
    simp only [if_neg hne]
    exact h.frame x hx
  bytes k hk := by
    -- A byte that is not written now is what it was.
    have hold : ¬(ofs + bs.length ≤ k ∧ k < ofs + bs.length + cs.length) →
        (dev.disk (b.sector (.block (k / 512)))).byte (k % 512) =
        if ofs ≤ k ∧ k < ofs + (bs ++ cs).length then (bs ++ cs).getD (k - ofs) 0 else b.fileByte k := by
      intro hout
      rw [h.bytes k hk]
      by_cases hbs : ofs ≤ k ∧ k < ofs + bs.length
      · rw [if_pos hbs, if_pos (by simp only [length_append]; omega), getD_append _ _ _ _ (by omega)]
      · rw [if_neg hbs, if_neg (by simp only [length_append]; omega)]
    by_cases hkq : k / 512 = q
    · simp only [hkq, if_true] at hold ⊢
      by_cases hin : ofs + bs.length ≤ k ∧ k < ofs + bs.length + cs.length
      · have hsp := (dev.disk (b.sector (.block q))).splice_inside ((ofs + bs.length) % 512) cs (k - (ofs + bs.length)) (by omega)
          (by unfold blockSectorSize; omega)
        rw [show (ofs + bs.length) % 512 + (k - (ofs + bs.length)) = k % 512 by omega] at hsp
        rw [hsp, if_pos (by simp only [length_append]; omega), getD_append_right _ _ _ _ (by omega)]
        congr 1
        omega
      · rw [(dev.disk (b.sector (.block q))).splice_outside ((ofs + bs.length) % 512) cs (k % 512) (by omega)]
        exact hold hin
    · have hne : b.sector (.block (k / 512)) ≠ b.sector (.block q) := by
        intro he
        have := hinj (.block (k / 512)) (.block q) hk hqb he
        exact hkq (MapSlot.block.inj this)
      simp only [if_neg hne]
      exact hold (by omega)

end Overwritten

namespace Runs

variable {st : Bool} {alloc : FsM (Option Nat)} {size : Int}

section

variable (hi : w.mem.inodes a = some i) (hlim : i.data.length ≤ mapBytes) (hb : b = w.blocksOf i.data)
  (hin : ∀ p, MapSlot.InUse b.blocks p → b.sector p < w.dev.size)
  (hinj : ∀ p q, p.InUse b.blocks → q.InUse b.blocks → b.sector p = b.sector q → p = q)
include hi hlim hb hin hinj

/-- The loop of `inode_write_at`, once the file is long enough. -/
theorem writeChunks (buffer : List UInt8) (ofs turns : Nat) :
    ∀ (size offset : Int) (written : Nat) (dev : Block), Overwritten b ofs (buffer.take written) dev → offset = ofs + written →
      offset + size ≤ i.data.length → written + size.toNat ≤ buffer.length → size ≤ turns →
      Runs st (writeChunks a buffer turns size offset written)
        (fun r w' => r = written + size.toNat ∧
          ∃ dev', Overwritten b ofs (buffer.take (written + size.toNat)) dev' ∧ w' = { w with dev := dev' })
            { w with dev := dev } := by
  induction turns with
  | zero =>
    intro size offset written dev how _ _ _ ht
    have hz : size.toNat = 0 := by omega
    refine pure_iff.mpr ?_
    rw [hz]
    exact ⟨rfl, dev, how, rfl⟩
  | succ turns ih =>
    intro size offset written dev how hofs hle hbuf ht
    unfold Pintos.writeChunks
    by_cases hs : 0 < size
    · have h0 : 0 ≤ offset := by omega
      have hlt : offset < i.data.length := by omega
      obtain ⟨hpos, hcs, hcl, hsec⟩ := chunkSize_bounds i.data.length size offset hs h0 hlt (Int.le_trans hlim (by decide))
      have hblock : offset.toNat / 512 < b.blocks := hb ▸ blocks_of_lt h0 hlt
      have hi' : (mem { w with dev := dev }).inodes a = some i := hi
      have hsect : ∀ p, MapSlot.InUse b.blocks p → (blocksOf { w with dev := dev } i.data).sector p = b.sector p := by
        intro p hp
        subst hb
        exact how.sector_eq hinj hp
      have hin' : ∀ p, MapSlot.InUse b.blocks p → (blocksOf { w with dev := dev } i.data).sector p < dev.size := by
        intro p hp
        rw [hsect p hp, how.size, show b.dev.size = w.dev.size by rw [hb]; rfl]
        exact hin p hp
      rw [if_pos hs]
      refine bind_eq (byteToSector hi' h0 hlt hblock (block_lt_mapLimit hlt hlim) hin') ?_
      rw [hsect (.block _) hblock, inode_bind hi']
      generalize chunkSize i.data.length size offset = chunk at hpos hcs hcl hsec ⊢
      rw [if_neg (by omega)]
      have hx : b.sector (.block (offset.toNat / 512)) < dev.size := hsect (.block _) hblock ▸ hin' _ hblock
      have hlen : chunk ≤ (buffer.drop written).length := by rw [length_drop]; omega
      rw [bufcacheWrite_bind hx (sectorOfs_nonneg h0) hsec hlen]
      -- What is written by now, with this stretch.
      have hwl : (buffer.take written).length = written := length_take_of_le (by omega)
      have hnow : (ofs + (buffer.take written).length) % 512 = (sectorOfs offset).toNat := by
        rw [sectorOfs_eq h0, hwl, hofs]
        omega
      have hfit : (ofs + (buffer.take written).length) % 512 + ((buffer.drop written).take chunk.toNat).length ≤ 512 := by
        have := sectorOfs_nonneg h0
        rw [hnow, length_take_of_le (by omega)]
        omega
      have hnext := how.chunk hinj (by rw [hwl, hofs]; omega) hblock hfit
      rw [← take_add, hnow] at hnext
      refine (ih (size - chunk) (offset + chunk) (written + chunk.toNat) _ hnext (by omega) (by omega) (by omega)
        (by omega)).mono ?_
      rw [show written + chunk.toNat + (size - chunk).toNat = written + size.toNat by omega]
      exact fun r w' h => h
    · have hz : size.toNat = 0 := by omega
      rw [if_neg hs]
      refine pure_iff.mpr ?_
      rw [hz]
      exact ⟨rfl, dev, how, rfl⟩

/-- `inode_write_at` of a range within the file: all of it is written, and the inode is as before. -/
theorem inodeWriteAt_within (hext : i.extending = false) (hdeny : i.denyWriteCnt = 0) {buffer : List UInt8}
    (hs : 0 ≤ size) (h0 : 0 ≤ offset) (hle : offset + size ≤ i.data.length) (hbuf : size.toNat ≤ buffer.length) :
    Runs st (inodeWriteAt alloc a buffer size offset)
      (fun r w' => r = size ∧ ∃ dev', Overwritten b offset.toNat (buffer.take size.toNat) dev' ∧
        w' = { w with dev := dev' }) w := by
  have henter : i.enterWrite = some i.entered := if_neg (by omega)
  have hmap : (194048 : Int) = mapBytes := rfl
  have hgrow : i.entered.needsGrowth size offset = false := by
    unfold Inode.needsGrowth
    rw [toInt32_of_fits (by omega) (by omega)]
    refine decide_eq_false (show ¬(i.data.length < size + offset) from ?_)
    omega
  unfold inodeWriteAt
  rw [inode_bind hi, henter]
  rw [setInode_bind, if_neg (by rw [show i.entered.extending = false from hext]; decide), if_neg (by simp [hgrow])]
  refine (writeChunks (w := { w with mem := w.mem.setInode a (some i.entered) }) (w.mem.setInode_self a _) hlim hb hin hinj buffer
    offset.toNat size.toNat size offset 0 w.dev (hb ▸ .nil _ _) (by omega) hle (by omega) (by omega)).bind ?_
  rintro r w' ⟨rfl, dev', how, rfl⟩
  rw [Nat.zero_add] at how ⊢
  refine (modifyInode_bind (w.mem.setInode_self a _)).mpr ?_
  refine pure_iff.mpr ⟨by omega, dev', how, ?_⟩
  simp [i.leaveWrite_entered, Fs.setInode_setInode, Fs.setInode_eq _ hi]

end

section

variable (hi : w.mem.inodes a = some i) (hext : i.extending = false)
include hi hext

/-- `inode_read_at` of a range whose bytes all have a sector: the bytes, or -1 where the range leaves the file. -/
theorem inodeReadAt_mapped (hdeny : 0 ≤ i.denyWriteCnt) (hs : 0 ≤ size) (h0 : 0 ≤ offset) (hfit : offset + size < 2147483648)
    (hmap : ∀ k : Nat, offset ≤ k → k < offset + size → offset + size ≤ i.data.length → (w.byteAt i.data k).isSome) :
    Runs st (inodeReadAt a size offset)
      (fun r w' => (if offset + size ≤ i.data.length then
        r.1 = size ∧ r.2.map some = (range size.toNat).map (fun j => w.byteAt i.data (offset.toNat + j)) else r = (-1, [])) ∧
        w' = w) w := by
  unfold inodeReadAt
  rw [inode_bind hi, if_neg (by rw [hext]; simp; omega), toInt32_of_fits (by omega) hfit]
  by_cases hle : offset + size ≤ i.data.length
  · rw [if_neg (by omega)]
    simp only [if_pos hle]
    refine (readChunks hi size.toNat size offset [] h0 hle (by omega) (fun k h1 h2 => hmap k h1 h2 hle)).bind ?_
    rintro _ w' ⟨⟨bs, rfl, hbs⟩, rfl⟩
    have hlen := congrArg length hbs
    rw [length_map, length_map, length_range] at hlen
    refine pure_iff.mpr ⟨⟨?_, hbs⟩, rfl⟩
    simp only [hlen, Int.toNat_of_nonneg hs]
  · rw [if_pos (by omega)]
    simp only [if_neg hle]
    exact pure_iff.mpr ⟨rfl, rfl⟩

/-- `inode_read_at` of a range: the bytes, or -1 where the range leaves the file. -/
theorem inodeReadAt {n : Nat} (hdeny : 0 ≤ i.denyWriteCnt) (hn : (w.blocksOf i.data).blocks ≤ n) (hlim : i.data.length ≤ mapBytes)
    (hin : ∀ p, MapSlot.InUse n p → (w.blocksOf i.data).sector p < w.dev.size) (hs : 0 ≤ size) (h0 : 0 ≤ offset)
    (hfit : offset + size < 2147483648) :
    Runs st (inodeReadAt a size offset)
      (fun r w' => r = (if offset + size ≤ i.data.length then (size, (w.blocksOf i.data).fileBytes offset.toNat size.toNat)
        else (-1, [])) ∧ w' = w) w := by
  have hbyte : ∀ k : Nat, (k : Int) < i.data.length → w.byteAt i.data k = some ((w.blocksOf i.data).fileByte k) := fun k hk =>
    byteAt_eq hi hk (Nat.lt_of_lt_of_le (blocks_of_lt (Int.natCast_nonneg k) hk) hn) (block_lt_mapLimit hk hlim) hin
  refine (inodeReadAt_mapped hi hext hdeny hs h0 hfit fun k h1 h2 hle => ?_).mono ?_
  · rw [hbyte k (by omega)]
    rfl
  rintro r w' ⟨hr, rfl⟩
  refine ⟨?_, rfl⟩
  split
  · rename_i hle
    rw [if_pos hle] at hr
    refine Prod.ext hr.1 (map_injective_iff.mpr (Option.some_injective _) (hr.2.trans ?_))
    rw [fileBytes, map_map]
    refine map_congr_left fun j hj => ?_
    have hj := mem_range.mp hj
    exact hbyte _ (by omega)
  · rename_i hle
    rwa [if_neg hle] at hr

end

end Runs

end Pintos
