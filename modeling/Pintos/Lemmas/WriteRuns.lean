import Pintos.Lemmas.GrowRuns

/-!
# Writing to a file, past its end or not

`inode_write_at` first grows the file where the range ends past it, and then copies the bytes. `Written` says all that others
and later calls can see of it: where the blocks are, which sectors were taken, which bytes of the device are as they were,
and what the bytes of the file are now.
-/

namespace Pintos

open Program BlockWorld DataRef World

variable {d : InodeDisk} {a s : Nat} {dev : Block} {n : Int} {st : Bool} {w : World} {E : Nat → Prop} {i : Inode}

/-- A file has the data `d` now. Its map is right, and the sectors in it are all that has been marked. -/
structure MapGrown (w v : World) (d : InodeDisk) : Prop where
  size : v.dev.size = w.dev.size
  map : (v.blocksOf d).MapOk (v.blocksOf d).blocks
  used : ∀ x, v.mem.freeMap x = true ↔ w.mem.freeMap x = true ∨ v.mapSectors d x

theorem MapGrown.of_stable {v u : World} (h : MapGrown w v d) (hst : Stable (v.blocksOf d).blocks (v.blocksOf d) (u.blocksOf d))
    (hsize : u.dev.size = v.dev.size) (hbits : u.mem.freeMap = v.mem.freeMap) : MapGrown w u d where
  size := hsize.trans h.size
  map := h.map.of_stable hst hsize fun p hp => (congrFun hbits _).trans (h.map.marked p hp)
  used x := by rw [hbits, h.used, mapSectors_congr hst]

/-- The bytes `bs` have been written at `ofs` to the file with the data `d`, which has the data `d'` now. -/
structure Written (w v : World) (E : Nat → Prop) (d d' : InodeDisk) (ofs : Nat) (bs : List UInt8) : Prop
    extends MapGrown w v d' where
  old : ∀ p, MapSlot.InUse (w.blocksOf d).blocks p → (v.blocksOf d').sector p = (w.blocksOf d).sector p
  more : (w.blocksOf d).blocks ≤ (v.blocksOf d').blocks
  fresh : ∀ p, MapSlot.InUse (v.blocksOf d').blocks p → ¬MapSlot.InUse (w.blocksOf d).blocks p →
    w.mem.freeMap ((v.blocksOf d').sector p) = false
  frame : ∀ x, w.mem.freeMap x = true → ¬E x → (∀ p, MapSlot.InUse (w.blocksOf d).blocks p → (w.blocksOf d).sector p ≠ x) →
    v.dev.disk x = w.dev.disk x
  bytes : ∀ k, ofs ≤ k → k < ofs + bs.length → (v.blocksOf d').fileByte k = bs.getD (k - ofs) 0
  kept : ∀ k : Nat, (k : Int) < d.length → ¬(ofs ≤ k ∧ k < ofs + bs.length) →
    (v.blocksOf d').fileByte k = (w.blocksOf d).fileByte k

namespace Written

variable {v : World} {d' : InodeDisk} {ofs n : Nat} {bs : List UInt8}

theorem refl (h : FileOk w s d) (E : Nat → Prop) (ofs : Nat) : Written w w E d d ofs [] where
  size := rfl
  old _ _ := rfl
  more := Nat.le_refl _
  map := h.map
  used x := by
    refine ⟨.inl, ?_⟩
    rintro (hx | ⟨p, hp, rfl⟩)
    · exact hx
    · exact h.map.marked p hp
  fresh _ hp hn := absurd hp hn
  frame _ _ _ _ := rfl
  bytes k h1 h2 := by simp at h2; omega
  kept _ _ _ := rfl

theorem congr {w1 v1 : World} (h : Written w v E d d' ofs bs) (hw : w1.dev = w.dev) (hwf : w1.mem.freeMap = w.mem.freeMap)
    (hv : v1.dev = v.dev) (hvf : v1.mem.freeMap = v.mem.freeMap) : Written w1 v1 E d d' ofs bs := by
  have hb : w1.blocksOf d = w.blocksOf d := by rw [blocksOf, blocksOf, hw, hwf]
  have hb' : v1.blocksOf d' = v.blocksOf d' := by rw [blocksOf, blocksOf, hv, hvf]
  refine ⟨⟨?_, ?_, ?_⟩, ?_, ?_, ?_, ?_, ?_, ?_⟩
  · rw [hv, hw]; exact h.size
  · rw [hb']; exact h.map
  · rw [hwf, hvf]; unfold mapSectors; rw [hb']; exact h.used
  · rw [hb, hb']; exact h.old
  · rw [hb, hb']; exact h.more
  · rw [hb, hb', hwf]; exact h.fresh
  · rw [hb, hw, hv, hwf]; exact h.frame
  · rw [hb']; exact h.bytes
  · rw [hb, hb']; exact h.kept

/-- A sector of the new map that was in use is one of the old map. -/
theorem mapped_old (h : Written w v E d d' ofs bs) {p : MapSlot} (hp : p.InUse (v.blocksOf d').blocks)
    (hx : w.mem.freeMap ((v.blocksOf d').sector p) = true) : p.InUse (w.blocksOf d).blocks := by
  by_contra hn
  rw [h.fresh p hp hn] at hx
  cases hx

/-- The bytes are copied into the file as it is after it has grown. -/
theorem overwritten (h : Written w v E d d' n []) (how : Overwritten (v.blocksOf d') ofs bs dev)
    (hle : (ofs + bs.length : Nat) ≤ d'.length) : Written w { v with dev := dev } E d d' ofs bs := by
  have hsec : ∀ p, MapSlot.InUse (v.blocksOf d').blocks p →
      (blocksOf { v with dev := dev } d').sector p = (v.blocksOf d').sector p := fun p hp => how.sector_eq h.map.inj hp
  have hbyte : ∀ k, k / 512 < (v.blocksOf d').blocks → (blocksOf { v with dev := dev } d').fileByte k =
      if ofs ≤ k ∧ k < ofs + bs.length then bs.getD (k - ofs) 0 else (v.blocksOf d').fileByte k := by
    intro k hk
    rw [fileByte, hsec (.block (k / 512)) hk]
    exact how.bytes k hk
  exact
    { h.toMapGrown.of_stable hsec how.size rfl, h with
      old := fun p hp => (hsec p (hp.mono h.more)).trans (h.old p hp)
      fresh := fun p hp hn => hsec p hp ▸ h.fresh p hp hn
      frame := fun x hx hE hmap => by
        refine (how.frame x ?_).trans (h.frame x hx hE hmap)
        rintro ⟨b, hb, rfl⟩
        have hold := h.mapped_old (p := .block b) hb hx
        exact hmap _ hold (h.old _ hold).symm
      bytes := fun k h1 h2 => by
        rw [hbyte k (block_inUse v (by omega)), if_pos ⟨h1, h2⟩]
      kept := fun k hk hout => by
        rw [hbyte k (Nat.lt_of_lt_of_le (block_inUse w hk) h.more), if_neg hout]
        exact h.kept k hk (by simp only [List.length_nil]; omega) }

end Written

/-! ## Growth -/

/-- A file that can grow: its map is right, and the free map, in the sectors `E`, is in order. -/
structure Growable (w : World) (E : Nat → Prop) (s : Nat) (d : InodeDisk) : Prop extends FreeMapWhole w E where
  file : FileOk w s d
  apart : ∀ p, MapSlot.InUse (w.blocksOf d).blocks p → ¬E ((w.blocksOf d).sector p)

/-- An open file that can be written to. -/
structure Writable (w : World) (E : Nat → Prop) (a : Nat) (i : Inode) : Prop extends Growable w E i.sector i.data where
  cell : w.mem.inodes a = some i
  notFreeMap : w.NotFreeMap a

/-- The length is not part of the map. -/
theorem sector_setLength (w : World) (d : InodeDisk) (n : Int) (p : MapSlot) :
    (w.blocksOf (d.setLength n)).sector p = (w.blocksOf d).sector p := by
  have hs : (d.setLength n).singlyIndirectPtr = d.singlyIndirectPtr := InodeDisk.singlyIndirectPtr_setLength d n
  have hd : (d.setLength n).doublyIndirectPtr = d.doublyIndirectPtr := InodeDisk.doublyIndirectPtr_setLength d n
  simp only [blocksOf, sector, singlyBlock, leafPtr, leafBlock, hs, hd]
  cases p <;> simp [mapSector, hs, hd]

namespace Growable

variable {v : World} {d0 : InodeDisk}

theorem growStart (h : Growable w E s d0) : GrowStart (w.blocksOf d0) (w.blocksOf d0).blocks E :=
  { h with
    mapOk := h.file.map
    blocks := (bytesToSectors_eq h.file.length.1 (Int.le_trans h.file.length.2 (by decide))).symm
    nonneg := h.file.length.1
    bounded := Int.le_trans h.file.length.2 (by decide)
    otherUsed := h.marked
    otherApart p hp _ := h.apart p hp }

/-- What the growth of the map gives, once the new length is in place. -/
theorem written (h : Growable w E s d0) (hn0 : 0 ≤ n) (hn : n ≤ mapBytes) {v' : World}
    (hv : v'.dev = v.dev ∧ v'.mem.freeMap = v.mem.freeMap) (hmore : d0.length ≤ n)
    (hg : Grow (w.blocksOf d0) (w.blocksOf d0).blocks E (MapSlot.InUse (bytesToSectors n)) (v.blocksOf d).sector (v.blocksOf d)) :
    Written w v' E d0 (d.setLength n) n.toNat [] := by
  have hmap : mapBytes = 194048 := rfl
  have hlen : (d.setLength n).length = n := InodeDisk.length_setLength _ (by omega) (by omega)
  have hblocks : bytesToSectors n = (v'.blocksOf (d.setLength n)).blocks := by
    rw [bytesToSectors_eq hn0 (by omega)]
    show _ = ((d.setLength n).length.toNat + 511) / 512
    rw [hlen]
  have hsec : ∀ p, (v'.blocksOf (d.setLength n)).sector p = (v.blocksOf d).sector p := by
    intro p
    rw [sector_setLength]
    unfold blocksOf
    rw [hv.1]
    rfl
  rw [hblocks] at hg
  have hle : (w.blocksOf d0).blocks ≤ (v'.blocksOf (d.setLength n)).blocks := by
    show (d0.length.toNat + 511) / 512 ≤ ((d.setLength n).length.toNat + 511) / 512
    omega
  have hframe : ∀ x, w.mem.freeMap x = true → ¬E x →
      (∀ p, MapSlot.InUse (w.blocksOf d0).blocks p → p.isIndex = true → (w.blocksOf d0).sector p ≠ x) →
      v'.dev.disk x = w.dev.disk x := by
    intro x h1 h2 h3
    rw [hv.1]
    exact hg.frame x h1 h2 h3
  have hused : ∀ x, v'.mem.freeMap x = true ↔ w.mem.freeMap x = true ∨ v'.mapSectors (d.setLength n) x := by
    intro x
    rw [hv.2]
    refine (hg.used x).trans (or_congr_right (exists_congr fun p => ?_))
    rw [hsec p]
  refine
    { size := (congrArg Block.size hv.1).trans hg.size
      map := ⟨fun p hp => ?_, fun p hp => (hused _).mpr (.inr ⟨p, hp, rfl⟩),
        fun p q hp hq he => hg.inj p q hp hq (by rw [← hsec p, ← hsec q, he])⟩
      used := hused
      old := fun p hp => (hsec p).trans (hg.stable p hp)
      more := hle
      fresh := fun p hp hn => by
        rw [hsec p]
        exact hg.fresh p hp hn
      frame := fun x h1 h2 h3 => hframe x h1 h2 (fun p hp _ => h3 p hp)
      bytes := fun k h1 h2 => by simp only [List.length_nil] at h2; omega
      kept := fun k hk _ => ?_ }
  · rw [hsec p]
    exact Nat.lt_of_lt_of_eq (hg.inside p hp) (congrArg Block.size hv.1).symm
  have hblock := block_inUse w hk
  rw [fileByte, fileByte, hsec, hg.stable _ hblock]
  refine congrArg (fun c : Contents => c.byte (k % 512))
    (hframe _ (h.file.map.marked _ hblock) (h.apart _ hblock) (fun p hp hi he => ?_))
  rw [h.file.map.inj p _ hp hblock he] at hi
  cases hi

end Growable

/-- Where `allocate_file` takes the inode's lock again, or returns because there is no sector free: the inode has the data
`d`. -/
structure GrowthEnd (st : Bool) (w v : World) (E : Nat → Prop) (a : Nat) (i : Inode) (n : Int) (ok : Bool)
    (d : InodeDisk) : Prop where
  mem : v.mem = { w.mem.setInode a (some { i.beginGrowth with data := d }) with freeMap := v.mem.freeMap }
  state : FreeMapState v E
  blocks : if ok then
      Grow (w.blocksOf i.data) (w.blocksOf i.data).blocks E (MapSlot.InUse (bytesToSectors n))
        (v.blocksOf d).sector (v.blocksOf d)
    else GrowFailed (NoneFree st w.mem.bitCnt) (w.blocksOf i.data) (w.blocksOf i.data).blocks E (v.blocksOf d)

namespace Runs

section

variable (h : Writable w E a i) (hmore : i.data.length ≤ n) (hn : n ≤ mapBytes)
include h hmore hn

/-- `allocate_file` up to where it takes the inode's lock again: the map has grown, or there is no sector free. -/
theorem growBlocks :
    Runs st (FsM.modifyInode a Inode.beginGrowth >>= fun _ => onBlocks Pintos.freeMapAllocate (.inode a) (allocateBlocks n))
      (fun ok v => ∃ d, GrowthEnd st w v E a i n ok d) w := by
  have hmap : mapBytes = 194048 := rfl
  have hn0 : 0 ≤ n := by have := h.file.length.1; omega
  rw [modifyInode_bind h.cell]
  -- the world with the mark set
  have hcell : (mem { w with mem := w.mem.setInode a (some i.beginGrowth) }).inodes a = some i.beginGrowth :=
    Fs.setInode_self _ _ _
  have hvalid : (inode a).Valid { w with mem := w.mem.setInode a (some i.beginGrowth) } := by
    refine ⟨by rw [hcell]; rfl, h.notFreeMap⟩
  have hstate : FreeMapState { w with mem := w.mem.setInode a (some i.beginGrowth) } E :=
    h.state.setInode h.notFreeMap _
  have hlook : (inode a).look (w.mem.setInode a (some i.beginGrowth)) = i.data := by
    rw [look, Fs.setInode_self]
    rfl
  have hsectors : bytesToSectors n = (n.toNat + 511) / 512 := bytesToSectors_eq hn0 (by omega)
  have hsafe : GrowSafe (NoneFree st w.mem.bitCnt) E _ (allocateBlocks n) _ _ := Grow.safe_allocateBlocks h.growStart
    (hsectors ▸ blocks_mono hmore) (hsectors ▸ (by show _ ≤ 379; omega))
  refine (onBlocks_safe (.inode a) hvalid h.whole hstate (by rw [hlook]; exact hsafe)).mono ?_
  rintro ok v ⟨hgrowing, hpost⟩
  obtain ⟨d, hmem⟩ := hgrowing.mem
  have hv : v.mem.inodes a = some { i.beginGrowth with data := d } := by
    rw [hmem]
    simp only [store, Fs.setInode_self]
    rfl
  have hd : (inode a).look v.mem = d := by
    rw [look, hv]
    rfl
  rw [hd] at hpost
  refine ⟨d, ?_, hgrowing.state, hpost⟩
  rw [hmem]
  simp only [store, Fs.setInode_self]
  exact Fs.setInode_setInode { w.mem with freeMap := v.mem.freeMap } a _ _

/-- `allocate_file`: the file is longer, and its old bytes are where they were, or there is no sector free. -/
theorem allocateFile :
    Runs st (Pintos.allocateFile Pintos.freeMapAllocate a n) (fun _ v =>
      (∃ d, d.length = n ∧ Written w v E i.data d n.toNat [] ∧
        v.mem = { w.mem.setInode a (some { i with data := d, extending := false }) with freeMap := v.mem.freeMap } ∧
        FreeMapState v E) ∨
      ∃ d, GrowthEnd st w v E a i n false d) w := by
  have hmap : mapBytes = 194048 := rfl
  have hn0 : 0 ≤ n := by have := h.file.length.1; omega
  unfold Pintos.allocateFile
  rw [← bind_assoc]
  refine (growBlocks h hmore hn).bind ?_
  rintro ok v ⟨d, hend⟩
  cases ok with
  | false => exact pure_iff.mpr (.inr ⟨d, hend⟩)
  | true =>
    have hcell : v.mem.inodes a = some { i.beginGrowth with data := d } := by
      rw [hend.mem]
      exact Fs.setInode_self _ _ _
    refine (modifyInode_iff hcell).mpr <| .inl ⟨d.setLength n, InodeDisk.length_setLength _ (by omega) (by omega), ?_, ?_, ?_⟩
    · exact h.written hn0 hn ⟨rfl, rfl⟩ hmore hend.blocks
    · rw [hend.mem]
      exact Fs.setInode_setInode { w.mem with freeMap := v.mem.freeMap } a _ _
    · refine hend.state.setInode (fun f file hf hfile => ?_) _
      rw [hend.mem] at hf hfile
      exact h.notFreeMap f file hf hfile

end

end Runs

/-- What a write leaves: the file as it is now, and nothing else changed in memory but bits of the free map. -/
structure WriteDone (w v : World) (E : Nat → Prop) (a : Nat) (i : Inode) (d : InodeDisk) (ofs : Nat)
    (bs : List UInt8) : Prop where
  written : Written w v E i.data d ofs bs
  length : d.length = max i.data.length (ofs + bs.length)
  mem : v.mem = { w.mem.setInode a (some { i with data := d }) with freeMap := v.mem.freeMap }
  state : FreeMapState v E

theorem Writable.recell (h : Writable w E a i) (j : Inode) (hs : j.sector = i.sector)
    (hd : j.data = i.data) : Writable { w with mem := w.mem.setInode a (some j) } E a j :=
  { h with
    cell := Fs.setInode_self _ _ _
    file := by
      rw [hs, hd]
      exact ⟨h.file.length, h.file.map, h.file.own, h.file.notMapped⟩
    state := h.state.setInode h.notFreeMap _
    apart := by
      rw [hd]
      exact h.apart }

/-- The bytes are copied after the file has grown, if it had to. -/
theorem Writable.copied {v : World} (h : Writable w E a i) {n ofs : Nat}
    {bs : List UInt8} (hw : Written w v E i.data d n []) (hs : FreeMapState v E)
    (how : Overwritten (v.blocksOf d) ofs bs dev) (hle : (ofs + bs.length : Nat) ≤ d.length) :
    Written w { v with dev := dev } E i.data d ofs bs ∧ FreeMapState { v with dev := dev } E := by
  refine ⟨hw.overwritten how hle, hs.frame rfl rfl rfl (fun _ _ _ hfile => ⟨hfile, rfl⟩) how.size (fun x hx => how.frame x ?_)⟩
  rintro ⟨b, hb, rfl⟩
  have hold := hw.mapped_old (p := .block b) hb (h.marked _ hx)
  exact h.apart _ hold (hw.old _ hold ▸ hx)

/-- The length of a file that had to grow. -/
theorem grown_length {len size offset : Int} (hs : 0 < size) (h0 : 0 ≤ offset) (h : ¬offset + size ≤ len) :
    size + offset = max len (offset.toNat + size.toNat) := by omega

namespace Runs

/-- `inode_write_at` of a range that ends where a block map can still lead: all of it is written, or the file could not grow,
and then it goes on with the inode as `allocate_file` has left it. -/
theorem inodeWriteAt (h : Writable w E a i) (hsettled : i.extending = false ∧ i.denyWriteCnt = 0) {buffer : List UInt8}
    {size offset : Int} (hs : 0 < size) (h0 : 0 ≤ offset) (hle : offset + size ≤ mapBytes) (hbuf : size.toNat ≤ buffer.length)
    {Q : Int → World → Prop} (hdone : ∀ v d, WriteDone w v E a i d offset.toNat (buffer.take size.toNat) → Q size v)
    (hfail : ¬offset + size ≤ i.data.length → ∀ v d,
      GrowthEnd st { w with mem := w.mem.setInode a (some i.entered) } v E a i.entered (size + offset) false d →
      Runs st (do
        let written ← Pintos.writeChunks a buffer size.toNat size offset 0
        FsM.modifyInode a Inode.leaveWrite
        pure (written : Int)) Q v) :
    Runs st (Pintos.inodeWriteAt Pintos.freeMapAllocate a buffer size offset) Q w := by
  have hmap : mapBytes = 194048 := rfl
  have hlen : (buffer.take size.toNat).length = size.toNat := List.length_take_of_le hbuf
  have hfile := h.file
  by_cases hin : offset + size ≤ i.data.length
  · refine (inodeWriteAt_within h.cell hfile.length.2 rfl hfile.map.inside hfile.map.inj hsettled.1 hsettled.2 (by omega)
      h0 hin hbuf).mono ?_
    rintro r v ⟨rfl, dev, how, rfl⟩
    obtain ⟨hw, hst⟩ := h.copied (.refl hfile E 0) h.state how (by omega)
    refine hdone _ i.data ⟨hw, ?_, ?_, hst⟩
    · omega
    · rw [Fs.setInode_eq _ h.cell]
  · have henter : i.enterWrite = some i.entered := if_neg (by have := hsettled.2; omega)
    have hfit : toInt32 (size + offset) = size + offset := toInt32_of_fits (by omega) (by omega)
    have hgrow : i.entered.needsGrowth size offset = true := by
      unfold Inode.needsGrowth
      rw [hfit]
      exact decide_eq_true (show i.data.length < size + offset by omega)
    unfold Pintos.inodeWriteAt
    rw [inode_bind h.cell, henter]
    rw [setInode_bind, if_neg (by rw [show i.entered.extending = false from hsettled.1]; decide), if_pos hgrow, hfit]
    refine (allocateFile (h.recell i.entered rfl rfl) (by show i.data.length ≤ _; omega) (by omega)).bind ?_
    rintro _ v (⟨d, hdlen, hw, hmem, hstate⟩ | ⟨d, hend⟩)
    case inr => exact hfail hin v d hend
    have hcell : v.mem.inodes a = some { i.entered with data := d, extending := false } := by
      rw [hmem]
      exact Fs.setInode_self _ _ _
    refine (writeChunks hcell (by show d.length ≤ _; omega) rfl hw.map.inside hw.map.inj buffer offset.toNat
      size.toNat size offset 0 v.dev (.nil _ _) (by omega) (by show _ ≤ d.length; omega) (by omega) (by omega)).bind ?_
    rintro r _ ⟨rfl, dev, how, rfl⟩
    rw [Nat.zero_add] at how ⊢
    obtain ⟨hw', hst⟩ := (h.recell i.entered rfl rfl).copied hw hstate how (by rw [hlen]; omega)
    rw [modifyInode_bind (by exact hcell)]
    rw [pure_iff, show ((size.toNat : Nat) : Int) = size by omega]
    refine hdone _ d ⟨hw'.congr rfl rfl rfl rfl, ?_, ?_, ?_⟩
    · rw [hdlen, hlen]
      exact grown_length hs h0 hin
    · -- the writer has counted itself in and out again
      have hout : Inode.leaveWrite { i.entered with data := d, extending := false } = { i with data := d } := by
        simp [Inode.leaveWrite, Inode.entered, hsettled.1]
      rw [hout, hmem]
      refine (Fs.setInode_setInode { w.mem.setInode a (some i.entered) with freeMap := v.mem.freeMap } a _ _).trans ?_
      exact Fs.setInode_setInode { w.mem with freeMap := v.mem.freeMap } a _ _
    · refine hst.setInode (fun f file hf hfile => ?_) _
      have hf' : v.mem.freeMapFile = some f := hf
      have hfile' : v.mem.files f = some file := hfile
      rw [hmem] at hf' hfile'
      exact h.notFreeMap f file hf' hfile'

end Runs

/-! ## Making an inode -/

/-- The `struct inode_disk` that `inode_create` starts from. -/
def blankInode : InodeDisk := InodeDisk.setMagic (Contents.fill 0) inodeMagic

theorem blankInode_length : blankInode.length = 0 := by decide +kernel

/-- It has no blocks. -/
theorem blankInode_notInUse (w : World) (p : MapSlot) : ¬MapSlot.InUse (w.blocksOf blankInode).blocks p := by
  have hblocks : (w.blocksOf blankInode).blocks = 0 := by
    show (blankInode.length.toNat + 511) / 512 = 0
    rw [blankInode_length]
    rfl
  rw [hblocks]
  cases p <;> simp [MapSlot.InUse]

/-- A blank inode can grow, at a sector in use. -/
theorem FreeMapWhole.blank (h : FreeMapWhole w E) (hs : s < w.dev.size ∧ w.mem.freeMap s = true) : Growable w E s blankInode := by
  have hnone := blankInode_notInUse w
  exact ⟨h, ⟨by rw [blankInode_length]; exact ⟨Int.le_refl 0, by decide⟩,
    ⟨fun p hp => absurd hp (hnone p), fun p hp => absurd hp (hnone p),
    fun p _ hp => absurd hp (hnone p)⟩, hs, fun p hp => absurd hp (hnone p)⟩, fun p hp => absurd hp (hnone p)⟩

/-- An inode with the data `d` has been made at the sector `s`. The data sectors hold what they held. -/
structure Created (w v : World) (E : Nat → Prop) (s : Nat) (d : InodeDisk) : Prop extends MapGrown w v d where
  fresh : ∀ p, MapSlot.InUse (v.blocksOf d).blocks p → w.mem.freeMap ((v.blocksOf d).sector p) = false
  only : ∀ x, ¬E x → x ≠ s → (∀ p, MapSlot.InUse (v.blocksOf d).blocks p → p.isIndex = true → (v.blocksOf d).sector p ≠ x) →
    v.dev.disk x = w.dev.disk x
  own : v.dev.disk s = d
  mem : v.mem = { w.mem with nextAddr := w.mem.nextAddr + 1, freeMap := v.mem.freeMap, diskInode := d }
  state : FreeMapState v E

theorem Created.ne_marked {v : World} (hc : Created w v E s d) {p : MapSlot} (hp : p.InUse (v.blocksOf d).blocks) {x : Nat}
    (hx : w.mem.freeMap x = true) : (v.blocksOf d).sector p ≠ x := by
  rintro rfl
  cases (hc.fresh p hp).symm.trans hx

theorem Created.fileOk {v : World} (hc : Created w v E s d) (hlen : 0 ≤ d.length ∧ d.length ≤ mapBytes) (hs : s < w.dev.size)
    (hmark : w.mem.freeMap s = true) : FileOk v s d :=
  ⟨hlen, hc.map, ⟨hc.size ▸ hs, (hc.used s).mpr (.inl hmark)⟩, fun _ hp => hc.ne_marked hp hmark⟩

/-- The map has grown, and the inode is put on disk. -/
theorem Created.of_written {v : World} {m : Nat} {e : InodeDisk} (hw : Written w v E blankInode d m [])
    (hmark : w.mem.freeMap s = true) (hE : ¬E s)
    (honly : ∀ x, ¬E x → (∀ p, MapSlot.InUse (v.blocksOf d).blocks p → p.isIndex = true → (v.blocksOf d).sector p ≠ x) →
      v.dev.disk x = w.dev.disk x)
    (hmem : v.mem = { w.mem with nextAddr := w.mem.nextAddr + 1, freeMap := v.mem.freeMap, diskInode := e })
    (hstate : FreeMapState v E) :
    Created w (put { v with mem := { v.mem with diskInode := d } } s d) E s d := by
  have hfresh : ∀ p, MapSlot.InUse (v.blocksOf d).blocks p → w.mem.freeMap ((v.blocksOf d).sector p) = false :=
    fun p hp => hw.fresh p hp (blankInode_notInUse w p)
  have hne : ∀ p, MapSlot.InUse (v.blocksOf d).blocks p → (v.blocksOf d).sector p ≠ s := by
    intro p hp he
    have hf := hfresh p hp
    rw [he, hmark] at hf
    cases hf
  have hst : Stable (v.blocksOf d).blocks (v.blocksOf d)
      ((put { v with mem := { v.mem with diskInode := d } } s d).blocksOf d) :=
    stable_of_index rfl (fun p hp _ => if_neg (hne p hp))
  exact
    { hw.toMapGrown.of_stable hst rfl rfl with
      fresh := fun p hp => hst p hp ▸ hfresh p hp
      only := fun x hx hxs hidx => (if_neg hxs).trans (honly x hx (fun p hp hi => hst p hp ▸ hidx p hp hi))
      own := if_pos rfl
      mem := by
        rw [hmem]
        rfl
      state := hstate.frame rfl rfl rfl (fun _ _ _ hf => ⟨hf, rfl⟩) rfl (fun x hx => if_neg (by rintro rfl; exact hE hx)) }

theorem Runs.inodeCreate (hfm : FreeMapWhole w E) (hs : s < w.dev.size ∧ w.mem.freeMap s = true ∧ ¬E s) (h0 : 0 ≤ n)
    (hn : n ≤ mapBytes) : Runs true (inodeCreate s n) (fun r v => r = true ∧ ∃ d, d.length = n ∧ Created w v E s d) w := by
  have hmap : mapBytes = 194048 := rfl
  unfold Pintos.inodeCreate
  rw [assert_bind (decide_eq_true h0)]
  refine malloc_bind (.inl rfl) (fun heap _ => ?_)
  rw [modify_bind]
  have hstart : Growable { w with mem := { w.mem with nextAddr := w.mem.nextAddr + 1, diskInode := blankInode },
                                  heap := heap } E s blankInode :=
    FreeMapWhole.blank { hfm with state := hfm.state.frame rfl rfl rfl (fun _ _ _ hf => ⟨hf, rfl⟩) rfl (fun _ _ => rfl) }
      ⟨hs.1, hs.2.1⟩
  have hsectors : bytesToSectors n = (n.toNat + 511) / 512 := bytesToSectors_eq h0 (by omega)
  have hsafe : GrowSafe (NoneFree true w.mem.bitCnt) E _ (allocateBlocks n) _ _ := Grow.safe_allocateBlocks hstart.growStart
    (hsectors ▸ blocks_mono (show blankInode.length ≤ n by rw [blankInode_length]; exact h0))
    (hsectors ▸ (by show _ ≤ 379; omega))
  refine (onBlocks_safe .fresh trivial hstart.whole hstart.state hsafe).bind ?_
  rintro ok v ⟨hgrowing, hpost⟩
  cases ok with
  | false => cases hpost.1.1
  | true =>
    obtain ⟨e, hmem⟩ := hgrowing.mem
    obtain ⟨d, hd⟩ : ∃ d, d = v.mem.diskInode.setLength n := ⟨_, rfl⟩
    have hlen : d.length = n := by rw [hd, InodeDisk.length_setLength _ (by omega) (by omega)]
    have hw : Written w v E blankInode d n.toNat [] := hd ▸
      (hstart.written h0 hn ⟨rfl, rfl⟩ (by rw [blankInode_length]; exact h0) hpost).congr rfl rfl rfl rfl
    refine (dataRef_modify .fresh nofun _).bind ?_
    rintro _ _ rfl
    refine bind_eq (dataRef_get .fresh nofun) ?_
    have hsize : s < v.dev.size := hw.size ▸ hs.1
    rw [writeSector_bind (by exact hsize)]
    refine pure_iff.mpr ⟨rfl, d, hlen, ?_⟩
    have hv : v.mem.diskInode.setLength n = d := hd.symm
    simp only [look, store, hv]
    refine .of_written hw hs.2.1 hs.2.2 (fun x hx hidx => hpost.only x hx (fun p hp hi => ?_)) hmem hgrowing.state
    have hblocks : (v.blocksOf d).blocks = bytesToSectors n := by
      rw [hsectors, ← hlen]
      rfl
    rw [← hblocks] at hp
    have := hidx p hp hi
    rwa [hd, sector_setLength] at this

end Pintos
