import Pintos.Lemmas.InodeIo

/-!
# The free map and its file

Every change of the free map is followed by a write of the whole map to its file. `FreeMapOk` says that this write works and
that the file holds the map; `FreeMapState E` that the file is in the sectors `E`, or not yet there. `free_map_allocate` and
`free_map_release` change one bit and the bytes of the sectors `E`.
-/

namespace Pintos

open Program

variable {E : Nat → Prop} {a n x : Nat} {i : Inode} {bits : Nat → Bool} {st : Bool} {w : World}

/-- The file of the free map is open as the inode `i` at address `a`, it is as long as the map, and its blocks are in
place. -/
structure FreeMapReady (w : World) (a : Nat) (i : Inode) : Prop where
  file : ∃ f file, w.mem.freeMapFile = some f ∧ w.mem.files f = some file ∧ file.inode = a
  cell : w.mem.inodes a = some i
  settled : i.extending = false ∧ i.denyWriteCnt = 0
  length : i.data.length = byteCnt w.mem.bitCnt
  bounded : i.data.length ≤ mapBytes
  inside : ∀ p, MapSlot.InUse (w.blocksOf i.data).blocks p → (w.blocksOf i.data).sector p < w.dev.size
  inj : ∀ p q, MapSlot.InUse (w.blocksOf i.data).blocks p → MapSlot.InUse (w.blocksOf i.data).blocks q →
    (w.blocksOf i.data).sector p = (w.blocksOf i.data).sector q → p = q

/-- The file of the free map is ready, and it holds the map. -/
structure FreeMapOk (w : World) (a : Nat) (i : Inode) : Prop extends FreeMapReady w a i where
  kept : ∀ j < byteCnt w.mem.bitCnt, (w.blocksOf i.data).fileByte j = bitmapByte w.mem.freeMap j

/-- The file of the free map is in the sectors `E`, or there is none yet. -/
inductive FreeMapState (w : World) (E : Nat → Prop) : Prop where
  | absent (h : w.mem.freeMapFile = none) (hE : ∀ x, ¬E x)
  | present (a : Nat) (i : Inode) (h : FreeMapOk w a i)
    (hE : ∀ x, E x ↔ w.mapSectors i.data x)

/-- The free map is in order, in the sectors `E`, which it marks, and has a bit for every sector of the device. -/
structure FreeMapWhole (w : World) (E : Nat → Prop) : Prop where
  state : FreeMapState w E
  marked : ∀ x, E x → w.mem.freeMap x = true
  whole : w.mem.bitCnt = w.dev.size
  numbered : w.dev.size ≤ invalidSector

/-- Two devices differ in the bytes of the sectors `E` at most. -/
structure DevWithin (E : Nat → Prop) (dev dev' : Block) : Prop where
  size : dev'.size = dev.size
  same : ∀ x, ¬E x → dev'.disk x = dev.disk x

theorem DevWithin.refl (E : Nat → Prop) (dev : Block) : DevWithin E dev dev := ⟨rfl, fun _ _ => rfl⟩

theorem DevWithin.trans {a b c : Block} (h1 : DevWithin E a b) (h2 : DevWithin E b c) : DevWithin E a c :=
  ⟨h2.size.trans h1.size, fun x hx => (h2.same x hx).trans (h1.same x hx)⟩

theorem bitmapBytes_length (n : Nat) (bits : Nat → Bool) : (bitmapBytes n bits).length = byteCnt n := by
  simp [bitmapBytes]

namespace FreeMapReady

/-- What is not looked at may change: the bits, and the bytes of sectors that are no index blocks of the file. -/
theorem overwritten (h : FreeMapReady w a i) {bs : List UInt8} {dev : Block} (how : Overwritten (w.blocksOf i.data) 0 bs dev) :
    FreeMapReady { w with dev := dev } a i :=
  { h with
    inside p hp := by
      have := how.sector_eq h.inj hp
      show (BlockWorld.sector { w.blocksOf i.data with dev := dev } p) < dev.size
      rw [this, how.size]
      exact h.inside p hp
    inj p q hp hq he := by
      have h1 := how.sector_eq h.inj hp
      have h2 := how.sector_eq h.inj hq
      exact h.inj p q hp hq (by rw [← h1, ← h2]; exact he) }

theorem setBit (h : FreeMapReady w a i) (x : Nat) (v : Bool) : FreeMapReady { w with mem := w.mem.setBit x v } a i :=
  { h with }

end FreeMapReady

namespace Runs

/-- `bitmap_write` puts the map into its file. -/
theorem bitmapWrite (h : FreeMapReady w a i) :
    Runs st bitmapWrite (fun r w' => r = true ∧ ∃ dev, w' = { w with dev := dev } ∧
      Overwritten (w.blocksOf i.data) 0 (bitmapBytes w.mem.bitCnt w.mem.freeMap) dev ∧
      FreeMapOk { w with dev := dev } a i) w := by
  obtain ⟨f, file, hf, hfile, rfl⟩ := h.file
  have hmap : mapBytes = 194048 := rfl
  have hlen := h.length
  have hbound := h.bounded
  have hfit : toInt32 (byteCnt w.mem.bitCnt) = byteCnt w.mem.bitCnt := toInt32_of_fits (by omega) (by omega)
  unfold bitmapWrite
  rw [get_bind, hf]
  rw [file_bind hfile, hfit]
  refine (inodeWriteAt_within h.cell h.bounded rfl h.inside h.inj h.settled.1 h.settled.2 (by omega) (by omega) (by omega)
    (by rw [bitmapBytes_length]; omega)).bind ?_
  rintro r w' ⟨rfl, dev, how, rfl⟩
  rw [List.take_of_length_le (by rw [bitmapBytes_length]; omega)] at how
  refine pure_iff.mpr ⟨beq_self_eq_true _, dev, rfl, how, ⟨h.overwritten how, fun j (hj : j < byteCnt w.mem.bitCnt) => ?_⟩⟩
  have hblock := block_inUse w (show (j : Int) < i.data.length by omega)
  have hbyte := how.bytes j hblock
  have hsec := how.sector_eq h.inj (p := .block (j / 512)) hblock
  show (dev.disk (BlockWorld.sector { w.blocksOf i.data with dev := dev } (.block (j / 512)))).byte (j % 512) = _
  rw [hsec]
  refine hbyte.trans ?_
  simp [bitmapBytes, List.getD_eq_getElem?_getD, hj]

/-- The part of `bitmap_write` that others see: only sectors of the file change. -/
theorem bitmapWrite_state (h : FreeMapReady w a i) (hE : ∀ x, E x ↔ w.mapSectors i.data x) :
    Runs st Pintos.bitmapWrite (fun r w' => r = true ∧ ∃ dev, w' = { w with dev := dev } ∧ DevWithin E w.dev dev ∧
      FreeMapState { w with dev := dev } E) w := by
  refine (bitmapWrite h).mono ?_
  rintro r w' ⟨rfl, dev, rfl, how, hok⟩
  refine ⟨rfl, dev, rfl, ⟨how.size, fun x hx => how.frame x ?_⟩, .present a i hok fun x => (hE x).trans ?_⟩
  · rintro ⟨k, hk, he⟩
    exact hx ((hE x).mpr ⟨.block k, hk, he⟩)
  constructor
  · rintro ⟨p, hp, he⟩
    exact ⟨p, hp, (how.sector_eq h.inj hp).trans he⟩
  · rintro ⟨p, hp, he⟩
    exact ⟨p, hp, (how.sector_eq h.inj hp).symm.trans he⟩

end Runs

/-- The state of the free map depends on the map, the inode and the file that it is kept in, and the bytes of the sectors
`E`. -/
theorem FreeMapState.frame {w w' : World} (h : FreeMapState w E) (hfile : w'.mem.freeMapFile = w.mem.freeMapFile)
    (hcnt : w'.mem.bitCnt = w.mem.bitCnt) (hbits : w'.mem.freeMap = w.mem.freeMap)
    (hopen : ∀ f file, w.mem.freeMapFile = some f → w.mem.files f = some file →
      w'.mem.files f = some file ∧ w'.mem.inodes file.inode = w.mem.inodes file.inode)
    (hsize : w'.dev.size = w.dev.size) (hdisk : ∀ x, E x → w'.dev.disk x = w.dev.disk x) : FreeMapState w' E := by
  cases h with
  | absent h hE => exact .absent (hfile.trans h) hE
  | present a i h hE =>
    obtain ⟨f, file, hf, hff, rfl⟩ := h.file
    obtain ⟨hff', hcell⟩ := hopen f file hf hff
    have hstay : BlockWorld.Stable (w.blocksOf i.data).blocks (w.blocksOf i.data) (w'.blocksOf i.data) :=
      BlockWorld.stable_of_index rfl (fun p hp _ => hdisk _ ((hE _).mpr ⟨p, hp, rfl⟩))
    refine .present file.inode i ⟨⟨⟨f, file, hfile.trans hf, hff', rfl⟩, hcell.trans h.cell, h.settled, ?_, h.bounded,
      ?_, ?_⟩, ?_⟩ ?_
    · rw [h.length, hcnt]
    · intro p hp
      rw [hstay p hp, hsize]
      exact h.inside p hp
    · intro p q hp hq he
      rw [hstay p hp, hstay q hq] at he
      exact h.inj p q hp hq he
    · intro j hj
      rw [hcnt] at hj
      have hblock := block_inUse w (show (j : Int) < i.data.length by rw [h.length]; exact_mod_cast hj)
      rw [hbits, ← h.kept j hj, BlockWorld.fileByte, hstay _ hblock]
      exact congrArg (fun c : Contents => c.byte (j % 512)) (hdisk _ ((hE _).mpr ⟨_, hblock, rfl⟩))
    · intro x
      rw [hE x]
      exact exists_congr (fun p => and_congr_right (fun hp => by rw [hstay p hp]))

/-! ## Allocating and releasing -/

theorem bitmapScan_some (h : bitmapScan n bits = some x) : x < n ∧ bits x = false ∧ ∀ y < x, bits y = true := by
  unfold bitmapScan at h
  rw [List.find?_range_eq_some] at h
  obtain ⟨h1, h2, h3⟩ := h
  refine ⟨List.mem_range.mp h2, by simpa using h1, fun y hy => by simpa using h3 y hy⟩

theorem bitmapScan_none (h : bitmapScan n bits = none) : ∀ x < n, bits x = true := by
  unfold bitmapScan at h
  rw [List.find?_eq_none] at h
  intro x hx
  simpa using h x (List.mem_range.mpr hx)

namespace Runs

/-- `free_map_allocate` gives the first free sector and marks it. Without one it gives none; where failed allocations end the
run, it does not return. -/
theorem freeMapAllocate (h : FreeMapState w E) :
    Runs st freeMapAllocate (fun r w' =>
      (∃ x dev, r = some x ∧ (x < w.mem.bitCnt ∧ w.mem.freeMap x = false ∧ ∀ y < x, w.mem.freeMap y = true) ∧
        w' = { w with mem := w.mem.setBit x true, dev := dev } ∧ DevWithin E w.dev dev ∧ FreeMapState w' E) ∨
      (r = none ∧ st = false ∧ w' = w ∧ ∀ x < w.mem.bitCnt, w.mem.freeMap x = true)) w := by
  unfold Pintos.freeMapAllocate
  rw [get_bind]
  cases hs : bitmapScan w.mem.bitCnt w.mem.freeMap with
  | none => exact noSector_bind fun hst => pure_iff.mpr (.inr ⟨rfl, hst, rfl, bitmapScan_none hs⟩)
  | some x =>
    have hx := bitmapScan_some hs
    rw [set_bind]
    cases h with
    | absent h hE =>
      rw [if_neg (by rw [h]; decide)]
      exact pure_iff.mpr (.inl ⟨x, w.dev, rfl, hx, rfl, .refl _ _, .absent h hE⟩)
    | present a i h hE =>
      obtain ⟨f, file, hf, -⟩ := h.file
      rw [if_pos (by rw [hf]; rfl)]
      refine (bitmapWrite_state (h.toFreeMapReady.setBit x true) hE).bind ?_
      rintro r w' ⟨rfl, dev, rfl, hdev, hstate⟩
      exact pure_iff.mpr (.inl ⟨x, dev, rfl, hx, rfl, hdev, hstate⟩)

/-- `free_map_release` clears the bit of a sector in use. -/
theorem freeMapRelease (h : FreeMapState w E) (hf : w.mem.freeMapFile.isSome = true) (hx : x < w.mem.bitCnt)
    (hused : w.mem.freeMap x = true) :
    Runs st (freeMapRelease x) (fun _ w' => ∃ dev, w' = { w with mem := w.mem.setBit x false, dev := dev } ∧
      DevWithin E w.dev dev ∧ FreeMapState w' E) w := by
  unfold Pintos.freeMapRelease
  rw [get_bind, assert_bind (by simp [hx, hused]), set_bind]
  cases h with
  | absent h _ => simp [h] at hf
  | present a i h hE =>
    refine (bitmapWrite_state (h.toFreeMapReady.setBit x false) hE).bind ?_
    rintro r w' ⟨rfl, dev, rfl, hdev, hstate⟩
    exact pure_iff.mpr ⟨dev, rfl, hdev, hstate⟩

end Runs

end Pintos
