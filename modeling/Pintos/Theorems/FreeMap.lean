import Mathlib.Data.List.Nodup
import Pintos.Filesys.FreeMapFile
import Pintos.Lemmas.Bitmap

/-!
# The free map and its copy on disk (`filesys/free-map.c`, `lib/kernel/bitmap.c`)

Sectors are allocated and released one at a time, and after each call the file of the free map is written anew. Over any
sequence of calls the bits are those of the sectors that were in use when the disk was mounted, and of those handed out
since; the file holds them, so that `bitmap_read` would give the map as it is in memory.
-/

namespace Pintos

open Bitmap FreeMapVars

variable {b : Bitmap} {file : List UInt8} {n x : Nat}

/-- What is in the file of the free map of a formatted disk: a bit for each sector, of which those of the two inodes that are
always there are set. -/
structure FormattedMap (sectors : Nat) (file : List UInt8) : Prop where
  length : file.length = Bitmap.byteCnt sectors
  reserved : ∀ x < sectors, x = freeMapSector ∨ x = rootDirSector → Bitmap.fileBit file x = true

/-- The free map between two calls, on a device of `n` sectors: the bits `base` were set to begin with, the sectors `live`
have been handed out since, and the file, if it is open, says the same. -/
structure FreeMapKept (n : Nat) (base : Nat → Bool) (live : List Nat) (m : FreeMapVars) : Prop where
  fits : n + 31 < 2 ^ 32
  cnt : m.freeMap.bitCnt = n
  unlocked : m.locked = false
  bits : ∀ x, m.freeMap.bit x = (base x || decide (x ∈ live))
  fresh : ∀ x ∈ live, x < n ∧ base x = false
  nodup : live.Nodup
  file : ∀ file, m.freeMapFile = some file → file.length = Bitmap.byteCnt n ∧ ∀ x < n, Bitmap.fileBit file x = m.freeMap.bit x

namespace FreeMapKept

variable {base : Nat → Bool} {live : List Nat} {m : FreeMapVars}

section

variable (h : FreeMapKept n base live m)
include h

theorem mapFits : m.freeMap.Fits := by
  unfold Fits
  rw [h.cnt]
  exact h.fits

theorem lockAcquire : m.lockAcquire = .ok { m with locked := true } := by
  unfold FreeMapVars.lockAcquire
  rw [h.unlocked]
  rfl

theorem writeMap (hcnt : b.bitCnt = n) (hfile : m.freeMapFile = some file) :
    ({ m with freeMap := b, locked := true } : FreeMapVars).writeMap =
      .ok (true, { freeMap := b, freeMapFile := some (Packed.bytes b.bits), locked := true }) := by
  have hlen : file.length = byteCnt b.bitCnt := by
    rw [hcnt]
    exact (h.file file hfile).1
  unfold FreeMapVars.writeMap
  simp [hfile, write_eq hlen]

end

theorem written (hcnt : b.bitCnt = n) {o : Option (List UInt8)} :
    ∀ file, o.map (fun _ => Packed.bytes b.bits) = some file → file.length = Bitmap.byteCnt n ∧
    ∀ x < n, Bitmap.fileBit file x = b.bit x := by
  intro file hfile
  obtain ⟨-, -, rfl⟩ := Option.map_eq_some_iff.mp hfile
  exact ⟨by rw [b.length_bytes, hcnt], fun x _ => b.fileBit_bytes x⟩

section

variable (h : FreeMapKept n base live m)
include h

/-- An allocation: the first sector that is free, or none, and nothing has changed. -/
theorem allocate :
    (∃ x m', m.exec .allocate = .ok (some x, m') ∧ (x < n ∧ m.freeMap.bit x = false ∧ ∀ y < x, m.freeMap.bit y = true) ∧
      FreeMapKept n base (x :: live) m' ∧ (m.freeMapFile.isSome = true → m'.freeMapFile.isSome = true)) ∨
    (m.exec .allocate = .ok (none, m) ∧ ∀ x < n, m.freeMap.bit x = true) := by
  have hacquire := h.lockAcquire
  have hrelease : ∀ b file, ({ freeMap := b, freeMapFile := file, locked := true } : FreeMapVars).lockRelease =
      .ok { freeMap := b, freeMapFile := file, locked := false } := fun _ _ => rfl
  rcases scanAndFlip_one h.mapFits with ⟨x, b, hscan, hne, hlt, hfree, hfirst, hcnt, hbits⟩ | ⟨hscan, hfull⟩
  · refine .inl ⟨x, { freeMap := b, freeMapFile := m.freeMapFile.map (fun _ => Packed.bytes b.bits), locked := false }, ?_,
      ⟨h.cnt ▸ hlt, hfree, hfirst⟩, ?_, by simp⟩
    · show m.freeMapAllocate 1 = _
      unfold FreeMapVars.freeMapAllocate
      simp only [hacquire, bind, Except.bind, hscan]
      cases hfile : m.freeMapFile with
      | none => simp only [hne, Option.isSome_none, Bool.and_false, Bool.false_eq_true, if_false, ne_eq, not_false_eq_true,
        if_true, hrelease]; rfl
      | some file =>
        have hwrite := h.writeMap (hcnt.trans h.cnt) hfile
        rw [hfile] at hwrite
        simp [hne, hwrite, hrelease]
        rfl
    · have hnew : base x = false ∧ x ∉ live := by
        have := h.bits x
        rw [hfree] at this
        simpa using this.symm
      refine ⟨h.fits, hcnt.trans h.cnt, rfl, fun y => ?_, List.forall_mem_cons.mpr ⟨⟨h.cnt ▸ hlt, hnew.1⟩, h.fresh⟩,
        List.nodup_cons.mpr ⟨hnew.2, h.nodup⟩, written (hcnt.trans h.cnt)⟩
      rw [hbits, h.bits]
      by_cases hy : y = x <;> simp [hy]
  · refine .inr ⟨?_, h.cnt ▸ hfull⟩
    show m.freeMapAllocate 1 = _
    unfold FreeMapVars.freeMapAllocate
    simp only [hacquire, bind, Except.bind, hscan, ne_eq, not_true_eq_false, decide_false, Bool.false_and,
      Bool.false_eq_true, if_false, hrelease]
    rw [← h.unlocked]
    rfl

/-- A release of a sector that was handed out, up to the write of the free map. -/
theorem release_eq (hx : x ∈ live) :
    ∃ b : Bitmap, b.bitCnt = n ∧ (∀ j, b.bit j = if j = x then false else m.freeMap.bit j) ∧
      m.exec (.release x) = (do
        let (_, m) ← ({ m with freeMap := b, locked := true } : FreeMapVars).writeMap
        return (none, ← m.lockRelease)) := by
  have hin : x + 1 ≤ m.freeMap.bitCnt := by
    rw [h.cnt]
    exact (h.fresh x hx).1
  have hmarked : m.freeMap.bit x = true := by simp [h.bits, hx]
  have hall : m.freeMap.all x 1 = .ok true := by
    unfold all
    rw [contains_eq h.mapFits hin]
    simp [hmarked]
  obtain ⟨b, hset, hcnt, hbits⟩ := setMultiple_spec h.mapFits x 1 hin false
  refine ⟨b, hcnt.trans h.cnt, fun j => ?_, ?_⟩
  · rw [hbits]
    by_cases hj : j = x
    · rw [if_pos hj, if_pos (by omega)]
    · rw [if_neg hj, if_neg (by omega)]
  have hassert : BitmapFault.assert true = .ok () := rfl
  show (m.freeMapRelease x 1 >>= fun m => pure (none, m)) = _
  unfold FreeMapVars.freeMapRelease
  simp only [hall, hassert, h.lockAcquire, hset, bind, Except.bind]
  cases ({ m with freeMap := b, locked := true } : FreeMapVars).writeMap <;> rfl

/-- Without a file the null pointer is used. -/
theorem release_none (hfile : m.freeMapFile = none) (hx : x ∈ live) : m.exec (.release x) = .error .wild := by
  obtain ⟨b, -, -, hexec⟩ := h.release_eq hx
  rw [hexec, FreeMapVars.writeMap]
  simp only [hfile]
  rfl

/-- With a file the sector is free afterwards, and the file says so. -/
theorem release (hfile : m.freeMapFile = some file) (hx : x ∈ live) :
    ∃ m', m.exec (.release x) = .ok (none, m') ∧ FreeMapKept n base (live.erase x) m' ∧ m'.freeMapFile.isSome = true := by
  obtain ⟨b, hcnt, hbits, hexec⟩ := h.release_eq hx
  refine ⟨{ freeMap := b, freeMapFile := some (Packed.bytes b.bits), locked := false }, ?_, ?_, rfl⟩
  · rw [hexec, h.writeMap hcnt hfile]
    rfl
  refine ⟨h.fits, hcnt, rfl, fun y => ?_, fun y hy => h.fresh y (List.mem_of_mem_erase hy), h.nodup.erase x,
    written (o := some file) hcnt⟩
  rw [hbits, h.bits]
  by_cases hy : y = x
  · subst hy
    simp [h.nodup.mem_erase_iff, (h.fresh y hx).2]
  · simp [h.nodup.mem_erase_iff, hy]

end

theorem run {m0 : FreeMapVars} (h : FreeMapKept n base [] m0) (hr : FreeMapRun m0 live m) :
    FreeMapKept n base live m ∧ (m0.freeMapFile.isSome = true → m.freeMapFile.isSome = true) := by
  induction hr with
  | start => exact ⟨h, id⟩
  | allocate hr hc ih =>
    obtain ⟨hk, hsome⟩ := ih
    rcases hk.allocate with ⟨x, m', hexec, -, hk', hsome'⟩ | ⟨hexec, -⟩
    · cases hexec.symm.trans hc
      exact ⟨hk', fun h0 => hsome' (hsome h0)⟩
    · cases hexec.symm.trans hc
      exact ⟨hk, hsome⟩
  | @release live m m' r x hr hx hc ih =>
    obtain ⟨hk, hsome⟩ := ih
    cases hfile : m.freeMapFile with
    | none =>
      rw [hk.release_none hfile hx] at hc
      cases hc
    | some file =>
      obtain ⟨m', hexec, hk', hsome'⟩ := hk.release hfile hx
      cases hexec.symm.trans hc
      exact ⟨hk', fun _ => hsome'⟩

end FreeMapKept

namespace FreeMapVars

variable {room : Bool} {elems : Option (Nat → BitVec 32)} {m : FreeMapVars}

/-- After `free_map_init` the sectors of the two inodes that are always there are marked. -/
theorem freeMapInit_kept (hn : n < 2 ^ 32) (h : freeMapInit n room elems = .ok m) :
    0 < n ∧ m.freeMapFile = none ∧ m.freeMap.bit freeMapSector = true ∧ m.freeMap.bit rootDirSector = true ∧
      FreeMapKept n m.freeMap.bit [] m := by
  obtain ⟨o, hcreate, h⟩ := Loop.bind_eq_ok.mp h
  cases o with
  | none => cases h
  | some b =>
    obtain ⟨hcnt, hfits, -⟩ := create_spec hn hcreate
    have hlen := length_bits hfits
    have hpos : 0 < n := by
      by_contra hzero
      have hwild : b.mark freeMapSector = .error .wild := by
        have : ¬elemIdx freeMapSector < b.bits.length := by
          rw [hlen, hcnt, Nat.eq_zero_of_not_pos hzero]
          decide
        unfold mark elem
        rw [if_neg this]
        rfl
      simp only [hwild] at h
      cases h
    have hidx : ∀ k < 32, elemIdx k < b.bits.length := by
      intro k hk
      rw [hlen, hcnt, elemIdx, elemBits]
      omega
    obtain ⟨b1, hmark1, hcnt1, hbits1⟩ := mark_spec (hidx freeMapSector (by decide))
    have hidx1 : elemIdx rootDirSector < b1.bits.length := by
      rw [b1.sized, hcnt1, ← b.sized]
      exact hidx rootDirSector (by decide)
    obtain ⟨b2, hmark2, hcnt2, hbits2⟩ := mark_spec hidx1
    simp only [hmark1, hmark2, bind, Except.bind, pure, Except.pure] at h
    cases h
    refine ⟨hpos, rfl, ?_, ?_, ?_, hcnt2.trans (hcnt1.trans hcnt), rfl, fun x => by simp, by simp, .nil, by simp⟩
    · rw [hbits2, hbits1, if_pos rfl, if_neg (by decide)]
    · rw [hbits2, if_pos rfl]
    · unfold Fits at hfits
      rwa [hcnt] at hfits

/-- After a mount the free map is what the file says, and the padding is clear. -/
theorem mount_kept (hn : n < 2 ^ 32) (hfile : file.length = Bitmap.byteCnt n) (h : mount n room elems file = .ok m) :
    0 < n ∧ m.freeMapFile.isSome = true ∧ (∀ x, m.freeMap.bit x = (decide (x < n) && Bitmap.fileBit file x)) ∧
      FreeMapKept n m.freeMap.bit [] m := by
  obtain ⟨m1, hinit, h⟩ := Loop.bind_eq_ok.mp h
  obtain ⟨hpos, -, -, -, hk⟩ := freeMapInit_kept hn hinit
  obtain ⟨b, hread, hcnt, hbits⟩ := read_spec hk.mapFits (by rw [hk.cnt]; exact hpos)
    (show file.length = _ by rw [hk.cnt]; exact hfile)
  rw [hk.cnt] at hcnt hbits
  simp only [freeMapOpen, hread, bind, Except.bind, BitmapFault.assert, pure, Except.pure, if_true] at h
  cases h
  refine ⟨hpos, rfl, hbits, hk.fits, hcnt, hk.unlocked, fun x => by simp, nofun, .nil, fun file' hf => ?_⟩
  cases hf
  refine ⟨hfile, fun x hx => ?_⟩
  rw [hbits, decide_eq_true hx, Bool.true_and]

end FreeMapVars

/-- What is in the file of such a free map decodes to it, if the padding is clear. -/
theorem FreeMapKept.decodes {base : Nat → Bool} {live : List Nat} {m : FreeMapVars} (h : FreeMapKept n base live m) (hpos : 0 < n)
    (hclean : ∀ x, n ≤ x → base x = false) (hfile : m.freeMapFile = some file) (hb : b.bitCnt = n) :
    b.read file = .ok (true, m.freeMap) := by
  obtain ⟨hlen, hbits⟩ := h.file file hfile
  have hfits : b.Fits := by
    unfold Fits
    rw [hb]
    exact h.fits
  obtain ⟨b', hread, hcnt, hbits'⟩ := read_spec hfits (hb ▸ hpos) (hb ▸ hlen)
  have heq : b' = m.freeMap := by
    refine ext_bit (by rw [hcnt, hb, h.cnt]) (fun x => ?_)
    rw [hbits', hb]
    by_cases hx : x < n
    · rw [decide_eq_true hx, Bool.true_and, hbits x hx]
    · have hlive : x ∉ live := fun hx' => hx (h.fresh x hx').1
      rw [decide_eq_false hx, Bool.false_and, h.bits, hclean x (by omega)]
      simp [hlive]
  rw [hread, heq]

/-- What holds of the free map between two calls: `m0` is the free map when it was mounted, `m` the free map now. -/
structure FreeMapHolds (n : Nat) (m0 : FreeMapVars) (live : List Nat) (m : FreeMapVars) : Prop where
  /-- The sectors allocated are those that were so at the mount, and those handed out since. -/
  allocated : ∀ x < n, m.freeMap.bit x = (m0.freeMap.bit x || decide (x ∈ live))
  /-- The file decodes to the map, whatever bitmap of this size it is read into. -/
  decodes : ∃ file, m.freeMapFile = some file ∧ ∀ b : Bitmap, b.bitCnt = n → b.read file = .ok (true, m.freeMap)
  /-- An allocation hands out the lowest sector that is not allocated, and not one of the first two; it fails only if there
  is none, and then changes nothing. -/
  allocate : ∃ r m', m.exec .allocate = .ok (r, m') ∧
    (∀ x, r = some x → (x < n ∧ m.freeMap.bit x = false ∧ ∀ y < x, m.freeMap.bit y = true) ∧ x ∉ live ∧ x ≠ freeMapSector ∧
      x ≠ rootDirSector) ∧
    (r = none → (∀ x < n, m.freeMap.bit x = true) ∧ m' = m)
  /-- A release of a sector handed out, and not released since, returns. -/
  release : ∀ x ∈ live, ∃ r m', m.exec (.release x) = .ok (r, m')

/-- **The free map and its copy on disk agree.** After the mount of a formatted disk of any size, and any calls of
`free_map_allocate` for one sector and of `free_map_release` for sectors that were handed out. -/
theorem free_map_holds {n : Nat} (hn : n < 2 ^ 32) {room : Bool} {elems : Option (Nat → BitVec 32)} {file : List UInt8}
    (hdisk : FormattedMap n file) {m0 : FreeMapVars} (hmount : mount n room elems file = .ok m0) {live : List Nat}
    {m : FreeMapVars} (hrun : FreeMapRun m0 live m) : FreeMapHolds n m0 live m := by
  obtain ⟨hpos, hsome, hbits, hk0⟩ := mount_kept hn hdisk.length hmount
  obtain ⟨hk, hsome'⟩ := hk0.run hrun
  obtain ⟨file', hfile⟩ := Option.isSome_iff_exists.mp (hsome' hsome)
  refine ⟨fun x _ => hk.bits x, ⟨file', hfile, fun b hb => ?_⟩, ?_, fun x hx => ?_⟩
  · refine hk.decodes hpos (fun x hx => ?_) hfile hb
    rw [hbits, decide_eq_false (by omega), Bool.false_and]
  · rcases hk.allocate with ⟨x, m', hexec, hfirst, -, -⟩ | ⟨hexec, hfull⟩
    · refine ⟨some x, m', hexec, fun y hy => ?_, nofun⟩
      cases hy
      have hfree : m0.freeMap.bit x = false ∧ x ∉ live := by
        have := hk.bits x
        rw [hfirst.2.1] at this
        simpa using this.symm
      have hreserved : ¬(x = freeMapSector ∨ x = rootDirSector) := by
        intro hx
        rw [hbits, decide_eq_true hfirst.1, hdisk.reserved x hfirst.1 hx] at hfree
        cases hfree.1
      exact ⟨hfirst, hfree.2, fun hx => hreserved (.inl hx), fun hx => hreserved (.inr hx)⟩
    · exact ⟨none, m, hexec, nofun, fun _ => ⟨hfull, rfl⟩⟩
  · obtain ⟨m', hexec, -⟩ := hk.release hfile hx
    exact ⟨none, m', hexec⟩

/-- A disk of 40 sectors, of which only the two reserved ones are in use, is mounted. Two sectors are handed out, and the
first is released. -/
theorem free_map_holds_forty : ∃ m0 m1 m2 m, mount 40 true (some fun _ => 0) [3, 0, 0, 0, 0, 0, 0, 0] = .ok m0 ∧
    m0.exec .allocate = .ok (some 2, m1) ∧ m1.exec .allocate = .ok (some 3, m2) ∧ m2.exec (.release 2) = .ok (none, m) ∧
    FreeMapHolds 40 m0 [3] m := by
  obtain ⟨m0, m1, m2, m, hmount, h1, h2, h3⟩ : ∃ m0 m1 m2 m, mount 40 true (some fun _ => 0) [3, 0, 0, 0, 0, 0, 0, 0] = .ok m0 ∧
    m0.exec .allocate = .ok (some 2, m1) ∧ m1.exec .allocate = .ok (some 3, m2) ∧ m2.exec (.release 2) = .ok (none, m) :=
    ⟨_, _, _, _, rfl, rfl, rfl, rfl⟩
  have htwo : FreeMapRun m0 [3, 2] m2 := .allocate (.allocate .start h1) h2
  have hrun : FreeMapRun m0 [3] m := htwo.release (by decide) h3
  exact ⟨m0, m1, m2, m, hmount, h1, h2, h3, free_map_holds (by decide) ⟨rfl, by decide⟩ hmount hrun⟩

/-- Formatting makes such a disk: `free_map_init`, any allocations (those of the sectors of the file itself),
`free_map_create`, and any calls after that, before the disk is unmounted. -/
theorem formatted_of_create (hn : n < 2 ^ 32) {room : Bool} {elems : Option (Nat → BitVec 32)} {m0 m1 m2 m : FreeMapVars}
    (hinit : FreeMapVars.freeMapInit n room elems = .ok m0) {live1 live : List Nat} (hrun1 : FreeMapRun m0 live1 m1)
    {blank : List UInt8}
    (hblank : blank.length = Bitmap.byteCnt n) (hcreate : m1.freeMapCreate (some blank) = .ok m2) (hrun : FreeMapRun m2 live m) :
    ∃ file, m.freeMapFile = some file ∧ FormattedMap n file := by
  obtain ⟨-, -, hzero, hone, hk0⟩ := freeMapInit_kept hn hinit
  obtain ⟨hk1, -⟩ := hk0.run hrun1
  have hwrite := write_eq (show blank.length = _ by rw [hk1.cnt]; exact hblank)
  simp only [FreeMapVars.freeMapCreate, writeMap, hwrite, bind, Except.bind, BitmapFault.assert, pure, Except.pure,
    if_true] at hcreate
  cases hcreate
  have hk2 : FreeMapKept n m1.freeMap.bit [] { m1 with freeMapFile := some (Packed.bytes m1.freeMap.bits) } :=
    ⟨hk1.fits, hk1.cnt, hk1.unlocked, fun x => by simp, nofun, .nil, FreeMapKept.written hk1.cnt (o := some [])⟩
  obtain ⟨hk, hsome⟩ := hk2.run hrun
  obtain ⟨file, hfile⟩ := Option.isSome_iff_exists.mp (hsome rfl)
  obtain ⟨hlen, hbits⟩ := hk.file file hfile
  refine ⟨file, hfile, hlen, fun x hx hres => ?_⟩
  have hbase : m1.freeMap.bit x = true := by
    rw [hk1.bits]
    rcases hres with rfl | rfl
    · rw [hzero, Bool.true_or]
    · rw [hone, Bool.true_or]
  rw [hbits x hx, hk.bits, hbase, Bool.true_or]

/-- A disk of 40 sectors is formatted: a sector is handed out for the file, the file is made, another sector is handed out
and released. -/
theorem formatted_of_create_forty : ∃ m0 m1 m2 m3 m, FreeMapVars.freeMapInit 40 true (some fun _ => 0) = .ok m0 ∧
    m0.exec .allocate = .ok (some 2, m1) ∧ m1.freeMapCreate (some (.replicate 8 0)) = .ok m2 ∧
    m2.exec .allocate = .ok (some 3, m3) ∧ m3.exec (.release 3) = .ok (none, m) ∧
    ∃ file, m.freeMapFile = some file ∧ FormattedMap 40 file := by
  obtain ⟨m0, m1, m2, m3, m, h0, h1, h2, h3, h4⟩ : ∃ m0 m1 m2 m3 m, FreeMapVars.freeMapInit 40 true (some fun _ => 0) = .ok m0 ∧
    m0.exec .allocate = .ok (some 2, m1) ∧ m1.freeMapCreate (some (.replicate 8 0)) = .ok m2 ∧
    m2.exec .allocate = .ok (some 3, m3) ∧ m3.exec (.release 3) = .ok (none, m) := ⟨_, _, _, _, _, rfl, rfl, rfl, rfl, rfl⟩
  have hone : FreeMapRun m2 [3] m3 := .allocate .start h3
  have hrun : FreeMapRun m2 [] m := hone.release (by decide) h4
  exact ⟨m0, m1, m2, m3, m, h0, h1, h2, h3, h4, formatted_of_create (by decide) h0 (.allocate .start h1) rfl h2 hrun⟩

end Pintos
