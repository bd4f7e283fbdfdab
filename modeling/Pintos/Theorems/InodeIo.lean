import Pintos.Lemmas.AnyRun

/-!
# What `inode_read_at` and `inode_write_at` return

The comment over `inode_read_at` promises the number of bytes read, "which may be less than SIZE if an error occurs or end of
file is reached". Where the range asked for does not lie within the file, the function reads nothing and returns -1.

`inode_write_at` does not look at what `allocate_file` returns. A write that was to extend the file and could not returns 0,
and leaves the inode marked as being extended, with the sectors that it got on the way; one of no bytes at all past the end
of the file returns 0 and extends the file.
-/

namespace Pintos

open Program

/-- The promise of `inode_read_at`: as many bytes as are asked for and available, and these are the file's. -/
def ReadContract (w : World) (d : InodeDisk) (size offset : Int) (r : Int × List UInt8) : Prop :=
  r.1 = min size (max 0 (d.length - offset)) ∧ r.2.map some = (List.range r.1.toNat).map (fun j => w.byteAt d (offset.toNat + j))

/-- With no writer active, `inode_read_at` keeps its promise exactly for the ranges within the file whose bytes the block map
leads to. -/
theorem inode_read_at_contract {w : World} {a : Nat} {i : Inode} (hi : w.mem.inodes a = some i) (hext : i.extending = false)
    (hdeny : 0 ≤ i.denyWriteCnt) {size offset : Int} (hs : 0 ≤ size) (h0 : 0 ≤ offset) (hfit : offset + size < 2147483648) :
    Runs false (inodeReadAt a size offset) (fun r _ => ReadContract w i.data size offset r) w ↔
      offset + size ≤ i.data.length ∧ ∀ k : Nat, offset ≤ k → k < offset + size → (w.byteAt i.data k).isSome := by
  constructor
  · intro h
    obtain ⟨r, v, hrun, hcount, hbytes⟩ := h.returns
    have hle : offset + size ≤ i.data.length := by
      by_contra hout
      have hminus := (Runs.of_run hrun).mp (Runs.inodeReadAt_mapped hi hext hdeny hs h0 hfit (fun _ _ _ hle => absurd hle hout))
      rw [if_neg hout] at hminus
      rw [hminus.1] at hcount
      omega
    have hall : r.1 = size := by omega
    refine ⟨hle, fun k h1 h2 => ?_⟩
    -- Byte `k` is one of those returned.
    have hk := congrArg (fun l => l[k - offset.toNat]?) hbytes
    simp only [List.getElem?_map, hall, List.getElem?_range (show k - offset.toNat < size.toNat by omega), Option.map_some,
      show offset.toNat + (k - offset.toNat) = k by omega] at hk
    cases hb : r.2[k - offset.toNat]? with
    | none => rw [hb] at hk; cases hk
    | some b =>
      rw [hb, Option.map_some] at hk
      rw [← Option.some.inj hk]
      rfl
  · rintro ⟨hle, hmap⟩
    refine (Runs.inodeReadAt_mapped hi hext hdeny hs h0 hfit (fun k h1 h2 _ => hmap k h1 h2)).mono ?_
    rintro r v ⟨hr, -⟩
    rw [if_pos hle] at hr
    refine ⟨by omega, ?_⟩
    rw [hr.1]
    exact hr.2

/-- A file of one byte on a device of one sector, open, with a free map that has no sector left. -/
def oneByteFile : World where
  mem := { Fs.boot with
    inodes := fun a => if a = 0 then
      some { sector := 0, openCnt := 1, removed := false, extending := false, denyWriteCnt := 0,
             data := InodeDisk.setLength (Contents.fill 0) 1 }
      else none }
  dev := { size := 1, disk := fun _ => Contents.fill 0 }
  heap _ := true

theorem oneByteFile_length : (InodeDisk.setLength (Contents.fill 0) 1).length = 1 :=
  InodeDisk.length_setLength _ (by decide) (by decide)

/-- The byte is read. -/
theorem oneByteFile_read : Runs false (inodeReadAt 0 1 0)
    (fun r _ => ReadContract oneByteFile (InodeDisk.setLength (Contents.fill 0) 1) 1 0 r)
    oneByteFile :=
  (inode_read_at_contract (w := oneByteFile) (a := 0) rfl rfl (by decide) (by decide) (by decide) (by decide)).mpr
    ⟨by rw [oneByteFile_length]; decide, fun k h1 h2 => by
      obtain rfl : k = 0 := by omega
      decide +kernel⟩

/-- Two bytes are asked for, and instead of the one that there is, none comes and -1 is returned. -/
theorem oneByteFile_short_read :
    Runs false (inodeReadAt 0 2 0) (fun r _ => r = (-1, []) ∧
      ¬ReadContract oneByteFile (InodeDisk.setLength (Contents.fill 0) 1) 2 0 r)
      oneByteFile := by
  refine (Runs.inodeReadAt_mapped (a := 0) rfl rfl (by decide) (by decide) (by decide) (by decide) ?_).mono ?_
  · intro k _ _ hle
    rw [oneByteFile_length] at hle
    omega
  rintro r v ⟨hr, -⟩
  rw [oneByteFile_length, if_neg (by decide)] at hr
  subst hr
  refine ⟨rfl, fun h => ?_⟩
  have hcount := h.1
  rw [oneByteFile_length] at hcount
  exact absurd hcount (by decide)

/-! ## A write that transfers nothing -/

/-- The write at the inode has changed nothing: the inode, with its length, pointers, mark and count of deniers, is as it
was, and so are the free map and the sectors, index blocks included. -/
structure ChangedNothing (a : Nat) (w v : World) : Prop where
  inode : v.mem.inodes a = w.mem.inodes a
  freeMap : v.mem.freeMap = w.mem.freeMap
  disk : v.dev.disk = w.dev.disk

/-- An `inode_write_at` that returns 0 has changed nothing exactly when writes were denied or it stayed within the file; then
all the state is what it was, so that no later call can tell. -/
theorem inode_write_at_zero {w v : World} {a : Nat} {i : Inode} (hi : w.mem.inodes a = some i) {buffer : List UInt8}
    {size offset : Int}
    (h0 : 0 ≤ offset) (hrun : (inodeWriteAt freeMapAllocate a buffer size offset).run (FsOp.exec false) w = .ok (0, v)) :
    (ChangedNothing a w v ↔ 0 < i.denyWriteCnt ∨ toInt32 (size + offset) ≤ i.data.length) ∧
    (0 < i.denyWriteCnt ∨ toInt32 (size + offset) ≤ i.data.length → v = w) := by
  have h := (Yields.inodeWriteAt hi buffer size h0).ok hrun
  have hsame : 0 < i.denyWriteCnt ∨ toInt32 (size + offset) ≤ i.data.length → v = w := fun hc => h.within hc rfl
  refine ⟨⟨fun hv => ?_, fun hc => ?_⟩, hsame⟩
  · by_contra hc
    exact h.growth hc (hv.inode.trans hi)
  · rw [hsame hc]
    exact ⟨rfl, rfl, rfl⟩

/-- A byte is written while writes are denied. -/
theorem oneByteFile_write_denied : ∃ u v, (inodeDenyWrite 0).run (FsOp.exec false) oneByteFile = .ok ((), u) ∧
    (inodeWriteAt freeMapAllocate 0 [7] 1 0).run (FsOp.exec false) u = .ok (0, v) ∧ ChangedNothing 0 u v := by
  obtain ⟨u, v, i, hdeny, hi, hcnt, hwrite⟩ : ∃ u v i, (inodeDenyWrite 0).run (FsOp.exec false) oneByteFile = .ok ((), u) ∧
      u.mem.inodes 0 = some i ∧ i.denyWriteCnt = 1 ∧
      (inodeWriteAt freeMapAllocate 0 [7] 1 0).run (FsOp.exec false) u = .ok (0, v) := ⟨_, _, _, rfl, rfl, rfl, rfl⟩
  exact ⟨u, v, hdeny, hwrite, (inode_write_at_zero hi (Int.le_refl 0) hwrite).1.mpr (.inl (by omega))⟩

/-- A write past the end of the file, with no sector free: it returns 0, and the inode stays marked as being extended. -/
theorem oneByteFile_stays_extending : ∃ v,
    (inodeWriteAt freeMapAllocate 0 [7] 1 512).run (FsOp.exec false) oneByteFile = .ok (0, v) ∧ v.Extending 0 ∧
      ¬ChangedNothing 0 oneByteFile v := by
  have hpass : (inodeWriteAt freeMapAllocate 0 [7] 1 512).passes (fun n v => n == 0 && (v.mem.inodes 0).any (·.extending))
      oneByteFile = true := by
    decide +kernel
  obtain ⟨n, v, hrun, ht⟩ := FsM.run_of_passes hpass
  obtain ⟨hn, hext⟩ := Bool.and_eq_true_iff.mp ht
  obtain rfl : n = 0 := eq_of_beq hn
  have hv : v.Extending 0 := by
    cases hi : v.mem.inodes 0 with
    | none => rw [hi] at hext; cases hext
    | some i => rw [hi] at hext; exact ⟨i, hi, hext⟩
  refine ⟨v, hrun, hv, fun h => ?_⟩
  obtain ⟨i, hi, he⟩ := hv
  rw [h.inode] at hi
  cases hi
  cases he

end Pintos
