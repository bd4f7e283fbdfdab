import Pintos.Lemmas.Frame
import Pintos.Lemmas.InodeIo

/-!
# Reading and writing an inode in any state

`Yields` is said of runs that return, in whatever state they begin: the inode's map may lead anywhere and the free map may
have no sector left. Still, reading changes nothing, a write that transfers nothing has touched no sector, and no transfer
goes past the largest offset.
-/

namespace Pintos

open Program Prog

variable {α : Type} {p : FsM α} {r : α} {Q' : α → World → Prop} {k : Unit → FsM β} {a : Nat} {alloc : FsM (Option Nat)}
  {u : Inode → Inode} {i : Inode} {b : BlockWorld} {offset : Int}

/-- If the program returns, it does so with a value and a world that meet `Q`. -/
def Yields (st : Bool) {α : Type} (p : FsM α) (Q : α → World → Prop) (w : World) : Prop :=
  p.Ends (FsOp.exec st) (fun _ => True) Q w

theorem KeepsRel.yields {st : Bool} {R : World → World → Prop} (h : KeepsRel st R p) (w : World) :
    Yields st p (fun _ v => R w v) w := h w

namespace Yields

variable {st : Bool} {β : Type} {Q : α → World → Prop} {w : World}

theorem pure_iff {r : α} : Yields st (pure r : FsM α) Q w ↔ Q r w := Iff.rfl

theorem halt {e : Halt} : Yields st (FsM.halt e : FsM α) Q w := trivial

theorem mono {Q' : α → World → Prop} {p : FsM α} (h : Yields st p Q w) (hq : ∀ r v, Q r v → Q' r v) : Yields st p Q' w :=
  Ends.mono h hq

theorem bind {p : FsM α} {k : α → FsM β} {Q' : β → World → Prop} (h : Yields st p Q w)
    (hk : ∀ r v, Q r v → Yields st (k r) Q' v) :
    Yields st (p >>= k) Q' w := Ends.bind h hk

theorem of_all {p : FsM α} (h : ∀ r v, Q r v) : Yields st p Q w := Ends.of_all h

theorem ok {p : FsM α} {r : α} {v : World} (h : Yields st p Q w) (hr : p.run (FsOp.exec st) w = .ok (r, v)) :
    Q r v := Ends.ok h hr

theorem both {p : FsM α} {Q' : α → World → Prop} (h : Yields st p Q w) (h' : Yields st p Q' w) :
    Yields st p (fun r v => Q r v ∧ Q' r v) w := by
  unfold Yields Ends at h h' ⊢
  split
  · rename_i hr
    rw [hr] at h h'
    exact ⟨h, h'⟩
  · exact trivial

section Requests

variable {Q : β → World → Prop}

theorem get_bind {k : Fs → FsM β} : Yields st (FsM.get >>= k) Q w ↔ Yields st (k w.mem) Q w := ends_call

theorem inode_bind {k : Inode → FsM β} (h : ∀ i, w.mem.inodes a = some i → Yields st (k i) Q w) :
    Yields st (FsM.inode a >>= k) Q w := by
  unfold FsM.inode
  rw [bind_assoc, get_bind]
  cases hi : w.mem.inodes a with
  | none => exact trivial
  | some i => exact h i hi

theorem file_bind {f : Nat} {k : OpenFile → FsM β} (h : ∀ file, w.mem.files f = some file → Yields st (k file) Q w) :
    Yields st (FsM.file f >>= k) Q w := by
  unfold FsM.file
  rw [bind_assoc, get_bind]
  cases hf : w.mem.files f with
  | none => exact trivial
  | some file => exact h file hf

theorem data_bind {k : InodeDisk → BlockM β}
    (h : ∀ i, w.mem.inodes a = some i → Yields st (onBlocks alloc (.inode a) (k i.data)) Q w) :
    Yields st (onBlocks alloc (.inode a) (BlockM.data >>= k)) Q w := by
  show Yields st ((FsM.inode a >>= fun i => pure i.data) >>= fun r => onBlocks alloc (.inode a) (k r)) Q w
  rw [bind_assoc]
  exact inode_bind h

theorem modify_bind {u : Fs → Fs} {k : Unit → FsM β} (h : Yields st (k ()) Q { w with mem := u w.mem }) :
    Yields st (FsM.modify u >>= k) Q w := h

theorem modifyInode_bind {a : Nat} {u : Inode → Inode} {k : Unit → FsM β}
    (h : ∀ i, w.mem.inodes a = some i → Yields st (k ()) Q { w with mem := w.mem.setInode a (some (u i)) }) :
    Yields st (FsM.modifyInode a u >>= k) Q w := by
  unfold FsM.modifyInode
  rw [bind_assoc]
  exact inode_bind (fun i hi => modify_bind (h i hi))

end Requests

theorem modifyInode {Q : Unit → World → Prop}
    (h : ∀ i, w.mem.inodes a = some i → Q () { w with mem := w.mem.setInode a (some (u i)) }) :
    Yields st (FsM.modifyInode a u) Q w :=
  inode_bind h

theorem bufcacheRead (x : Nat) (ofs length : Int) :
    Yields st (FsM.bufcacheRead x ofs length) (fun bs v => v = w ∧ x < w.dev.size ∧ bs.length = length.toNat) w := by
  unfold FsM.bufcacheRead
  split
  · exact halt
  cases decide (ofs + length ≤ blockSectorSize) with
  | false => exact trivial
  | true =>
    refine ends_call.mpr ?_
    by_cases hx : w.dev.checkSector x = true
    · simp only [FsOp.exec, if_pos hx]
      exact ⟨rfl, of_decide_eq_true hx, by simp [Contents.slice, Bytes.slice]⟩
    · simp only [FsOp.exec, if_neg hx]

theorem bufcacheWrite (x : Nat) (buffer : List UInt8) (ofs length : Int) :
    Yields st (FsM.bufcacheWrite x buffer ofs length)
      (fun _ v => v.mem = w.mem ∧ v.dev.size = w.dev.size ∧ x < w.dev.size) w := by
  unfold FsM.bufcacheWrite
  split
  · exact halt
  cases decide (ofs + length ≤ blockSectorSize) with
  | false => exact trivial
  | true =>
    cases decide (length ≤ buffer.length) with
    | false => exact trivial
    | true =>
      refine ends_call.mpr ?_
      by_cases hx : w.dev.checkSector x = true
      · simp only [FsOp.exec, if_pos hx]
        exact ⟨rfl, rfl, of_decide_eq_true hx⟩
      · simp only [FsOp.exec, if_neg hx]

/-- A program that only looks at the block map of an open inode. -/
theorem onBlocks_looks (hi : w.mem.inodes a = some i) {p : BlockM α}
    (hp : p.Only BlockOp.Looks) {Q : α → Prop} (h : p.Ends (BlockOp.exec none) (fun _ => True) (fun r _ => Q r)
    (w.blocksOf i.data)) : Yields st (onBlocks alloc (.inode a) p) (fun r v => v = w ∧ Q r) w := by
  unfold Ends at h
  unfold Yields Ends
  rw [run_onBlocks hi hp]
  cases hb : p.run (BlockOp.exec none) (w.blocksOf i.data) with
  | error e => exact trivial
  | ok r =>
    rw [hb] at h
    exact ⟨rfl, h⟩

/-- `byte_to_sector` finds no sector from the end of the file on. -/
theorem byteToSector_end {pos : Int} :
    (byteToSector pos).Ends (BlockOp.exec none) (fun _ => True) (fun x _ => b.data.length ≤ pos → x = invalidSector) b := by
  by_cases h : pos < b.data.length
  · exact Ends.of_all (fun _ _ hle => absurd h (by omega))
  · refine Ends.bind (Q := fun d _ => d = b.data) rfl ?_
    rintro _ _ rfl
    rw [if_neg h]
    exact fun _ => rfl

/-- `byte_to_sector` of an open inode leaves the world as it is. -/
theorem byteToSector (pos : Int) :
    Yields st (onBlocks noAlloc (.inode a) (byteToSector pos))
      (fun x v => v = w ∧ ∀ i, w.mem.inodes a = some i → i.data.length ≤ pos → x = invalidSector) w := by
  cases hi : w.mem.inodes a with
  | none => exact data_bind (fun i h => absurd (hi.symm.trans h) (by simp))
  | some i =>
    refine (onBlocks_looks hi (byteToSector_looks pos) byteToSector_end).mono ?_
    rintro x v ⟨hv, hx⟩
    refine ⟨hv, fun j hj => ?_⟩
    cases hj
    exact hx

/-- `byte_to_sector` of block 379 looks at entry 128 of an index block. -/
theorem byteToSector_past (h : mapBytes < b.data.length) :
    (Pintos.byteToSector (379 * blockSectorSize : Nat)).Ends (BlockOp.exec none) (fun _ => True) (fun _ _ => False) b := by
  have hdiv : ((379 * blockSectorSize : Nat) : Int).tdiv blockSectorSize = 379 := by decide
  refine Ends.bind (Q := fun d _ => d = b.data) rfl ?_
  rintro _ b' rfl
  rw [if_pos (show ((379 * blockSectorSize : Nat) : Int) < b.data.length from h)]
  simp only [hdiv]
  refine Ends.bind (Ends.of_all (fun _ _ => trivial)) (fun c _ _ => ?_)
  refine Ends.bind (Ends.of_all (fun _ _ => trivial)) (fun x _ _ => ?_)
  refine Ends.bind (Ends.of_all (fun _ _ => trivial)) (fun c' _ _ => ?_)
  exact trivial

/-- Where `byte_to_sector` returns for block 379, the file does not reach so far. -/
theorem byteToSector_379 : Yields st (onBlocks noAlloc (.inode a) (Pintos.byteToSector (379 * blockSectorSize : Nat)))
    (fun _ _ => ∀ i, w.mem.inodes a = some i → i.data.length ≤ mapBytes) w := by
  cases hi : w.mem.inodes a with
  | none => exact of_all (fun _ _ i h => by cases h)
  | some i =>
    by_cases hle : i.data.length ≤ mapBytes
    · refine of_all (fun _ _ j hj => ?_)
      cases hj
      exact hle
    · have hpast := byteToSector_past (b := w.blocksOf i.data) (by show mapBytes < i.data.length; omega)
      exact (onBlocks_looks hi (byteToSector_looks _) hpast).mono (fun _ _ h => h.2.elim)

/-- Where a stretch is copied from or to a sector of the device, the stretch lies within the file: a sector number is one of
32 bits, and the last of them is no sector of a device. -/
theorem chunk_fits {length size : Int} {x n : Nat} (hlen : length ≤ 2147483647)
    (hs : 0 < size) (h0 : 0 ≤ offset) (hx : x < n) (hn : n ≤ invalidSector) (hend : length ≤ offset → x = invalidSector) :
    offset + chunkSize length size offset ≤ 2147483647 := by
  have hlt : offset < length := by
    by_contra hle
    omega
  have := (chunkSize_bounds length size offset hs h0 hlt hlen).2.2.1
  omega

theorem readChunks (a : Nat) (turns : Nat) :
    ∀ (size offset : Int) (bytes : List UInt8), 0 ≤ offset →
      Yields st (readChunks a turns size offset bytes)
        (fun r v => v = w ∧ bytes.length ≤ r.length ∧
          (w.dev.size ≤ invalidSector → bytes.length < r.length → offset + (r.length - bytes.length) ≤ 2147483647)) w := by
  induction turns with
  | zero => exact fun size offset bytes _ => pure_iff.mpr ⟨rfl, Nat.le_refl _, fun _ h => absurd h (Nat.lt_irrefl _)⟩
  | succ turns ih =>
    intro size offset bytes h0
    unfold Pintos.readChunks
    by_cases hs : 0 < size
    · rw [if_pos hs]
      refine (byteToSector offset).bind ?_
      rintro x _ ⟨rfl, hend⟩
      refine inode_bind (fun i hi => ?_)
      by_cases hc : chunkSize i.data.length size offset ≤ 0
      · rw [if_pos hc]
        exact pure_iff.mpr ⟨rfl, Nat.le_refl _, fun _ h => absurd h (Nat.lt_irrefl _)⟩
      rw [if_neg hc]
      refine (bufcacheRead x _ _).bind ?_
      rintro bs _ ⟨rfl, hx, hlen⟩
      refine (ih _ _ _ (by omega)).mono ?_
      rintro r _ ⟨rfl, hle, hfit⟩
      rw [List.length_append, hlen] at hle hfit
      refine ⟨rfl, by omega, fun hdev _ => ?_⟩
      have := chunk_fits i.data.length_le hs h0 hx hdev (hend i hi)
      omega
    · rw [if_neg hs]
      exact pure_iff.mpr ⟨rfl, Nat.le_refl _, fun _ h => absurd h (Nat.lt_irrefl _)⟩

theorem writeChunks (a : Nat) (buffer : List UInt8) (turns : Nat) :
    ∀ (size offset : Int) (written : Nat) (w : World), 0 ≤ offset →
      Yields st (writeChunks a buffer turns size offset written)
        (fun r v => v.mem = w.mem ∧ written ≤ r ∧ (r = written → v = w) ∧
          (w.dev.size ≤ invalidSector → written < r → offset + (r - written) ≤ 2147483647)) w := by
  induction turns with
  | zero => exact fun size offset written w _ =>
    pure_iff.mpr ⟨rfl, Nat.le_refl _, fun _ => rfl, fun _ h => absurd h (Nat.lt_irrefl _)⟩
  | succ turns ih =>
    intro size offset written w h0
    unfold Pintos.writeChunks
    by_cases hs : 0 < size
    · rw [if_pos hs]
      refine (byteToSector offset).bind ?_
      rintro x _ ⟨rfl, hend⟩
      refine inode_bind (fun i hi => ?_)
      by_cases hc : chunkSize i.data.length size offset ≤ 0
      · rw [if_pos hc]
        exact pure_iff.mpr ⟨rfl, Nat.le_refl _, fun _ => rfl, fun _ h => absurd h (Nat.lt_irrefl _)⟩
      rw [if_neg hc]
      refine (bufcacheWrite x _ _ _).bind ?_
      rintro _ u ⟨hmem, hsize, hx⟩
      refine (ih _ _ _ u (by omega)).mono ?_
      rintro r v ⟨hv, hle, -, hfit⟩
      refine ⟨hv.trans hmem, by omega, fun he => by omega, fun hdev _ => ?_⟩
      have := chunk_fits i.data.length_le hs h0 hx hdev (hend i hi)
      omega
    · rw [if_neg hs]
      exact pure_iff.mpr ⟨rfl, Nat.le_refl _, fun _ => rfl, fun _ h => absurd h (Nat.lt_irrefl _)⟩

end Yields

/-! ## An inode that is being extended -/

/-- The inode is marked as being extended. -/
def World.Extending (w : World) (a : Nat) : Prop := ∃ i, w.mem.inodes a = some i ∧ i.extending = true

/-- An inode that is marked stays so. -/
def StaysExtending (a : Nat) (w v : World) : Prop := w.Extending a → v.Extending a

namespace StaysExtending

variable {st : Bool}

theorem coarse {b : Nat} (hb : b ≠ a) : Coarse b (StaysExtending a) where
  refl _ := id
  trans _ _ _ h1 h2 := h2 ∘ h1
  disk _ _ := id
  inode w _ _ _ _ := fun ⟨j, hj, he⟩ => ⟨j, (w.mem.setInode_ne _ hb.symm).trans hj, he⟩

/-- `inode_write_at` waits as long as its inode is marked. -/
theorem inodeWriteAt (halloc : KeepsRel st (StaysExtending a) alloc) (b : Nat) (buffer : List UInt8)
    (size offset : Int) : KeepsRel st (StaysExtending a) (inodeWriteAt alloc b buffer size offset) := by
  by_cases hb : b = a
  · subst hb
    intro w
    by_cases hw : w.Extending b
    · obtain ⟨i, hi, he⟩ := hw
      refine Yields.inode_bind (fun j hj => ?_)
      cases hi.symm.trans hj
      by_cases hd : 0 < i.denyWriteCnt
      · rw [show i.enterWrite = none from if_pos hd]
        exact Yields.pure_iff.mpr id
      rw [show i.enterWrite = some i.entered from if_neg hd]
      refine Yields.modify_bind ?_
      rw [if_pos (show i.entered.extending = true from he)]
      exact Yields.halt
    · exact Yields.of_all (fun _ _ h => absurd h hw)
  · exact (coarse hb).inodeWriteAt halloc buffer size offset

theorem freeMapAllocate : KeepsRel st (StaysExtending a) freeMapAllocate :=
  (coarse (Nat.succ_ne_self a)).freeMapAllocate (fun _ _ _ h => h) (fun _ _ _ _ h => h)
    ((coarse (Nat.succ_ne_self a)).bitmapWrite (inodeWriteAt (KeepsRel.halt _)))

theorem onBlocks (p : BlockM α) : KeepsRel st (StaysExtending a) (Pintos.onBlocks Pintos.freeMapAllocate (.inode a) p) := by
  have hR := coarse (Nat.succ_ne_self a)
  refine hR.onBlocks (hR.bind (hR.inodeAt a) (fun i => hR.pure i.data)) (fun u w => ?_) freeMapAllocate p
  refine Yields.modifyInode (fun i hi => ?_)
  rintro ⟨j, hj, he⟩
  cases hi.symm.trans hj
  exact ⟨_, w.mem.setInode_self a _, he⟩

end StaysExtending

/-- The device has the size it had. -/
def SameSize (w v : World) : Prop := v.dev.size = w.dev.size

theorem SameSize.coarse (a : Nat) : Coarse a SameSize where
  refl _ := rfl
  trans _ _ _ h1 h2 := h2.trans h1
  disk _ _ := rfl
  inode _ _ _ _ _ := rfl

namespace Yields

variable {st : Bool} {w : World}

/-- `allocate_file` leaves an inode that has the new length or is still marked as being extended. -/
theorem allocateFile {n : Int} (hn : toInt32 n = n) :
    Yields st (allocateFile freeMapAllocate a n)
      (fun _ v => SameSize w v ∧ ∃ i, v.mem.inodes a = some i ∧ (i.extending = true ∨ i.data.length = n)) w := by
  have hsize : KeepsRel st SameSize (Pintos.allocateFile freeMapAllocate a n) :=
    (SameSize.coarse a).allocateFile ((SameSize.coarse a).freeMapAllocate (fun _ _ _ => rfl) (fun _ _ _ _ h => h)
      (KeepsRel.bitmapWrite SameSize.coarse)) n
  refine (hsize.yields w).both ?_
  refine modifyInode_bind (fun i hi => ?_)
  refine ((StaysExtending.onBlocks (allocateBlocks n)).yields _).bind ?_
  intro ok v hv
  obtain ⟨j, hj, he⟩ := hv ⟨i.beginGrowth, w.mem.setInode_self a _, rfl⟩
  cases ok with
  | false => exact pure_iff.mpr ⟨j, hj, .inl he⟩
  | true =>
    refine modifyInode (fun j' _ => ⟨_, v.mem.setInode_self a _, .inr ?_⟩)
    exact InodeDisk.length_setLength _ (hn ▸ le_toInt32 n) (hn ▸ toInt32_lt n)

/-- What is known of a write that has returned `n`, on an inode that was `i` before. -/
structure Outcome (w v : World) (a : Nat) (i : Inode) (size offset n : Int) : Prop where
  nonneg : 0 ≤ n
  fits : w.dev.size ≤ invalidSector → 0 < n → offset + n ≤ 2147483647
  /-- A write that is denied or stays within the file changes nothing if it transfers nothing. -/
  within : 0 < i.denyWriteCnt ∨ toInt32 (size + offset) ≤ i.data.length → n = 0 → v = w
  /-- One that extends the file changes the inode, whatever it transfers. -/
  growth : ¬(0 < i.denyWriteCnt ∨ toInt32 (size + offset) ≤ i.data.length) → v.mem.inodes a ≠ some i

/-- The end of `inode_write_at`: the copying, and the writer counts itself out. -/
theorem copyOut (buffer : List UInt8) {size : Int} (h0 : 0 ≤ offset) {j : Inode} (hj : w.mem.inodes a = some j) :
    Yields st (do
        let written ← Pintos.writeChunks a buffer size.toNat size offset 0
        FsM.modifyInode a Inode.leaveWrite
        pure (written : Int))
      (fun n v => 0 ≤ n ∧ (w.dev.size ≤ invalidSector → 0 < n → offset + n ≤ 2147483647) ∧ v.mem.inodes a = some j.leaveWrite ∧
        (n = 0 → v = { w with mem := w.mem.setInode a (some j.leaveWrite) })) w := by
  refine (writeChunks a buffer size.toNat size offset 0 w h0).bind ?_
  rintro r v ⟨hmem, -, hsame, hfit⟩
  refine modifyInode_bind (fun j' hj' => pure_iff.mpr ?_)
  rw [hmem, hj] at hj'
  cases hj'
  refine ⟨Int.natCast_nonneg r, fun hdev hr => ?_, v.mem.setInode_self a _, fun hr => ?_⟩
  · omega
  · rw [hsame (by omega)]

theorem inodeWriteAt {i : Inode} (hi : w.mem.inodes a = some i) (buffer : List UInt8) (size : Int) {offset : Int}
    (h0 : 0 ≤ offset) :
    Yields st (Pintos.inodeWriteAt freeMapAllocate a buffer size offset) (fun n v => Outcome w v a i size offset n) w := by
  refine inode_bind (fun j hj => ?_)
  cases hi.symm.trans hj
  by_cases hd : 0 < i.denyWriteCnt
  · have henter : i.enterWrite = none := if_pos hd
    rw [henter]
    exact pure_iff.mpr
      { nonneg := Int.le_refl 0
        fits := fun _ h => absurd h (Int.lt_irrefl 0)
        within := fun _ _ => rfl
        growth := fun h => absurd (.inl hd) h }
  · have henter : i.enterWrite = some i.entered := if_neg hd
    rw [henter]
    refine modify_bind ?_
    by_cases he : i.extending = true
    · rw [if_pos (show i.entered.extending = true from he)]
      exact halt
    rw [if_neg (show ¬i.entered.extending = true from he)]
    by_cases hg : i.data.length < toInt32 (size + offset)
    · -- The file is to grow: its inode is left with another length, or marked.
      rw [if_pos (show i.entered.needsGrowth size offset = true from decide_eq_true hg)]
      have hn : toInt32 (toInt32 (size + offset)) = toInt32 (size + offset) := toInt32_of_fits (le_toInt32 _) (toInt32_lt _)
      refine (allocateFile hn).bind ?_
      rintro _ u ⟨hsize, j, hj, hgrown⟩
      refine (copyOut buffer h0 hj).mono ?_
      rintro n v ⟨hnonneg, hfit, hcell, -⟩
      refine ⟨hnonneg, fun hdev => hfit (hsize ▸ hdev), fun h => absurd h (by omega), fun _ hv => ?_⟩
      rw [hcell] at hv
      cases hv
      rcases hgrown with hgrown | hgrown
      · exact he hgrown
      · have hdata : j.leaveWrite.data.length = toInt32 (size + offset) := hgrown
        omega
    · rw [if_neg (show ¬i.entered.needsGrowth size offset = true by simp only [Inode.needsGrowth, decide_eq_true_eq]; exact hg)]
      refine (copyOut buffer h0 (w.mem.setInode_self a _)).mono ?_
      rintro n v ⟨hnonneg, hfit, -, hsame⟩
      refine ⟨hnonneg, hfit, fun _ hn => ?_, fun h => absurd (.inr (by omega)) h⟩
      rw [hsame hn, i.leaveWrite_entered, Fs.setInode_setInode, Fs.setInode_eq _ hi]

end Yields

end Pintos
