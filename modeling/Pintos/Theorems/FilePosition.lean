import Pintos.Theorems.InodeIo

/-!
# The position of an open file (`filesys/file.c`)

`file_seek` sets the position, and `file_read` and `file_write` advance it by what they have transferred: that is what their
comments say, and it is the law here. What `file_read` adds is the value that `inode_read_at` returns, and that is -1 where
the bytes asked for are not all there.
-/

namespace Pintos

open Program Yields Runs

/-- The calls that move the position. -/
inductive FileStep where
  | seek (pos : Int)
  | read (size : Int)
  | write (buffer : List UInt8) (size : Int)

namespace FileStep

/-- The call, and the number of bytes that it has transferred. -/
def run (f : Nat) : FileStep → FsM Int
  | .seek pos => do
    fileSeek f pos
    pure 0
  | .read size => do
    let (_, bytes) ← fileRead f size
    pure bytes.length
  | .write buffer size => fileWrite f buffer size

/-- Where the position ought to be after the call, from `e` and the number of bytes that it has transferred. -/
def target (e n : Int) : FileStep → Int
  | .seek pos => pos
  | .read _ | .write _ _ => e + n

/-- The calls that are looked at: sizes are not negative, and a position is an `off_t` that is not negative. -/
def Legal : FileStep → Prop
  | .seek pos => 0 ≤ pos ∧ pos ≤ 2147483647
  | .read size | .write _ size => 0 ≤ size

/-- A read asks for bytes within the file. -/
def Inside (f : Nat) (w : World) : FileStep → Prop
  | .seek _ | .write _ _ => True
  | .read size => ∀ file i, w.mem.files f = some file → w.mem.inodes file.inode = some i →
  toInt32 (file.pos + size) ≤ i.data.length

end FileStep

/-- `file_tell` reports `e`, and that is not negative. -/
def Tells (f : Nat) (e : Int) (w : World) : Prop := 0 ≤ e ∧ Runs false (fileTell f) (fun pos v => pos = e ∧ v = w) w

/-- The position is where it ought to be now, and after each of the calls that follow. -/
def PositionLaw (f : Nat) : List FileStep → Int → World → Prop
  | [], e, w => Tells f e w
  | c :: cs, e, w => Tells f e w ∧ ∀ n v, (c.run f).run (FsOp.exec false) w = .ok (n, v) → PositionLaw f cs (c.target e n) v

/-- Every read among the calls, when it is made, asks for bytes within the file. -/
def ReadsInside (f : Nat) : List FileStep → World → Prop
  | [], _ => True
  | c :: cs, w => ∀ n v, (c.run f).run (FsOp.exec false) w = .ok (n, v) → c.Inside f w ∧ ReadsInside f cs v

/-! ## One call -/

variable {w : World} {f : Nat} {file : OpenFile} {e : Int}

theorem tells_iff : Tells f e w ↔ 0 ≤ e ∧ ∃ file, w.mem.files f = some file ∧ file.pos = e := by
  refine and_congr_right fun _ => ?_
  constructor
  · intro h
    obtain ⟨pos, v, hrun, rfl, rfl⟩ := h.returns
    cases hf : v.mem.files f with
    | some file =>
      refine ⟨file, rfl, ?_⟩
      exact (of_run (Q := fun pos _ => file.pos = pos) hrun).mp ((file_bind hf).mpr (pure_iff.mpr rfl))
    | none =>
      have hnone : Yields false (FsM.file f >>= fun file => pure file.pos) (fun _ _ => False) v :=
        file_bind fun file h => absurd (hf.symm.trans h) (by simp)
      exact (hnone.ok hrun).elim
  · rintro ⟨file, hf, rfl⟩
    exact (file_bind hf).mpr (pure_iff.mpr ⟨rfl, rfl⟩)

/-- The files and the size of the device are what they were. -/
def SameHandles (w v : World) : Prop := v.mem.files = w.mem.files ∧ v.dev.size = w.dev.size

theorem SameHandles.coarse (a : Nat) : Coarse a SameHandles where
  refl _ := ⟨rfl, rfl⟩
  trans _ _ _ h1 h2 := ⟨h2.1.trans h1.1, h2.2.trans h1.2⟩
  disk _ _ := ⟨rfl, rfl⟩
  inode _ _ _ _ _ := ⟨rfl, rfl⟩

/-- What a call has done to the position, which was `e`. -/
structure Moved (f : Nat) (e n : Int) (c : FileStep) (w v : World) : Prop where
  size : v.dev.size = w.dev.size
  fits : c.Inside f w → c.target e n ≤ 2147483647
  law : Tells f (c.target e n) v ↔ c.Inside f w

/-- The position after `file->pos += n`, where `n` bytes have been transferred. -/
theorem tells_advance {n : Int} (hpos : 0 ≤ file.pos) (hle : file.pos ≤ 2147483647) (hn : 0 ≤ n)
    (hfit : 0 < n → file.pos + n ≤ 2147483647) :
    file.pos + n ≤ 2147483647 ∧
      Tells f (file.pos + n) { w with mem := w.mem.setFile f (some { file with pos := toInt32 (file.pos + n) }) } := by
  have hend : file.pos + n ≤ 2147483647 := by
    by_cases h : 0 < n
    · exact hfit h
    · omega
  refine ⟨hend, tells_iff.mpr ⟨by omega, _, w.mem.setFile_self f _, ?_⟩⟩
  exact toInt32_of_fits (by omega) (by omega)

section

variable (hf : w.mem.files f = some file) (hpos : 0 ≤ file.pos) (hle : file.pos ≤ 2147483647) (hdev : w.dev.size ≤ invalidSector)
include hf hpos hle hdev

theorem Moved.read (size : Int) :
    Yields false ((FileStep.read size).run f) (fun n v => Moved f file.pos n (.read size) w v) w := by
  unfold FileStep.run fileRead
  simp only [bind_assoc]
  refine Yields.file_bind (fun file' hf' => ?_)
  cases hf.symm.trans hf'
  unfold inodeReadAt
  rw [bind_assoc]
  refine Yields.inode_bind (fun i hi => ?_)
  have hinside : FileStep.Inside f w (.read size) ↔ toInt32 (file.pos + size) ≤ i.data.length := by
    constructor
    · exact fun h => h file i hf hi
    · intro h file' i' hf' hi'
      cases hf.symm.trans hf'
      cases hi.symm.trans hi'
      exact h
  by_cases hwait : i.extending = true ∨ i.denyWriteCnt < 0
  · rw [if_pos hwait]
    exact trivial
  rw [if_neg hwait]
  by_cases hout : i.data.length < toInt32 (file.pos + size)
  · -- Not all the bytes are there: none is read, and the position goes back by one.
    rw [if_pos hout]
    have hnot : ¬FileStep.Inside f w (.read size) := fun h => absurd (hinside.mp h) (by omega)
    refine Yields.modify_bind (Yields.pure_iff.mpr ⟨rfl, fun h => absurd h hnot, fun h => ?_, fun h => absurd h hnot⟩)
    obtain ⟨-, file', hf', he⟩ := tells_iff.mp h
    rw [w.mem.setFile_self] at hf'
    cases hf'
    have he : toInt32 (file.pos + -1) = file.pos + 0 := he
    rw [toInt32_of_fits (by omega) (by omega)] at he
    omega
  · rw [if_neg hout, bind_assoc]
    refine (Yields.readChunks file.inode size.toNat size file.pos [] hpos).bind ?_
    rintro bytes u ⟨hu, -, hfit⟩
    subst u
    have hadv := tells_advance (f := f) (w := w) hpos hle (Int.natCast_nonneg _)
      (fun h => by simpa using hfit hdev (by simpa using h))
    exact Yields.modify_bind (Yields.pure_iff.mpr ⟨rfl, fun _ => hadv.1, fun _ => hinside.mpr (by omega), fun _ => hadv.2⟩)

theorem Moved.write (buffer : List UInt8) (size : Int) :
    Yields false ((FileStep.write buffer size).run f) (fun n v => Moved f file.pos n (.write buffer size) w v) w := by
  refine file_bind (fun file' hf' => ?_)
  cases hf.symm.trans hf'
  have hkeep : KeepsRel false SameHandles (inodeWriteAt freeMapAllocate file.inode buffer size file.pos) :=
    (SameHandles.coarse _).inodeWriteAt ((SameHandles.coarse 0).freeMapAllocate (fun _ _ _ => ⟨rfl, rfl⟩) (fun _ _ _ _ h => h)
      (KeepsRel.bitmapWrite SameHandles.coarse)) buffer size file.pos
  have hcount : Yields false (inodeWriteAt freeMapAllocate file.inode buffer size file.pos)
      (fun n _ => 0 ≤ n ∧ (0 < n → file.pos + n ≤ 2147483647)) w := by
    cases hi : w.mem.inodes file.inode with
    | none => exact inode_bind (fun i h => absurd (hi.symm.trans h) (by simp))
    | some i => exact (Yields.inodeWriteAt hi buffer size hpos).mono (fun n v h => ⟨h.nonneg, h.fits hdev⟩)
  refine ((hkeep.yields w).both hcount).bind ?_
  rintro n v ⟨⟨-, hsize⟩, hn, hfit⟩
  have hadv := tells_advance (f := f) (w := v) hpos hle hn hfit
  exact modify_bind (pure_iff.mpr ⟨hsize, fun _ => hadv.1, fun _ => trivial, fun _ => hadv.2⟩)

end

/-- A call moves the position as it ought to exactly when it is not a read that leaves the file. -/
theorem Moved.step (hw : Tells f e w) (hle : e ≤ 2147483647) (hdev : w.dev.size ≤ invalidSector)
    {c : FileStep} (hc : c.Legal) : Yields false (c.run f) (fun n v => Moved f e n c w v) w := by
  obtain ⟨he, file, hf, rfl⟩ := tells_iff.mp hw
  cases c with
  | read size => exact Moved.read hf he hle hdev size
  | write buffer size => exact Moved.write hf he hle hdev buffer size
  | seek pos =>
    unfold FileStep.run fileSeek
    simp only [bind_assoc]
    refine file_bind (fun file' hf' => ?_)
    cases hf.symm.trans hf'
    rw [show decide (0 ≤ pos) = true from decide_eq_true hc.1]
    refine modify_bind (pure_iff.mpr ⟨rfl, fun _ => hc.2, fun _ => trivial, fun _ => ?_⟩)
    exact tells_iff.mpr ⟨hc.1, _, w.mem.setFile_self f _, rfl⟩

/-! ## Many calls -/

theorem positionLaw_iff (cs : List FileStep) (hw : Tells f e w) (hle : e ≤ 2147483647)
    (hdev : w.dev.size ≤ invalidSector) (hcs : ∀ c ∈ cs, c.Legal) : PositionLaw f cs e w ↔ ReadsInside f cs w := by
  induction cs generalizing e w with
  | nil => exact ⟨fun _ => trivial, fun _ => hw⟩
  | cons c cs ih =>
    have hstep := Moved.step hw hle hdev (hcs c List.mem_cons_self)
    have htail : ∀ {n v}, Moved f e n c w v → c.Inside f w →
        (PositionLaw f cs (c.target e n) v ↔ ReadsInside f cs v) := fun hm hin =>
      ih (hm.law.mpr hin) (hm.fits hin) (hm.size ▸ hdev) (fun c' hc' => hcs c' (List.mem_cons_of_mem c hc'))
    constructor
    · rintro ⟨-, h⟩ n v hrun
      have hm := hstep.ok hrun
      -- The position is right after the call, so the call was not a read that left the file.
      have hin : c.Inside f w := hm.law.mp (by
        have := h n v hrun
        cases cs with
        | nil => exact this
        | cons _ _ => exact this.1)
      exact ⟨hin, (htail hm hin).mp (h n v hrun)⟩
    · intro h
      refine ⟨hw, fun n v hrun => ?_⟩
      obtain ⟨hin, hrest⟩ := h n v hrun
      exact (htail (hstep.ok hrun) hin).mpr hrest

/-! ## Reading a file in pieces -/

/-- One `file_read` after the other, and all the bytes that they have put into their buffers. -/
def readPieces (f : Nat) : List Nat → FsM (List UInt8)
  | [] => pure []
  | size :: sizes => do
    let (_, bytes) ← fileRead f size
    let rest ← readPieces f sizes
    pure (bytes ++ rest)

/-- The bytes of an inode depend on the free map and the device only. -/
theorem World.byteAt_congr {v : World} (hmap : v.mem.freeMap = w.mem.freeMap) (hdev : v.dev = w.dev) (d : InodeDisk) :
    v.byteAt d = w.byteAt d := by
  have hblocks : v.blocksOf d = w.blocksOf d := by
    unfold World.blocksOf
    rw [hmap, hdev]
  have hfound : v.found = w.found := by
    funext r
    unfold World.found
    rw [hdev]
  funext k
  unfold World.byteAt World.sectorAt
  rw [hblocks, hfound, hdev]

/-- Pieces that lie within the file, read one after the other from the position on: they are the bytes from there on. -/
theorem Runs.readPieces {i : Inode} (sizes : List Nat) (hf : w.mem.files f = some file)
    (hi : w.mem.inodes file.inode = some i) (hext : i.extending = false) (hdeny : 0 ≤ i.denyWriteCnt) (hpos : 0 ≤ file.pos)
    (hle : file.pos + sizes.sum ≤ i.data.length)
    (hmap : ∀ k : Nat, file.pos ≤ k → k < file.pos + sizes.sum → (w.byteAt i.data k).isSome) :
    Runs false (readPieces f sizes)
      (fun bytes _ => bytes.map some = (List.range sizes.sum).map (fun j => w.byteAt i.data (file.pos.toNat + j))) w := by
  induction sizes generalizing w file with
  | nil => exact pure_iff.mpr rfl
  | cons size sizes ih =>
    have hlen := i.data.length_le
    rw [List.sum_cons] at hle hmap ⊢
    unfold readPieces fileRead
    simp only [bind_assoc]
    rw [file_bind hf]
    refine (inodeReadAt_mapped hi hext hdeny (Int.natCast_nonneg size) hpos (by omega)
      (fun k h1 h2 _ => hmap k h1 (by omega))).bind ?_
    rintro ⟨n, bytes⟩ u ⟨hr, hu⟩
    subst u
    rw [if_pos (by omega)] at hr
    obtain ⟨hn, hbytes⟩ := hr
    have hfit : toInt32 (file.pos + n) = file.pos + size := by
      rw [show n = size from hn, toInt32_of_fits (by omega) (by omega)]
    rw [modify_bind, hfit]
    obtain ⟨next, hnext⟩ : ∃ next : OpenFile, next = { file with pos := file.pos + size } := ⟨_, rfl⟩
    have hpos' : next.pos = file.pos + size := by rw [hnext]
    rw [← hnext]
    have hb : World.byteAt { w with mem := w.mem.setFile f (some next) } i.data = w.byteAt i.data :=
      World.byteAt_congr rfl rfl i.data
    have hnow : ({ w with mem := w.mem.setFile f (some next) } : World).mem.files f = some next := w.mem.setFile_self f _
    have hrest := ih hnow (by rw [hnext]; exact hi) (by omega) (by omega)
      (fun k h1 h2 => by rw [hb]; exact hmap k (by omega) (by omega))
    rw [hb, hpos'] at hrest
    refine hrest.bind fun rest _ hr => pure_iff.mpr ?_
    have hle : (size : Int) ≤ (size + sizes.sum : Nat) := by omega
    have hsplit := range_split (w.byteAt i.data) (Int.natCast_nonneg size) hle hpos
    rw [show ((size + sizes.sum : Nat) - (size : Int) : Int).toNat = sizes.sum by omega] at hsplit
    rw [List.map_append, hr]
    exact (congrArg (· ++ _) hbytes).trans hsplit.symm

/-- In every run of seeks, reads and writes, the position is never negative and is the last target plus the bytes transferred
since, exactly as far as each read stays within the file; and reads that do, from the start of a file that no one writes to,
return the file's bytes piece by piece. -/
theorem file_position_law {f : Nat} {w : World} {e : Int} (hw : Tells f e w) (hle : e ≤ 2147483647)
    (hdev : w.dev.size ≤ invalidSector) :
    (∀ cs : List FileStep, (∀ c ∈ cs, c.Legal) → (PositionLaw f cs e w ↔ ReadsInside f cs w)) ∧
    (∀ file i, w.mem.files f = some file → w.mem.inodes file.inode = some i → i.extending = false → 0 ≤ i.denyWriteCnt →
      file.pos = 0 →
      (∀ k : Nat, k < i.data.length → (w.byteAt i.data k).isSome) → ∀ sizes : List Nat, sizes.sum ≤ i.data.length →
      Runs false (readPieces f sizes) (fun bytes _ => bytes.map some = (List.range sizes.sum).map (w.byteAt i.data)) w) := by
  refine ⟨fun cs hcs => positionLaw_iff cs hw hle hdev hcs, ?_⟩
  intro file i hf hi hext hdeny hpos hmap sizes hsum
  have h := Runs.readPieces sizes hf hi hext hdeny (by omega) (by omega) (fun k _ h2 => hmap k (by omega))
  rw [hpos] at h
  simpa using h

/-- The file of one byte, with a `struct file` at its start. -/
def oneByteOpen : World :=
  { oneByteFile with mem := oneByteFile.mem.setFile 5 (some { inode := 0, pos := 0, denyWrite := false }) }

theorem oneByteOpen_tells : Tells 5 0 oneByteOpen := tells_iff.mpr ⟨Int.le_refl 0, _, Fs.setFile_self _ _ _, rfl⟩

/-- The byte is read, and after a seek to the start it is written over. -/
theorem oneByteOpen_law : PositionLaw 5 [.read 1, .seek 0, .write [9] 1] 0 oneByteOpen ∧
    ((FileStep.read 1).run 5 >>= fun _ => (FileStep.seek 0).run 5 >>= fun _ => (FileStep.write [9] 1).run 5).passes
      (fun n v => n == 1 && (v.mem.files 5).map OpenFile.pos == some 1) oneByteOpen = true := by
  refine ⟨((file_position_law oneByteOpen_tells (by decide) (by decide)).1 _ (by simp [FileStep.Legal])).mpr ?_,
    by decide +kernel⟩
  intro n v _
  refine ⟨fun file i hf hi => ?_, fun _ _ _ => ⟨trivial, fun _ _ _ => ⟨trivial, trivial⟩⟩⟩
  cases (show some _ = some file from hf)
  cases (show some _ = some i from hi)
  decide +kernel

/-- Two bytes are asked for: none is transferred, and the position is -1. -/
theorem oneByteOpen_minus_one : Tells 5 0 oneByteOpen ∧ ¬PositionLaw 5 [.read 2] 0 oneByteOpen ∧
    ∃ v, ((FileStep.read 2).run 5).run (FsOp.exec false) oneByteOpen = .ok (0, v) ∧
    (v.mem.files 5).map OpenFile.pos = some (-1) := by
  have hpass : ((FileStep.read 2).run 5).passes (fun n v => n == 0 && (v.mem.files 5).map OpenFile.pos == some (-1))
      oneByteOpen = true := by
    decide +kernel
  obtain ⟨n, v, hrun, ht⟩ := FsM.run_of_passes hpass
  obtain ⟨hn, hpos⟩ := Bool.and_eq_true_iff.mp ht
  obtain rfl : n = 0 := eq_of_beq hn
  have hpos : (v.mem.files 5).map OpenFile.pos = some (-1) := eq_of_beq hpos
  refine ⟨oneByteOpen_tells, fun h => ?_, v, hrun, hpos⟩
  obtain ⟨-, file, hf, he⟩ := tells_iff.mp (h.2 0 v hrun)
  rw [hf, Option.map_some, he] at hpos
  cases hpos

end Pintos
