import Pintos.Lemmas.FsM

/-!
# What a program leaves alone, whatever state it runs in

The rules for runs need a file system in order. Some facts hold of any run that returns: that a `file_close` changes no
`struct file` but its own, and that sectors are given out in ascending order. For a relation that neither bytes on disk nor
inodes matter to, most programs keep it because they change nothing else.
-/

namespace Pintos

open Program Prog

/-- The inodes are of the same sector, with the same openers, and both or neither are removed. No reader or writer changes
that. -/
def Inode.SameOpen (i j : Inode) : Prop := j.sector = i.sector ∧ j.openCnt = i.openCnt ∧ j.removed = i.removed

/-- A relation between worlds in which steps can be composed, and to which neither the bytes on disk matter nor what a writer
changes of the inode at `a`. -/
structure Coarse (a : Nat) (R : World → World → Prop) : Prop where
  refl : ∀ w, R w w
  trans : ∀ u v w, R u v → R v w → R u w
  disk : ∀ w disk, R w { w with dev := { w.dev with disk := disk } }
  inode : ∀ w i j, w.mem.inodes a = some i → i.SameOpen j → R w { w with mem := w.mem.setInode a (some j) }

/-- The program keeps the relation in every run that returns. -/
def KeepsRel (st : Bool) (R : World → World → Prop) {α : Type} (p : FsM α) : Prop := p.Keeps (FsOp.exec st) R

namespace KeepsRel

variable {st : Bool} {R : World → World → Prop} {α β : Type}

theorem halt (e : Halt) : KeepsRel st R (FsM.halt e : FsM α) := fun _ => trivial

theorem get_bind {k : Fs → FsM β} (hk : ∀ w, (k w.mem).Ends (FsOp.exec st) (fun _ => True) (fun _ w' => R w w') w) :
    KeepsRel st R (FsM.get >>= k) := fun w => ends_call.mpr (hk w)

theorem get_bind' {k : Fs → FsM β} (hk : ∀ fs, KeepsRel st R (k fs)) : KeepsRel st R (FsM.get >>= k) :=
  get_bind (fun w => hk w.mem w)

theorem modify {u : Fs → Fs} (hu : ∀ w, R w { w with mem := u w.mem }) : KeepsRel st R (FsM.modify u) :=
  get_bind (fun w => ends_call.mpr (hu w))

theorem inode_bind {a : Nat} {k : Inode → FsM β}
    (hk : ∀ w i, w.mem.inodes a = some i → (k i).Ends (FsOp.exec st) (fun _ => True) (fun _ w' => R w w') w) :
    KeepsRel st R (FsM.inode a >>= k) := by
  unfold FsM.inode
  rw [bind_assoc]
  refine get_bind (fun w => ?_)
  cases hi : w.mem.inodes a with
  | none => exact trivial
  | some i => exact hk w i hi

end KeepsRel

namespace Coarse

variable {st : Bool} {a : Nat} {R : World → World → Prop} {α β : Type}

section

variable (hR : Coarse a R)
include hR

theorem pure (r : α) : KeepsRel st R (Pure.pure r : FsM α) := keeps_ret hR.refl r

theorem bind {p : FsM α} {k : α → FsM β} (hp : KeepsRel st R p) (hk : ∀ a, KeepsRel st R (k a)) : KeepsRel st R (p >>= k) :=
  Keeps.bind hR.trans hp hk

theorem assert (b : Bool) : KeepsRel st R (FsM.assert b) := by
  cases b
  · exact KeepsRel.halt _
  · exact hR.pure ()

variable (x : Nat)

theorem readSector : KeepsRel st R (FsM.readSector x) := by
  intro w
  refine ends_call.mpr ?_
  by_cases hc : w.dev.checkSector x
  · simp only [FsOp.exec, if_pos hc]
    exact hR.refl w
  · simp only [FsOp.exec, if_neg hc]

theorem write (ofs : Nat) (bs : List UInt8) : KeepsRel st R (.op (S := fsSig) (.write x ofs bs)) := by
  intro w
  refine ends_call.mpr ?_
  by_cases hc : w.dev.checkSector x
  · simp only [FsOp.exec, if_pos hc]
    exact hR.disk w _
  · simp only [FsOp.exec, if_neg hc]

theorem inodeAt (b : Nat) : KeepsRel st R (FsM.inode b) := by
  refine KeepsRel.get_bind' (fun fs => ?_)
  cases fs.inodes b with
  | none => exact KeepsRel.halt _
  | some i => exact hR.pure i

theorem file (g : Nat) : KeepsRel st R (FsM.file g) := by
  refine KeepsRel.get_bind' (fun fs => ?_)
  cases fs.files g with
  | none => exact KeepsRel.halt _
  | some file => exact hR.pure file

theorem modifyInode {u : Inode → Inode} (hu : ∀ i : Inode, i.SameOpen (u i)) : KeepsRel st R (FsM.modifyInode a u) :=
  KeepsRel.inode_bind (fun w i hi => hR.inode w i _ hi (hu i))

theorem bufcacheRead (ofs length : Int) : KeepsRel st R (FsM.bufcacheRead x ofs length) := by
  unfold FsM.bufcacheRead
  split
  · exact KeepsRel.halt _
  · exact hR.bind (hR.assert _) (fun _ => hR.bind (hR.readSector x) (fun _ => hR.pure _))

theorem bufcacheWrite (buffer : List UInt8) (ofs length : Int) : KeepsRel st R (FsM.bufcacheWrite x buffer ofs length) := by
  unfold FsM.bufcacheWrite
  split
  · exact KeepsRel.halt _
  · exact hR.bind (hR.assert _) (fun _ => hR.bind (hR.assert _) (fun _ => hR.write _ _ _))

end

variable {alloc : FsM (Option Nat)}

section

variable (hR : Coarse a R)
include hR

theorem onBlocks {ref : DataRef} (hget : KeepsRel st R ref.get)
    (hmodify : ∀ u, KeepsRel st R (ref.modify u)) (halloc : KeepsRel st R alloc) (p : BlockM α) :
    KeepsRel st R (onBlocks alloc ref p) := by
  refine Keeps.handle hR.refl hR.trans (fun o => ?_) p
  cases o with
  | data => exact hget
  | setDirect k x => exact hmodify (·.setDirectPtr k x)
  | setSingly x => exact hmodify (·.setSinglyIndirectPtr x)
  | setDoubly x => exact hmodify (·.setDoublyIndirectPtr x)
  | allocate => exact halloc
  | read x => exact hR.readSector x
  | write x c => exact hR.write x _ _
  | wild => exact KeepsRel.halt _

theorem onInode (halloc : KeepsRel st R alloc) (p : BlockM α) : KeepsRel st R (Pintos.onBlocks alloc (.inode a) p) :=
  hR.onBlocks (hR.bind (hR.inodeAt a) (fun i => hR.pure i.data))
    (fun u => hR.modifyInode (u := fun i => { i with data := u i.data }) (fun _ => ⟨rfl, rfl, rfl⟩)) halloc p

theorem readChunks (turns : Nat) (size offset : Int) (bytes : List UInt8) :
    KeepsRel st R (readChunks a turns size offset bytes) := by
  induction turns generalizing size offset bytes with
  | zero => exact hR.pure _
  | succ turns ih =>
    unfold Pintos.readChunks
    split
    · refine hR.bind (hR.onInode (KeepsRel.halt _) _) (fun _ => hR.bind (hR.inodeAt a) (fun i => ?_))
      dsimp only
      split
      · exact hR.pure _
      · exact hR.bind (hR.bufcacheRead _ _ _) (fun _ => ih _ _ _)
    · exact hR.pure _

theorem inodeReadAt (size offset : Int) : KeepsRel st R (inodeReadAt a size offset) := by
  refine hR.bind (hR.inodeAt a) (fun i => ?_)
  split
  · exact KeepsRel.halt _
  · split
    · exact hR.pure _
    · exact hR.bind (hR.readChunks _ _ _ _) (fun _ => hR.pure _)

theorem writeChunks (buffer : List UInt8) (turns : Nat) (size offset : Int) (written : Nat) :
    KeepsRel st R (writeChunks a buffer turns size offset written) := by
  induction turns generalizing size offset written with
  | zero => exact hR.pure _
  | succ turns ih =>
    unfold Pintos.writeChunks
    split
    · refine hR.bind (hR.onInode (KeepsRel.halt _) _) (fun _ => hR.bind (hR.inodeAt a) (fun i => ?_))
      dsimp only
      split
      · exact hR.pure _
      · exact hR.bind (hR.bufcacheWrite _ _ _ _) (fun _ => ih _ _ _)
    · exact hR.pure _

theorem allocateFile (halloc : KeepsRel st R alloc) (length : Int) : KeepsRel st R (Pintos.allocateFile alloc a length) := by
  refine hR.bind (hR.modifyInode (fun _ => ⟨rfl, rfl, rfl⟩)) (fun _ => hR.bind (hR.onInode halloc _) (fun ok => ?_))
  cases ok
  · exact hR.pure ()
  · exact hR.modifyInode (fun _ => ⟨rfl, rfl, rfl⟩)

theorem inodeWriteAt (halloc : KeepsRel st R alloc) (buffer : List UInt8)
    (size offset : Int) : KeepsRel st R (inodeWriteAt alloc a buffer size offset) := by
  refine KeepsRel.inode_bind (fun w i hi => ?_)
  cases henter : i.enterWrite with
  | none => exact hR.refl w
  | some i' =>
    have hopen : i.SameOpen i' := by
      unfold Inode.enterWrite at henter
      split at henter
      · cases henter
      · cases henter
        exact ⟨rfl, rfl, rfl⟩
    refine Ends.bind (Q := fun _ v => R w v) (hR.inode w i i' hi hopen) (fun _ v hv => ?_)
    refine Ends.mono ?_ (fun _ u hu => hR.trans w v u hv hu)
    split
    · exact trivial
    have hrest : KeepsRel st R (do
        let written ← Pintos.writeChunks a buffer size.toNat size offset 0
        FsM.modifyInode a Inode.leaveWrite
        Pure.pure (written : Int)) :=
      hR.bind (hR.writeChunks buffer _ _ _ _) (fun _ => hR.bind (hR.modifyInode (fun _ => ⟨rfl, rfl, rfl⟩)) (fun _ => hR.pure _))
    split
    · exact hR.bind (hR.allocateFile halloc _) (fun _ => hrest) v
    · exact hrest v

theorem bitmapWrite (hwrite : ∀ b buffer size offset, KeepsRel st R (Pintos.inodeWriteAt lockedAllocate b buffer size offset)) :
    KeepsRel st R Pintos.bitmapWrite := by
  refine KeepsRel.get_bind' (fun fs => ?_)
  cases fs.freeMapFile with
  | none => exact KeepsRel.halt _
  | some h => exact hR.bind (hR.file h) (fun file => hR.bind (hwrite file.inode _ _ _) (fun _ => hR.pure _))

/-- `free_map_allocate`, which clears a bit again only if it has set it. -/
theorem freeMapAllocate
    (hmark : ∀ w x, bitmapScan w.mem.bitCnt w.mem.freeMap = some x → R w { w with mem := w.mem.setBit x true })
    (hclear : ∀ w v x, bitmapScan w.mem.bitCnt w.mem.freeMap = some x → R w v → R w { v with mem := v.mem.setBit x false })
    (hwrite : KeepsRel st R Pintos.bitmapWrite) : KeepsRel st R Pintos.freeMapAllocate := by
  have hnone : KeepsRel st R (FsM.noSector >>= fun _ => Pure.pure (none : Option Nat)) := by
    intro w
    refine ends_call.mpr ?_
    cases st
    · exact hR.refl w
    · exact trivial
  refine KeepsRel.get_bind (fun w => ?_)
  cases hscan : bitmapScan w.mem.bitCnt w.mem.freeMap with
  | none => exact hnone w
  | some x =>
    have hx := hmark w x hscan
    refine ends_call.mpr ?_
    change Ends _ _ (if w.mem.freeMapFile.isSome then _ else _) _ _
    split
    · refine Ends.bind (hwrite _) (fun ok v hv => ?_)
      have hv := hR.trans _ _ _ hx hv
      cases ok
      · exact ends_call.mpr (ends_call.mpr ((hnone _).mono (fun _ u hu => hR.trans _ _ _ (hclear w v x hscan hv) hu)))
      · exact hv
    · exact hx

end

end Coarse

/-- The map is written to its file, whichever that is. -/
theorem KeepsRel.bitmapWrite {st : Bool} {R : World → World → Prop} (hR : ∀ a, Coarse a R) : KeepsRel st R Pintos.bitmapWrite :=
  (hR 0).bitmapWrite (fun a => (hR a).inodeWriteAt (KeepsRel.halt _))

/-! ## Closing a file -/

variable (f : Nat)

/-- The `struct file`s other than `f` are as they were. -/
def SameFiles (w w' : World) : Prop := ∀ g, g ≠ f → w'.mem.files g = w.mem.files g

theorem SameFiles.coarse (a : Nat) : Coarse a (SameFiles f) where
  refl _ _ _ := rfl
  trans _ _ _ h1 h2 g hg := (h2 g hg).trans (h1 g hg)
  disk _ _ _ _ := rfl
  inode _ _ _ _ _ _ _ := rfl

/-- The program changes no `struct file` but `f`. -/
def KeepsFiles {α : Type} (p : FsM α) : Prop := p.Keeps (FsOp.exec false) (SameFiles f)

namespace KeepsFiles

variable {f : Nat}

theorem modify {u : Fs → Fs} (hu : ∀ fs g, g ≠ f → (u fs).files g = fs.files g) : KeepsFiles f (FsM.modify u) :=
  KeepsRel.modify (fun w g hg => hu w.mem g hg)

variable (x a : Nat)

theorem setInode (i : Inode) : KeepsFiles f (FsM.setInode a i) := modify (fun _ _ _ => rfl)

theorem freeMapRelease : KeepsFiles f (freeMapRelease x) := by
  refine KeepsRel.get_bind (fun w => ?_)
  cases decide (x < w.mem.bitCnt) && w.mem.freeMap x with
  | false => exact trivial
  | true =>
    have hR := SameFiles.coarse f
    have hwrite : KeepsFiles f (bitmapWrite >>= fun _ => Pure.pure ()) :=
      (hR 0).bind (KeepsRel.bitmapWrite hR) (fun _ => (hR 0).pure ())
    exact ends_call.mpr (hwrite { w with mem := w.mem.setBit x false })

theorem releaseAll (xs : List Nat) : KeepsFiles f (releaseAll xs) := by
  induction xs with
  | nil => exact (SameFiles.coarse f 0).pure ()
  | cons x xs ih => exact (SameFiles.coarse f 0).bind (freeMapRelease x) (fun _ => ih)

theorem releaseIndirects (c : Contents) (todo i n : Nat) : KeepsFiles f (releaseIndirects c todo i n) := by
  have hR := SameFiles.coarse f 0
  induction todo generalizing i n with
  | zero => exact hR.pure ()
  | succ todo ih =>
    unfold Pintos.releaseIndirects
    split
    · exact hR.bind (hR.readSector _) (fun _ => hR.bind (releaseAll _) (fun _ => hR.bind (freeMapRelease _) (fun _ => ih _ _)))
    · exact KeepsRel.halt _

theorem deallocateFile : KeepsFiles f (Pintos.deallocateFile a) := by
  have hR := SameFiles.coarse f 0
  refine hR.bind (hR.inodeAt a) (fun i => hR.bind (releaseAll _) (fun _ => ?_))
  dsimp only
  have hlast : ∀ n, KeepsFiles f (if 0 < n then do
        let c ← FsM.readSector i.data.doublyIndirectPtr
        Pintos.releaseIndirects c ((n + (blockSectorSize - 1)) % 2 ^ 32 / blockSectorSize) 0 n
        Pintos.freeMapRelease i.data.doublyIndirectPtr
        Pintos.freeMapRelease i.sector
      else Pintos.freeMapRelease i.sector) := by
    intro n
    split
    · exact hR.bind (hR.readSector _) (fun _ => hR.bind (releaseIndirects _ _ _ _)
        (fun _ => hR.bind (freeMapRelease _) (fun _ => freeMapRelease _)))
    · exact freeMapRelease _
  split
  · exact hR.bind (hR.readSector _) (fun _ => hR.bind (releaseAll _) (fun _ => hR.bind (freeMapRelease _) (fun _ => hlast _)))
  · exact hlast _

theorem inodeClose : KeepsFiles f (inodeClose (some a)) := by
  have hR := SameFiles.coarse f 0
  have hfree : KeepsFiles f (FsM.modify (·.setInode a none)) := modify (fun _ _ _ => rfl)
  refine hR.bind (hR.inodeAt a) (fun i => hR.bind (setInode a _) (fun _ => ?_))
  split
  · refine hR.bind (modify (by exact fun _ _ _ => rfl)) (fun _ => hR.bind (hR.write _ _ _) (fun _ => ?_))
    split
    · exact hR.bind (deallocateFile a) (fun _ => hfree)
    · exact hfree
  · exact hR.pure ()

/-- `file_close` changes no other file. -/
theorem fileClose (f : Nat) : KeepsFiles f (fileClose (some f)) := by
  have hR := SameFiles.coarse f 0
  have hset : ∀ v, KeepsFiles f (FsM.modify (·.setFile f v)) := fun v => modify (fun fs g hg => Fs.setFile_ne fs v hg)
  have hallow : KeepsFiles f (fileAllowWrite f) := by
    refine hR.bind (hR.file f) (fun file => ?_)
    split
    · exact hR.bind (hset _) (fun _ => hR.bind (hR.inodeAt _) (fun i =>
        hR.bind (hR.assert _) (fun _ => hR.bind (hR.assert _) (fun _ => setInode _ _))))
    · exact hR.pure ()
  exact hR.bind hallow (fun _ => hR.bind (hR.file f) (fun file => hR.bind (inodeClose _) (fun _ => hset none)))

end KeepsFiles

end Pintos
