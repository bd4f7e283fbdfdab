import Pintos.Lemmas.FreeMap

/-!
# Growing a file alone

`allocate_file` is proved safe beside other threads, which may write to the sectors `E` at any time. Run alone it meets one
other writer: the free map, which writes its file each time that it gives out a sector. A block map program that is safe
beside writers to `E` does, as part of the file system and with the free map's file in the sectors `E`, what its
specification says.
-/

namespace Pintos

open Program

variable (ref : DataRef) (w : World)

/-- The inode is not the one that the free map is kept in. -/
def World.NotFreeMap (a : Nat) : Prop :=
  ∀ f file, w.mem.freeMapFile = some f → w.mem.files f = some file → file.inode ≠ a

/-- An inode that is not the free map's does not matter to it. -/
theorem FreeMapState.setInode {w : World} {E : Nat → Prop} {a : Nat} (h : FreeMapState w E) (hnot : w.NotFreeMap a)
    (v : Option Inode) : FreeMapState { w with mem := w.mem.setInode a v } E :=
  h.frame rfl rfl rfl (fun f file hf hfile => ⟨hfile, Fs.setInode_ne _ _ (hnot f file hf hfile)⟩) rfl (fun _ _ => rfl)

/-- The `struct inode_disk` that a reference leads to. -/
def DataRef.look (fs : Fs) : InodeDisk :=
  match ref with
  | .inode a => ((fs.inodes a).map (·.data)).getD (Contents.fill 0)
  | .fresh => fs.diskInode

/-- The memory with that `struct inode_disk` replaced. -/
def DataRef.store (d : InodeDisk) (fs : Fs) : Fs :=
  match ref with
  | .inode a => fs.setInode a ((fs.inodes a).map (fun i => { i with data := d }))
  | .fresh => { fs with diskInode := d }

/-- The reference leads to something, and not to the inode of the free map. -/
def DataRef.Valid : Prop :=
  match ref with
  | .inode a => (w.mem.inodes a).isSome = true ∧ w.NotFreeMap a
  | .fresh => True

/-- What the growth of a file may have changed: its data, bits of the free map and bytes of sectors. -/
structure Growing (w v : World) (ref : DataRef) (E : Nat → Prop) : Prop where
  mem : ∃ d, v.mem = { ref.store d w.mem with freeMap := v.mem.freeMap }
  size : v.dev.size = w.dev.size
  state : FreeMapState v E

namespace DataRef

variable {ref : DataRef} {fs : Fs} {d e : InodeDisk}

@[simp] theorem store_store : ref.store d (ref.store e fs) = ref.store d fs := by
  cases ref with
  | inode a =>
    simp only [store, Fs.setInode_self, Fs.setInode_setInode, Option.map_map]
    rfl
  | fresh => rfl

theorem store_freeMap (bits : Nat → Bool) : ref.store d { fs with freeMap := bits } =
    { ref.store d fs with freeMap := bits } := by
  cases ref <;> rfl

section

variable (h : ∀ a, ref = .inode a → (fs.inodes a).isSome = true)
include h

theorem store_look : ref.store (ref.look fs) fs = fs := by
  cases ref with
  | inode a =>
    obtain ⟨i, hi⟩ := Option.isSome_iff_exists.mp (h a rfl)
    refine Fs.setInode_eq _ ?_
    rw [look, hi]
    rfl
  | fresh => rfl

theorem look_store : ref.look (ref.store d fs) = d := by
  cases ref with
  | inode a =>
    obtain ⟨i, hi⟩ := Option.isSome_iff_exists.mp (h a rfl)
    simp [look, store, hi]
  | fresh => rfl

end

end DataRef

namespace Growing

variable {st : Bool} {w v : World} {ref : DataRef} {E : Nat → Prop}

theorem start (hv : ref.Valid w) (hs : FreeMapState w E) : Growing w w ref E where
  mem := by
    refine ⟨ref.look w.mem, ?_⟩
    rw [DataRef.store_look]
    rintro a rfl
    exact hv.1
  size := rfl
  state := hs

section

variable (h : Growing w v ref E)
include h

theorem isSome (hv : ref.Valid w) (a : Nat) (ha : ref = .inode a) : (v.mem.inodes a).isSome = true := by
  obtain ⟨d, hd⟩ := h.mem
  subst ha
  rw [hd]
  obtain ⟨i, hi⟩ := Option.isSome_iff_exists.mp hv.1
  simp [DataRef.store, hi]

theorem bitCnt_eq : v.mem.bitCnt = w.mem.bitCnt := by
  obtain ⟨d, hd⟩ := h.mem
  rw [hd]
  cases ref <;> rfl

theorem store (hv : ref.Valid w) (d : InodeDisk) : Growing w { v with mem := ref.store d v.mem } ref E where
  mem := by
    obtain ⟨e, he⟩ := h.mem
    refine ⟨d, ?_⟩
    rw [he, DataRef.store_freeMap, DataRef.store_store]
  size := h.size
  state := by
    obtain ⟨e, he⟩ := h.mem
    cases ref with
    | fresh => exact h.state.frame rfl rfl rfl (fun _ _ _ hf => ⟨hf, rfl⟩) rfl (fun _ _ => rfl)
    | inode a =>
      refine h.state.setInode (fun f file hf hfile => ?_) _
      rw [he] at hf hfile
      exact hv.2 f file hf hfile

theorem put {x : Nat} {c : Contents} (hE : ∀ y, E y → (v.put x c).dev.disk y = v.dev.disk y) : Growing w (v.put x c) ref E :=
  { h with
    state := h.state.frame rfl rfl rfl (fun _ _ _ hf => ⟨hf, rfl⟩) rfl hE }

end

end Growing

/-- When the free map, of so many sectors, says that there is none: all are used, and the runs in which that happens are not
left out. -/
def NoneFree (st : Bool) (n : Nat) (used : Nat → Bool) : Prop := st = false ∧ ∀ x < n, used x = true

namespace Runs

variable {st : Bool} {w v : World} {ref : DataRef} {E : Nat → Prop} {α : Type}

theorem dataRef_get (ref : DataRef) (hv : ∀ a, ref = .inode a → (w.mem.inodes a).isSome = true) :
    Runs st ref.get (fun d w' => d = ref.look w.mem ∧ w' = w) w := by
  cases ref with
  | fresh => exact get_bind.mpr (pure_iff.mpr ⟨rfl, rfl⟩)
  | inode a =>
    obtain ⟨i, hi⟩ := Option.isSome_iff_exists.mp (hv a rfl)
    refine (inode_bind hi).mpr (pure_iff.mpr ⟨?_, rfl⟩)
    rw [DataRef.look, hi]
    rfl

theorem dataRef_modify (ref : DataRef) (hv : ∀ a, ref = .inode a → (w.mem.inodes a).isSome = true) (f : InodeDisk → InodeDisk) :
    Runs st (ref.modify f) (fun _ w' => w' = { w with mem := ref.store (f (ref.look w.mem)) w.mem }) w := by
  cases ref with
  | fresh => exact modify_iff.mpr rfl
  | inode a =>
    obtain ⟨i, hi⟩ := Option.isSome_iff_exists.mp (hv a rfl)
    refine (modifyInode_iff hi).mpr ?_
    rw [DataRef.look, DataRef.store, hi]
    rfl

/-- One request of a block map program: the file system does what the request means, and then the free map's file may have
changed. -/
theorem blockRequest (hv : ref.Valid w) (hwhole : w.mem.bitCnt = w.dev.size) (h : Growing w v ref E) {n : Nat} (o : BlockOp)
    (hok : (blockSem (NoneFree st w.mem.bitCnt)).allowed o (v.blocksOf (ref.look v.mem)))
    (hG : ∀ r b, (blockSem (NoneFree st w.mem.bitCnt)).step o (v.blocksOf (ref.look v.mem)) r b →
    GrowOnly E n (v.blocksOf (ref.look v.mem)) b) :
    Runs st (Pintos.blockRequest Pintos.freeMapAllocate ref o) (fun r v' => Growing w v' ref E ∧
      ∃ b, (blockSem (NoneFree st w.mem.bitCnt)).step o (v.blocksOf (ref.look v.mem)) r b ∧
      Others E b (v'.blocksOf (ref.look v'.mem))) v := by
  have hsome := h.isSome hv
  have hset : ∀ f : InodeDisk → InodeDisk, Runs st (ref.modify f) (fun _ v' => Growing w v' ref E ∧
      v'.blocksOf (ref.look v'.mem) = { v.blocksOf (ref.look v.mem) with data := f (ref.look v.mem) }) v := by
    intro f
    refine (dataRef_modify ref hsome f).mono ?_
    rintro _ _ rfl
    refine ⟨h.store hv _, ?_⟩
    rw [DataRef.look_store hsome]
    cases ref <;> rfl
  cases o with
  | data =>
    refine (dataRef_get ref hsome).mono ?_
    rintro _ _ ⟨rfl, rfl⟩
    exact ⟨h, _, ⟨none, by simp, rfl⟩, .refl E _⟩
  | setDirect k x =>
    refine (hset (·.setDirectPtr k x)).mono ?_
    rintro _ v' ⟨hg, he⟩
    exact ⟨hg, _, ⟨none, by simp, rfl⟩, he ▸ .refl E _⟩
  | setSingly x =>
    refine (hset (·.setSinglyIndirectPtr x)).mono ?_
    rintro _ v' ⟨hg, he⟩
    exact ⟨hg, _, ⟨none, by simp, rfl⟩, he ▸ .refl E _⟩
  | setDoubly x =>
    refine (hset (·.setDoublyIndirectPtr x)).mono ?_
    rintro _ v' ⟨hg, he⟩
    exact ⟨hg, _, ⟨none, by simp, rfl⟩, he ▸ .refl E _⟩
  | allocate =>
    refine (Runs.freeMapAllocate h.state).mono ?_
    rintro r v' (⟨x, dev, rfl, ⟨hlt, hfree, -⟩, rfl, hdev, hstate⟩ | ⟨rfl, hst, rfl, hfull⟩)
    · have hx : x < v.dev.size := by rw [h.size, ← hwhole, ← h.bitCnt_eq]; exact hlt
      refine ⟨⟨?_, hdev.size.trans h.size, hstate⟩, (v.blocksOf (ref.look v.mem)).mark x,
        ⟨some x, fun _ => ⟨?_, by simp⟩, rfl⟩, ?_⟩
      · obtain ⟨d, hd⟩ := h.mem
        refine ⟨d, ?_⟩
        unfold Fs.setBit
        rw [hd]
      · simp [BlockWorld.mayChoose, World.blocksOf, Block.checkSector, hx, hfree]
      · exact ⟨by cases ref <;> rfl, rfl, hdev.size, hdev.same⟩
    · exact ⟨h, _, ⟨none, fun _ => ⟨rfl, fun _ => ⟨hst, h.bitCnt_eq ▸ hfull⟩⟩, rfl⟩, .refl E _⟩
  | read x =>
    have hx : v.dev.checkSector x = true := by
      by_contra hx
      exact hok none .panic (by simp [BlockOp.exec, World.blocksOf, hx])
    exact (readSector_iff (of_decide_eq_true hx)).mpr ⟨h, _, ⟨none, by simp, if_pos hx⟩, .refl E _⟩
  | write x c =>
    have hx : v.dev.checkSector x = true := by
      by_contra hx
      exact hok none .panic (by simp [BlockOp.exec, World.blocksOf, hx])
    have hstep : (blockSem (NoneFree st w.mem.bitCnt)).step (.write x c) (v.blocksOf (ref.look v.mem)) ()
      ((v.blocksOf (ref.look v.mem)).put x c) :=
      ⟨none, by simp, if_pos hx⟩
    exact (writeSector_iff (of_decide_eq_true hx)).mpr ⟨h.put (hG _ _ hstep).2.2.2.2, _, hstep, .refl E _⟩
  | wild => exact absurd rfl (hok none .wild)

/-- A safe block map program, as part of the file system. -/
theorem onBlocks_safe (ref : DataRef) (hv : ref.Valid w) (hwhole : w.mem.bitCnt = w.dev.size) (hstate : FreeMapState w E)
    {n : Nat} {p : BlockM α} {Q : α → BlockWorld → Prop}
    (hs : p.Safe (blockSem (NoneFree st w.mem.bitCnt)) (Others E) (GrowOnly E n) Q (w.blocksOf (ref.look w.mem))) :
    Runs st (onBlocks Pintos.freeMapAllocate ref p) (fun a v => Growing w v ref E ∧ Q a (v.blocksOf (ref.look v.mem))) w := by
  unfold Runs
  refine Prog.Safe.ends (J := fun v => Growing w v ref E)
    (Others.refl E) Others.trans (fun o v hg hok hG => ?_) hs (.start hv hstate)
  have hop := blockRequest hv hwhole hg o hok hG
  unfold Runs at hop
  exact hop

end Runs

end Pintos
